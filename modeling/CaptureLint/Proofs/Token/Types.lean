import CaptureLint.Proofs.Token.Names

/-!
# Written types

Types made of names, generic arguments, lists and optionals, and the pieces that their text is cut
into.  A `>` takes every operator character after it into one lexeme, so what the last signs of a
type are depends on the signs that follow it.  The statement is therefore about a type with signs
behind it, and each constructor hands signs on to the part that it ends with.
-/

namespace CaptureLint

structure TypeName where
  text : List Char
  spelled : Token.SpellsName text
  unmarked : text.head? ≠ some '#'
  free : Keyword.isReserved text = false
  unopened : String.ofList text ∉ Keyword.bodyOpeners

inductive TypeSyntax where
  | name (name : TypeName)
  | generic (name : TypeName) (argument : TypeSyntax)
  | binary (name : TypeName) (first second : TypeSyntax)
  | list (element : TypeSyntax)
  | optional (wrapped : TypeSyntax)

namespace TypeSyntax

def text : TypeSyntax → List Char
  | name n => n.text
  | generic n argument => n.text ++ '<' :: (argument.text ++ ['>'])
  | binary n first second => n.text ++ '<' :: (first.text ++ ',' :: ' ' :: (second.text ++ ['>']))
  | list element => '[' :: (element.text ++ [']'])
  | optional wrapped => wrapped.text ++ ['?']

/-- Whether the type ends with a `>`, apart from question marks. -/
def endsGeneric : TypeSyntax → Bool
  | name _ | list _ => false
  | generic _ _ | binary _ _ _ => true
  | optional wrapped => wrapped.endsGeneric

def glued : TypeSyntax → Bool
  | name _ | list _ => false
  | generic _ argument => argument.endsGeneric
  | binary _ _ second => second.endsGeneric
  | optional wrapped => wrapped.endsGeneric

end TypeSyntax

namespace Token

variable {before : Option Piece} {c : Char} {text signs rest right : List Char}

/-! ## Single lexemes of types -/

theorem lexemeAt_identifier (bound : Bool) {name : List Char} (h : SpellsName (c :: name))
    (hhash : c ≠ '#') (hfree : Keyword.isReserved (c :: name) = false)
    (hright : ∀ d ∈ right.head?, isNameChar d = false) :
    lexemeAt bound c (name ++ right) = (.identifier, name.length) := by
  cases h with
  | word hstart hrest =>
      rcases hstart with hstart | rfl
      · rw [lexemeAt_word_eq bound hstart hrest hright, hfree]
        rfl
      · rw [lexemeAt, if_neg (by simp), if_neg (by simp), if_neg (by decide), if_neg (by decide),
          if_neg (by decide), if_pos rfl, nameLength_append hrest hright]
  | hash => exact absurd rfl hhash
  | @quoted name hne hname =>
      rw [lexemeAt, if_neg (by simp), if_neg (by simp), if_neg (by decide), if_neg (by decide),
        if_pos rfl, quotedNameLength?_append hne hname, List.length_append, List.length_singleton]

theorem piecesFrom_name (name : TypeName) (before : Option Piece)
    (hright : ∀ d ∈ right.head?, isNameChar d = false) :
    piecesFrom [] before (name.text ++ right) = .lexeme .identifier name.text ::
      piecesFrom [] (some (.lexeme .identifier name.text)) right := by
  obtain ⟨text, hspelled, hhash, hfree, -⟩ := name
  obtain ⟨c, name, rfl⟩ := hspelled.exists_cons
  obtain ⟨hcode, hopening⟩ := isCode_of_spellsName [] hspelled right
  have hlexeme := lexemeAt_identifier (before.any Piece.takesSuffix) hspelled (by simpa using hhash)
    hfree hright
  rw [List.cons_append, piecesFrom_cons, hcode.cut_lexeme before hopening]
  simp only [hlexeme, List.take_left, List.drop_left]
  split
  · rfl
  · split <;> rfl

theorem mem_of_isSeparator (h : isSeparator c = true) :
    c ∈ ['(', ')', '[', ']', '\x7b', '\x7d', ',', ':', ';', '\\'] :=
  List.contains_iff_mem.mp h

theorem SpellsName.not_isOperatorChar {name : List Char} (h : SpellsName (c :: name)) :
    isOperatorChar c = false := by
  cases h with
  | word hstart =>
      rcases hstart with hstart | rfl
      · exact not_contains_of_isNameStart hstart (by decide)
      · rfl
  | hash => rfl
  | quoted => rfl

theorem piecesFrom_separator (before : Option Piece) (h : isSeparator c = true)
    (text : List Char) :
    piecesFrom [] before (c :: text) =
      .lexeme .punctuation [c] :: piecesFrom [] (some (.lexeme .punctuation [c])) text := by
  have hcut : cut [] before c text = ⟨[.lexeme .punctuation [c]], [], 0⟩ := by
    have hmem := mem_of_isSeparator h
    simp only [List.mem_cons, List.not_mem_nil, or_false] at hmem
    rcases hmem with rfl | rfl | rfl | rfl | rfl | rfl | rfl | rfl | rfl | rfl <;> rfl
  rw [piecesFrom_cons, hcut]
  rfl

theorem piecesFrom_space (before : Option Piece) (text : List Char) :
    piecesFrom [] before (' ' :: text) = .blank ' ' :: piecesFrom [] (some (.blank ' ')) text := by
  rw [piecesFrom_cons, cut_blank _ _ _ rfl]
  rfl

/-- A blank or a separator comes next, so names and operators end. -/
def Parts (rest : List Char) : Prop :=
  ∀ c ∈ rest.head?, Text.isBlank c = true ∨ isSeparator c = true

theorem parts_blank (text : List Char) : Parts (' ' :: text) := by
  rintro _ ⟨⟩
  exact .inl rfl

theorem parts_separator (h : isSeparator c = true) (text : List Char) : Parts (c :: text) := by
  rintro _ ⟨⟩
  exact .inr h

theorem not_class_of_isSeparator (h : isSeparator c = true) :
    isNameChar c = false ∧ isOperatorChar c = false := by
  have hall : ['(', ')', '[', ']', '\x7b', '\x7d', ',', ':', ';', '\\'].all
      (fun c => !isNameChar c && !isOperatorChar c) = true := by decide
  simpa using List.all_eq_true.mp hall c (mem_of_isSeparator h)

theorem not_isOperatorChar_of_isBlank (h : Text.isBlank c = true) : isOperatorChar c = false := by
  rw [Bool.eq_false_iff, isOperatorChar, ne_eq, List.contains_iff_mem]
  intro hmem
  have hnone : "/=-+!*%<>&|^~?".toList.all (!Text.isBlank ·) = true := by decide
  have hother := List.all_eq_true.mp hnone c hmem
  rw [h] at hother
  cases hother

theorem Parts.not_isNameChar (h : Parts rest) : ∀ c ∈ rest.head?, isNameChar c = false :=
  fun c hc => (h c hc).elim not_isNameChar_of_isBlank fun h => (not_class_of_isSeparator h).1

theorem Parts.not_isOperatorChar (h : Parts rest) : ∀ c ∈ rest.head?, isOperatorChar c = false :=
  fun c hc => (h c hc).elim not_isOperatorChar_of_isBlank fun h => (not_class_of_isSeparator h).2

/-! ## Signs behind a type -/

def AreMarks (signs : List Char) : Prop := ∀ c ∈ signs, c = '>' ∨ c = '?'

theorem areMarks_nil : AreMarks [] := fun _ h => (List.not_mem_nil h).elim

theorem AreMarks.cons (h : AreMarks signs) (hc : c = '>' ∨ c = '?') : AreMarks (c :: signs) := by
  intro d hd
  rcases List.mem_cons.mp hd with rfl | hd
  · exact hc
  · exact h d hd

/-- The pieces of signs behind something that takes a suffix: each `?` is one as long as no `>` has
come. -/
def marks : List Char → List Piece
  | [] => []
  | c :: signs =>
      if c = '?' then .lexeme .operator ['?'] :: marks signs else [.lexeme .operator (c :: signs)]

theorem operatorLength_marks (h : AreMarks signs) (hparts : Parts rest) :
    operatorLength (signs ++ rest) = signs.length := by
  induction signs with
  | nil =>
      cases rest with
      | nil => rfl
      | cons c rest => rw [List.nil_append, operatorLength, hparts.not_isOperatorChar c rfl]; rfl
  | cons c signs ih =>
      have hrest := ih fun d hd => h d (List.mem_cons_of_mem _ hd)
      rw [List.cons_append, operatorLength, hrest, List.length_cons, Nat.add_comm]
      rcases h c List.mem_cons_self with rfl | rfl <;> rfl

theorem AreMarks.not_isNameChar (h : AreMarks signs) (hparts : Parts rest) :
    ∀ c ∈ (signs ++ rest).head?, isNameChar c = false := by
  cases signs with
  | nil => exact hparts.not_isNameChar
  | cons c signs =>
      rintro _ ⟨⟩
      rcases h c List.mem_cons_self with rfl | rfl <;> rfl

theorem head?_marks (h : AreMarks signs) (hparts : Parts rest) :
    (signs ++ rest).head? ≠ some '=' := by
  intro hhead
  cases signs with
  | nil => exact absurd (hparts.not_isOperatorChar '=' hhead) (by decide)
  | cons c signs =>
      obtain rfl := Option.some.inj hhead
      rcases h '=' List.mem_cons_self with h | h <;> exact absurd h (by decide)

theorem piecesFrom_operator (before : Option Piece) (hc : c = '<' ∨ c = '>')
    (text : List Char) :
    piecesFrom [] before (c :: text) = .lexeme .operator (c :: text.take (operatorLength text)) ::
      piecesFrom [] (some (.lexeme .operator (c :: text.take (operatorLength text))))
        (text.drop (operatorLength text)) := by
  have hcut : cut [] before c text =
      ⟨[.lexeme .operator (c :: text.take (operatorLength text))], [], operatorLength text⟩ := by
    rcases hc with rfl | rfl <;> rfl
  rw [piecesFrom_cons, hcut]
  rfl

theorem lexemeAt_mark (h : rest.head? ≠ some '=') : lexemeAt true '?' rest = (.operator, 0) := by
  rw [lexemeAt, if_neg (by simp), if_neg (by simp), if_neg (by decide), if_neg (by decide),
    if_neg (by decide), if_neg (by decide), if_neg (by decide), if_neg (by decide),
    if_neg (by decide), if_pos ⟨.inl rfl, rfl, h⟩]

theorem piecesFrom_marks (h : AreMarks signs) (hparts : Parts rest)
    (hbefore : before.any Piece.takesSuffix = true) :
    ∃ last, piecesFrom [] before (signs ++ rest) = marks signs ++ piecesFrom [] last rest := by
  induction signs generalizing before with
  | nil => exact ⟨before, rfl⟩
  | cons c signs ih =>
      have hsigns : AreMarks signs := fun d hd => h d (List.mem_cons_of_mem _ hd)
      rcases h c List.mem_cons_self with rfl | rfl
      · refine ⟨some (.lexeme .operator ('>' :: signs)), ?_⟩
        rw [List.cons_append, piecesFrom_operator before (.inr rfl),
          operatorLength_marks hsigns hparts, List.take_left, List.drop_left]
        rfl
      · have hcut : cut [] before '?' (signs ++ rest) = ⟨[.lexeme .operator ['?']], [], 0⟩ := by
          rw [IsCode.cut_lexeme ⟨rfl, fun _ _ h => absurd h (by decide)⟩ before
            (opening?_of_ne 0 (by decide) (by decide) _), hbefore,
            lexemeAt_mark (head?_marks hsigns hparts)]
          rfl
        obtain ⟨last, hlast⟩ := @ih (some (.lexeme .operator ['?'])) hsigns rfl
        refine ⟨last, ?_⟩
        rw [List.cons_append, piecesFrom_cons, hcut]
        exact congrArg (Piece.lexeme .operator ['?'] :: ·) hlast

end Token

namespace TypeSyntax

open Token

def parts : TypeSyntax → List Char → List Piece
  | name n, signs => .lexeme .identifier n.text :: marks signs
  | generic n argument, signs =>
      .lexeme .identifier n.text :: .lexeme .operator ['<'] :: argument.parts ('>' :: signs)
  | binary n first second, signs =>
      .lexeme .identifier n.text :: .lexeme .operator ['<'] ::
        (first.parts [] ++ .lexeme .punctuation [','] :: .blank ' ' :: second.parts ('>' :: signs))
  | list element, signs =>
      .lexeme .punctuation ['['] ::
        (element.parts [] ++ .lexeme .punctuation [']'] :: marks signs)
  | optional wrapped, signs => wrapped.parts ('?' :: signs)

theorem not_isOperatorChar_head (type : TypeSyntax) :
    ∃ c rest, type.text = c :: rest ∧ isOperatorChar c = false := by
  have hname : ∀ name : TypeName, ∃ c rest, name.text = c :: rest ∧ isOperatorChar c = false := by
    intro name
    have hspelled := name.spelled
    obtain ⟨c, rest, htext⟩ := hspelled.exists_cons
    rw [htext] at hspelled
    exact ⟨c, rest, htext, hspelled.not_isOperatorChar⟩
  induction type with
  | name n => exact hname n
  | generic n argument _ | binary n _ _ _ _ =>
      obtain ⟨c, rest, htext, hc⟩ := hname n
      exact ⟨c, rest ++ _, by rw [text, htext, List.cons_append], hc⟩
  | list element _ => exact ⟨'[', _, rfl, rfl⟩
  | optional wrapped ih =>
      obtain ⟨c, rest, htext, hc⟩ := ih
      exact ⟨c, rest ++ _, by rw [text, htext, List.cons_append], hc⟩

theorem operatorLength_text (type : TypeSyntax) (rest : List Char) :
    operatorLength (type.text ++ rest) = 0 := by
  obtain ⟨c, inner, htext, hc⟩ := type.not_isOperatorChar_head
  rw [htext, List.cons_append, operatorLength, hc]
  rfl

theorem piecesFrom_angle (type : TypeSyntax) (before : Option Piece) (rest : List Char) :
    piecesFrom [] before ('<' :: (type.text ++ rest)) = .lexeme .operator ['<'] ::
      piecesFrom [] (some (.lexeme .operator ['<'])) (type.text ++ rest) := by
  rw [piecesFrom_operator before (.inl rfl), type.operatorLength_text, List.take_zero,
    List.drop_zero]

theorem piecesFrom_text (type : TypeSyntax) {signs rest : List Char} (h : AreMarks signs)
    (hparts : Parts rest) (before : Option Piece) :
    ∃ last, piecesFrom [] before (type.text ++ (signs ++ rest)) =
      type.parts signs ++ piecesFrom [] last rest := by
  induction type generalizing signs rest before with
  | name n =>
      obtain ⟨last, hlast⟩ :=
        @piecesFrom_marks (some (.lexeme .identifier n.text)) _ _ h hparts rfl
      refine ⟨last, ?_⟩
      rw [text, piecesFrom_name n before (h.not_isNameChar hparts), hlast]
      rfl
  | generic n argument ih =>
      obtain ⟨last, hlast⟩ := ih (h.cons (.inl rfl)) hparts (some (.lexeme .operator ['<']))
      refine ⟨last, ?_⟩
      simp only [text, List.append_assoc, List.cons_append, List.nil_append]
      rw [piecesFrom_name n before (by rintro _ ⟨⟩; rfl), piecesFrom_angle]
      rw [List.cons_append] at hlast
      rw [hlast]
      rfl
  | binary n first second ihfirst ihsecond =>
      obtain ⟨last, hlast⟩ :=
        ihsecond (h.cons (.inl rfl)) hparts (some (.blank ' '))
      obtain ⟨_, hfirst⟩ := ihfirst areMarks_nil (parts_separator (c := ',') rfl _)
        (some (.lexeme .operator ['<']))
      refine ⟨last, ?_⟩
      simp only [text, List.append_assoc, List.cons_append, List.nil_append] at hfirst hlast ⊢
      rw [piecesFrom_name n before (by rintro _ ⟨⟩; rfl), piecesFrom_angle, hfirst,
        piecesFrom_separator _ rfl, piecesFrom_space, hlast]
      simp only [parts, List.append_assoc, List.cons_append]
  | list element ih =>
      obtain ⟨_, helement⟩ := ih areMarks_nil (parts_separator (c := ']') rfl (signs ++ rest))
        (some (.lexeme .punctuation ['[']))
      obtain ⟨last, hlast⟩ :=
        @piecesFrom_marks (some (.lexeme .punctuation [']'])) _ _ h hparts rfl
      refine ⟨last, ?_⟩
      simp only [text, List.append_assoc, List.cons_append, List.nil_append] at helement ⊢
      rw [piecesFrom_separator before rfl, helement, piecesFrom_separator _ rfl, hlast]
      simp only [parts, List.append_assoc, List.cons_append]
  | optional wrapped ih =>
      obtain ⟨last, hlast⟩ := ih (h.cons (.inr rfl)) hparts before
      refine ⟨last, ?_⟩
      rw [text, List.append_assoc]
      exact hlast

end TypeSyntax

end CaptureLint
