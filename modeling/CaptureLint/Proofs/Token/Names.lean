import CaptureLint.Proofs.Token.Comment
import CaptureLint.Proofs.Token.Joining

/-!
# Names among the tokens

Which texts a name token can have, and when a name that is written in a text is a token there.  After
a character that is no part of a sign that opens or closes an interpolation, it always is, unless
something else has taken it up: a comment, a string, or a number that goes on through it.
-/

namespace CaptureLint.Token

/-- The spellings of names: a word, one after a dollar or number sign, and anything on one line
between backticks. -/
inductive SpellsName : List Char → Prop where
  | word {c : Char} {rest : List Char} (hstart : isNameStart c = true ∨ c = '$')
      (hrest : rest.all isNameChar = true) : SpellsName (c :: rest)
  | hash {rest : List Char} (hne : rest ≠ []) (hrest : rest.all isNameChar = true) :
      SpellsName ('#' :: rest)
  | quoted {name : List Char} (hne : name ≠ [])
      (hname : name.all (fun c => c != '\x60' && c != '\n') = true) :
      SpellsName ('\x60' :: (name ++ ['\x60']))

variable {opened : List Interpolation} {before : Option Piece} {c : Char}
  {rest name left right text : List Char} {kind : TokenKind} {length : Nat} {bound : Bool}

/-! ## Lexemes that are names -/

theorem take_nameLength (text : List Char) :
    text.take (nameLength text) = text.takeWhile isNameChar :=
  (List.prefix_iff_eq_take.mp (List.takeWhile_prefix isNameChar)).symm

theorem all_take_nameLength (text : List Char) :
    (text.take (nameLength text)).all isNameChar = true := by
  rw [take_nameLength]
  exact List.all_takeWhile

/-- What is found after `c` is spelled as a name if it is one. -/
def Named (c : Char) (rest : List Char) (found : TokenKind × Nat) : Prop :=
  found.1.isName = true → SpellsName (c :: rest.take found.2)

theorem Named.of_kind (length : Nat) (h : kind.isName = false) : Named c rest (kind, length) := by
  intro hname
  rw [h] at hname
  cases hname

theorem named_lexemeAt (bound : Bool) (c : Char) (rest : List Char) :
    Named c rest (lexemeAt bound c rest) := by
  unfold lexemeAt
  refine iteInduction (fun _ => .of_kind _ rfl) fun _ => ?_
  refine iteInduction (fun _ => .of_kind _ rfl) fun _ => ?_
  refine iteInduction (fun hhash => ?_) fun _ => ?_
  · subst hhash
    refine iteInduction (fun _ => .of_kind _ rfl) fun hlength _ => ?_
    refine .hash (fun hnil => hlength ?_) (all_take_nameLength rest)
    rw [take_nameLength] at hnil
    rw [nameLength, hnil, List.length_nil]
  refine iteInduction (fun _ => ?_) fun _ => ?_
  · exact iteInduction (fun _ => .of_kind _ rfl) fun _ => .of_kind _ rfl
  refine iteInduction (fun hquote => ?_) fun _ => ?_
  · subst hquote
    split
    · rename_i length hlength
      obtain ⟨name, htake, hne, hall⟩ := split_of_quotedNameLength? hlength
      intro _
      rw [htake]
      exact .quoted hne hall
    · exact .of_kind _ rfl
  refine iteInduction (fun hdollar _ => .word (.inr hdollar) (all_take_nameLength rest)) fun _ => ?_
  refine iteInduction (fun _ => .of_kind _ rfl) fun _ => ?_
  refine iteInduction (fun _ => .of_kind _ rfl) fun _ => ?_
  refine iteInduction (fun _ => ?_) fun _ => ?_
  · exact iteInduction (fun _ => .of_kind _ rfl) fun _ => .of_kind _ rfl
  refine iteInduction (fun _ => .of_kind _ rfl) fun _ => ?_
  refine iteInduction (fun _ => .of_kind _ rfl) fun _ => ?_
  exact iteInduction (fun hstart _ => .word (.inl hstart) (all_take_nameLength rest)) fun _ =>
    .of_kind _ rfl

/-! ## Characters that start a name -/

/-- The characters that start a name: `_`, the letters of ASCII, and many beyond it. -/
theorem toNat_of_isNameStart (h : isNameStart c = true) :
    c = '_' ∨ (65 ≤ c.toNat ∧ c.toNat ≤ 90 ∨ 97 ≤ c.toNat ∧ c.toNat ≤ 122) ∨
      128 ≤ c.toNat ∧ Text.isBlank c = false := by
  have halpha : c.isAlpha = (decide ('A'.val ≤ c.val ∧ c.val ≤ 'Z'.val) ||
      decide ('a'.val ≤ c.val) && decide (c.val ≤ 'z'.val)) := rfl
  simp only [isNameStart, halpha, Bool.or_eq_true, Bool.and_eq_true, beq_iff_eq,
    decide_eq_true_eq, Bool.not_eq_true', UInt32.le_iff_toNat_le, Char.toNat_val,
    Char.reduceToNat] at h
  rcases h with (h | h) | h
  · exact .inl h
  · exact .inr (.inl h)
  · exact .inr (.inr h.1)

theorem not_isBlank_of_isNameStart (h : isNameStart c = true) : Text.isBlank c = false := by
  rcases toNat_of_isNameStart h with rfl | hascii | ⟨-, hblank⟩
  · rfl
  · rw [Bool.eq_false_iff, Text.isBlank]
    simp only [ne_eq, Bool.or_eq_true, Bool.and_eq_true, beq_iff_eq, decide_eq_true_eq]
    omega
  · exact hblank

theorem not_isDigit_of_isNameStart (h : isNameStart c = true) : c.isDigit = false := by
  rw [Bool.eq_false_iff]
  simp only [Char.isDigit, ne_eq, Bool.and_eq_true, decide_eq_true_eq, ge_iff_le,
    UInt32.le_iff_toNat_le, Char.toNat_val, Char.reduceToNat]
  rcases toNat_of_isNameStart h with rfl | hascii | ⟨hbeyond, -⟩
  · decide
  · omega
  · omega

theorem not_isNameChar_of_isBlank (h : Text.isBlank c = true) : isNameChar c = false := by
  rw [isNameChar, Bool.or_eq_false_iff]
  constructor
  · rw [Bool.eq_false_iff]
    intro hstart
    rw [not_isBlank_of_isNameStart hstart] at h
    cases h
  · rw [Bool.eq_false_iff]
    intro hdigit
    simp only [Text.isBlank, Bool.or_eq_true, Bool.and_eq_true, beq_iff_eq, decide_eq_true_eq] at h
    simp only [Char.isDigit, Bool.and_eq_true, decide_eq_true_eq, ge_iff_le,
      UInt32.le_iff_toNat_le, Char.toNat_val, Char.reduceToNat] at hdigit
    omega

theorem ne_of_class {p : Char → Bool} {sign : Char} (h : p c = true) (hsign : p sign = false) :
    c ≠ sign := by
  rintro rfl
  rw [h] at hsign
  cases hsign

theorem not_contains_of_isNameStart {signs : List Char} (h : isNameStart c = true)
    (hsigns : signs.any isNameStart = false) : signs.contains c = false := by
  rw [Bool.eq_false_iff, ne_eq, List.contains_iff_mem]
  intro hmem
  rw [List.any_eq_false] at hsigns
  exact hsigns c hmem h

/-! ## Names that are lexemes -/

theorem nameLength_append (hname : name.all isNameChar = true)
    (hright : ∀ d ∈ right.head?, isNameChar d = false) :
    nameLength (name ++ right) = name.length := by
  rw [nameLength, List.takeWhile_append_of_pos (List.all_eq_true.mp hname)]
  cases right with
  | nil => simp
  | cons d right => rw [List.takeWhile_cons_of_neg (by simp [hright d rfl]), List.append_nil]

theorem quotedNameLength?_append (hne : name ≠ [])
    (hname : name.all (fun c => c != '\x60' && c != '\n') = true) (right : List Char) :
    quotedNameLength? (name ++ ['\x60'] ++ right) = some (name.length + 1) := by
  have htake : (name ++ ['\x60'] ++ right).takeWhile (fun c => c != '\x60' && c != '\n') =
      name := by
    rw [List.append_assoc, List.takeWhile_append_of_pos (List.all_eq_true.mp hname),
      List.singleton_append, List.takeWhile_cons_of_neg (by decide), List.append_nil]
  have hmark : (name ++ ['\x60'] ++ right)[name.length]? = some '\x60' := by simp
  rw [quotedNameLength?, htake, hmark, if_pos (by simpa using hne)]

theorem lexemeAt_word_eq (bound : Bool) (h : isNameStart c = true)
    (hname : name.all isNameChar = true) (hright : ∀ d ∈ right.head?, isNameChar d = false) :
    lexemeAt bound c (name ++ right) =
      (if Keyword.isReserved (c :: name) then .keyword else .identifier, name.length) := by
  have hne : ∀ {sign : Char}, isNameStart sign = false → c ≠ sign := ne_of_class h
  have hseparator : isSeparator c = false := not_contains_of_isNameStart h (by decide)
  have hoperator : isOperatorChar c = false := not_contains_of_isNameStart h (by decide)
  have hlength := nameLength_append hname hright
  have hslash : c ≠ '/' := hne (by decide)
  have hmark : ¬ (c = '?' ∨ c = '!') := by
    rintro (heq | heq) <;> exact hne (by decide) heq
  rw [lexemeAt, if_neg fun heq => hslash heq.1, if_neg fun heq => hslash heq.1,
    if_neg (hne (by decide)), if_neg (hne (by decide)), if_neg (hne (by decide)),
    if_neg (hne (by decide)), if_neg (by simp [not_isDigit_of_isNameStart h]),
    if_neg (by simp [hseparator]), if_neg (hne (by decide)), if_neg fun heq => hmark heq.1,
    if_neg (by simp [hoperator]), if_pos h]
  simp only [hlength, List.take_left]

theorem lexemeAt_word (bound : Bool) (h : isNameStart c = true)
    (hname : name.all isNameChar = true) (hright : ∀ d ∈ right.head?, isNameChar d = false) :
    ∃ kind, kind.isName = true ∧ lexemeAt bound c (name ++ right) = (kind, name.length) :=
  ⟨_, by split <;> rfl, lexemeAt_word_eq bound h hname hright⟩

theorem lexemeAt_of_spellsName (bound : Bool) (h : SpellsName (c :: name))
    (hright : ∀ d ∈ right.head?, isNameChar d = false) :
    ∃ kind, kind.isName = true ∧ lexemeAt bound c (name ++ right) = (kind, name.length) := by
  cases h with
  | word hstart hrest =>
      rcases hstart with hstart | rfl
      · exact lexemeAt_word bound hstart hrest hright
      · refine ⟨.identifier, rfl, ?_⟩
        rw [lexemeAt, if_neg (by simp), if_neg (by simp), if_neg (by decide), if_neg (by decide),
          if_neg (by decide), if_pos rfl, nameLength_append hrest hright]
  | hash hne hrest =>
      refine ⟨.keyword, rfl, ?_⟩
      have hlength : name.length ≠ 0 := fun hzero => hne (List.length_eq_zero_iff.mp hzero)
      rw [lexemeAt, if_neg (by simp), if_neg (by simp), if_pos rfl,
        nameLength_append hrest hright, if_neg hlength]
  | @quoted name hne hname =>
      refine ⟨.identifier, rfl, ?_⟩
      rw [lexemeAt, if_neg (by simp), if_neg (by simp), if_neg (by decide), if_neg (by decide),
        if_pos rfl, quotedNameLength?_append hne hname, List.length_append, List.length_singleton]

theorem opening?_of_ne (hashes : Nat) (hhash : c ≠ '#') (hquote : c ≠ '"') (rest : List Char) :
    Delimiter.opening? (List.replicate hashes '#' ++ c :: rest) = none := by
  unfold Delimiter.opening?
  dsimp only
  rw [takeWhile_hashes hashes hhash, List.drop_left]
  split
  · rename_i heq
    exact absurd (List.cons.inj heq).1 hquote
  · rename_i heq
    exact absurd (List.cons.inj heq).1 hquote
  · rfl

theorem isCode_of_spellsName (opened : List Interpolation) (h : SpellsName (c :: name))
    (right : List Char) :
    IsCode opened c ∧ Delimiter.opening? (c :: (name ++ right)) = none := by
  have hcode : ∀ {c : Char}, Text.isBlank c = false → c ≠ ')' → IsCode opened c :=
    fun hblank hround => ⟨hblank, fun _ _ heq => absurd heq hround⟩
  cases h with
  | word hstart hrest =>
      rcases hstart with hstart | rfl
      · exact ⟨hcode (not_isBlank_of_isNameStart hstart) (ne_of_class hstart (by decide)),
          opening?_of_ne 0 (ne_of_class hstart (by decide))
            (ne_of_class hstart (by decide)) _⟩
      · exact ⟨hcode (by decide) (by decide), opening?_of_ne 0 (by decide) (by decide) _⟩
  | hash hne hrest =>
      refine ⟨hcode (by decide) (by decide), ?_⟩
      obtain ⟨d, name, rfl⟩ := List.exists_cons_of_ne_nil hne
      have hd : isNameChar d = true := List.all_eq_true.mp hrest d List.mem_cons_self
      exact opening?_of_ne 1 (ne_of_class hd (by decide)) (ne_of_class hd (by decide)) _
  | quoted hne hname =>
      exact ⟨hcode (by decide) (by decide), opening?_of_ne 0 (by decide) (by decide) _⟩

theorem cut_of_spellsName (opened : List Interpolation) (before : Option Piece)
    (h : SpellsName (c :: name)) (hright : ∀ d ∈ right.head?, isNameChar d = false) :
    ∃ kind, kind.isName = true ∧
      (cut opened before c (name ++ right)).pieces = [.lexeme kind (c :: name)] := by
  obtain ⟨hcode, hopening⟩ := isCode_of_spellsName opened h right
  obtain ⟨kind, hkind, hlexeme⟩ :=
    lexemeAt_of_spellsName (before.any Piece.takesSuffix) h hright
  refine ⟨kind, hkind, ?_⟩
  rw [hcode.cut_lexeme before hopening]
  dsimp only
  rw [hlexeme, List.take_left]

/-! ## Places in a text -/

theorem exists_split_of_flatMap {parts : List Piece}
    (h : parts.flatMap Piece.text = left ++ right) (hne : right ≠ []) :
    ∃ first piece second covered later, parts = first ++ piece :: second ∧
      piece.text = covered ++ later ∧ left = first.flatMap Piece.text ++ covered ∧ later ≠ [] := by
  induction parts generalizing left with
  | nil => exact absurd (List.append_eq_nil_iff.mp h.symm).2 hne
  | cons piece parts ih =>
      rw [List.flatMap_cons, List.append_eq_append_iff] at h
      rcases h with ⟨rest, rfl, hrest⟩ | ⟨later, hpiece, rfl⟩
      · obtain ⟨first, next, second, covered, later, rfl, htext, rfl, hlater⟩ := ih hrest
        exact ⟨piece :: first, next, second, covered, later, rfl, htext, by simp, hlater⟩
      · cases later with
        | nil =>
            obtain ⟨first, next, second, covered, later, rfl, htext, hleft, hlater⟩ :=
              @ih [] rfl
            refine ⟨piece :: first, next, second, covered, later, rfl, htext, ?_, hlater⟩
            rw [List.flatMap_cons, List.append_assoc, ← hleft, hpiece, List.append_nil]
            simp
        | cons d later =>
            exact ⟨[], piece, parts, left, d :: later, rfl, hpiece, rfl, List.cons_ne_nil _ _⟩

/-- Of the pieces of a segment only an opening stands after another one. -/
theorem eq_opening_of_cutSegment {delimiter : Delimiter} {lead text : List Char}
    {first second : List Piece} {piece : Piece} (hne : first ≠ [])
    (h : (cutSegment delimiter opened lead text).1 = first ++ piece :: second) :
    ∃ hashes, piece = .opening hashes := by
  have hlength : ∀ literal : List Char, (if literal.isEmpty then []
      else [Piece.lexeme .string literal]).length ≤ 1 := by
    intro literal
    split <;> simp
  obtain ⟨head, first, rfl⟩ := List.exists_cons_of_ne_nil hne
  rcases hsegment : segment delimiter 0 text with ⟨length, ending⟩
  have hone := hlength (lead ++ text.take length)
  cases ending with
  | interpolation =>
      simp only [cutSegment, hsegment] at h
      generalize (if (lead ++ text.take length).isEmpty then []
        else [Piece.lexeme .string (lead ++ text.take length)]) = literal at h hone
      rcases literal with _ | ⟨other, _ | ⟨another, literal⟩⟩
      · simp at h
      · cases first with
        | nil => exact ⟨_, (List.cons.inj (List.cons.inj h).2).1.symm⟩
        | cons next first => simp at h
      · simp at hone
  | closed | broken =>
      simp only [cutSegment, hsegment] at h
      rw [h] at hone
      simp at hone

/-- A piece starts a step, opens an interpolation, or follows the bracket that closes one. -/
theorem piecesFrom_split {first second : List Piece} {piece : Piece}
    (h : piecesFrom opened before text = first ++ piece :: second) :
    (∃ inner last c rest, piecesFrom inner last (c :: rest) = piece :: second) ∨
      (∃ hashes, piece = .opening hashes) ∨ first.getLast? = some .closing := by
  induction opened, before, text using piecesFrom.induct generalizing first with
  | case1 => simp [piecesFrom_nil] at h
  | case2 opened before c rest found =>
      rename_i ih
      have hwhole := h
      rw [piecesFrom_cons, List.append_eq_append_iff] at h
      rcases h with ⟨later, rfl, hlater⟩ | ⟨tail, hstep, hlater⟩
      · rcases ih hlater with hstart | hopening | hclosing
        · exact .inl hstart
        · exact .inr (.inl hopening)
        · exact .inr (.inr (by rw [List.getLast?_append, hclosing]; rfl))
      · cases tail with
        | nil =>
            rcases @ih [] hlater.symm with hstart | hopening | hclosing
            · exact .inl hstart
            · exact .inr (.inl hopening)
            · cases hclosing
        | cons next tail =>
            obtain ⟨rfl, -⟩ := List.cons.inj hlater
            cases first with
            | nil => exact .inl ⟨opened, before, c, rest, hwhole⟩
            | cons head first =>
                -- the piece is not the first of its step
                have hlater := List.cons_ne_nil head first
                rcases cut_cases opened before c rest with hcut |
                  ⟨delimiter, outer, -, hpieces, -⟩ |
                  ⟨delimiter, outer, lead, body, -, -, hpieces, -⟩ | ⟨kind, length, hpieces, -⟩
                · simp [hcut] at hstep
                · rw [hpieces, List.cons_append, List.cons.injEq] at hstep
                  obtain ⟨rfl, hstep⟩ := hstep
                  cases first with
                  | nil => exact .inr (.inr rfl)
                  | cons next first =>
                      exact .inr (.inl (eq_opening_of_cutSegment (List.cons_ne_nil _ _) hstep))
                · rw [hpieces] at hstep
                  exact .inr (.inl (eq_opening_of_cutSegment hlater hstep))
                · simp [hpieces] at hstep


/-! ## Names in a text -/

/-- Every character but the last of the sign that opens an interpolation is no bracket. -/
theorem mem_opening_of_append {hashes : Nat} {covered later : List Char}
    (h : (Piece.opening hashes).text = covered ++ later) (hne : later ≠ []) :
    ∀ c ∈ covered, c = '\\' ∨ c = '#' := by
  intro c hc
  obtain ⟨later, last, rfl⟩ := List.eq_nil_or_concat later |>.resolve_left hne
  rw [Piece.text, List.concat_eq_append, ← List.append_assoc, ← List.cons_append] at h
  have hinit := (List.append_inj' h rfl).1
  have hmem : c ∈ '\\' :: List.replicate hashes '#' := by
    rw [hinit]
    exact List.mem_append_left _ hc
  rcases List.mem_cons.mp hmem with rfl | hmem
  · exact .inl rfl
  · exact .inr (List.eq_of_mem_replicate hmem)

theorem SpellsName.head_ne (h : SpellsName (c :: name)) : c ≠ '\\' := by
  cases h with
  | word hstart =>
      rcases hstart with hstart | rfl
      · exact ne_of_class hstart (by decide)
      · decide
  | hash => decide
  | quoted => decide

theorem SpellsName.exists_cons (h : SpellsName text) : ∃ c name, text = c :: name := by
  cases h with
  | word => exact ⟨_, _, rfl⟩
  | hash => exact ⟨_, _, rfl⟩
  | quoted => exact ⟨_, _, rfl⟩

/-- A name in a text starts where a lexeme does that has its spelling, or inside of a lexeme. -/
theorem lexeme_at_name (hname : SpellsName name)
    (hleft : ∀ c ∈ left.getLast?, c ∉ ['\\', '#', ')'])
    (hright : ∀ c ∈ right.head?, isNameChar c = false) :
    ∃ first kind literal second covered, pieces (left ++ (name ++ right)) =
        first ++ .lexeme kind literal :: second ∧
      left = first.flatMap Piece.text ++ covered ∧
      (kind.isName = true ∧ literal = name ∧ covered = [] ∨
        covered ≠ [] ∧ ∃ later, literal = covered ++ later ∧ later ≠ []) := by
  have htext := flatMap_text_pieces (left ++ (name ++ right))
  obtain ⟨c, name, rfl⟩ := hname.exists_cons
  obtain ⟨first, piece, second, covered, later, hparts, hpiece, rfl, hlater⟩ :=
    exists_split_of_flatMap htext (List.cons_ne_nil _ _)
  rw [hparts, List.flatMap_append, List.flatMap_cons, hpiece] at htext
  by_cases hcovered : covered = []
  · subst hcovered
    rw [List.append_nil, List.nil_append] at *
    have hafter := List.append_cancel_left htext
    rcases piecesFrom_split hparts with ⟨inner, last, d, rest, hstep⟩ | ⟨hashes, rfl⟩ | hclosing
    · have hrest := flatMap_text_piecesFrom inner last (d :: rest)
      rw [hstep, List.flatMap_cons, hpiece, hafter, List.cons_append, List.cons.injEq] at hrest
      obtain ⟨rfl, rfl⟩ := hrest
      obtain ⟨kind, hkind, hcut⟩ := cut_of_spellsName inner last hname hright
      rw [piecesFrom_cons, hcut, List.singleton_append, List.cons.injEq] at hstep
      obtain ⟨rfl, -⟩ := hstep
      exact ⟨first, kind, _, second, [], hparts, (List.append_nil _).symm, .inl ⟨hkind, rfl, rfl⟩⟩
    · -- an opening does not start like a name
      rw [← hpiece, Piece.text, List.cons_append] at hafter
      exact absurd (List.cons.inj hafter).1.symm hname.head_ne
    · obtain ⟨front, hfront⟩ := List.getLast?_eq_some_iff.mp hclosing
      have hlast : (first.flatMap Piece.text).getLast? = some ')' := by
        rw [hfront, List.flatMap_append]
        simp [Piece.text]
      simpa using hleft ')' hlast
  · have hlast : ∀ c ∈ covered.getLast?, c ∉ ['\\', '#', ')'] := by
      intro c hc
      apply hleft
      rw [List.getLast?_append, hc]
      rfl
    have hlength : 2 ≤ piece.text.length := by
      have hfirst := List.length_pos_iff.mpr hcovered
      have hsecond := List.length_pos_iff.mpr hlater
      rw [hpiece, List.length_append]
      omega
    cases piece with
    | lexeme kind literal =>
        exact ⟨first, kind, literal, second, covered, hparts, rfl,
          .inr ⟨hcovered, later, hpiece, hlater⟩⟩
    | blank c => simp [Piece.text] at hlength
    | closing => simp [Piece.text] at hlength
    | opening hashes =>
        have hmem := List.getLast_mem hcovered
        have hsign := mem_opening_of_append hpiece hlater _ hmem
        have hother := hlast _ (List.getLast?_eq_some_getLast hcovered)
        rcases hsign with hsign | hsign <;> simp [hsign] at hother

end CaptureLint.Token

namespace CaptureLint.Source

open Token

variable {source : Source} {left name right : List Char}

theorem spellsName_of_mem_tokens {token : Token} (h : token ∈ source.tokens)
    (hkind : token.kind.isName = true) : SpellsName token.text := by
  obtain ⟨before, after, hsplit⟩ := List.append_of_mem h
  have hcode : token.kind ≠ .string := by
    intro hstring
    rw [hstring] at hkind
    cases hkind
  obtain ⟨first, second, hparts, -, -⟩ := locate_split hsplit
  obtain ⟨inner, last, c, rest, hcut, -⟩ := exists_cut_of_lexeme hcode hparts
  obtain ⟨hlexeme, hliteral⟩ := lexemeAt_of_cut hcode hcut
  have hnamed := named_lexemeAt (last.any Piece.takesSuffix) c rest
  rw [hlexeme] at hnamed
  rw [hliteral]
  exact hnamed hkind

/-- A name that stands between separators is a name token of the text, unless something else that
starts before it has taken it up. -/
theorem name_token_iff (hchars : source.chars = left ++ (name ++ right))
    (hleft : ∀ c ∈ left.getLast?, c ∉ ['\\', '#', ')'])
    (hright : ∀ c ∈ right.head?, isNameChar c = false) :
    (∃ token ∈ source.tokens, token.kind.isName = true ∧ token.start = bytesOf left ∧
      token.text = name) ↔
    SpellsName name ∧
      ∀ token ∈ source.tokens, ¬ (token.start < bytesOf left ∧ bytesOf left < token.stop) := by
  constructor
  · rintro ⟨token, htoken, hkind, hstart, rfl⟩
    refine ⟨spellsName_of_mem_tokens htoken hkind, fun other hother hcovers => ?_⟩
    have hlt := source.ordered_tokens.nonempty token htoken
    rcases related_of_pairwise source.ordered_tokens.apart htoken hother with rfl | hle | hle
    · omega
    · omega
    · omega
  · rintro ⟨hname, hfree⟩
    obtain ⟨first, kind, literal, second, covered, hparts, rfl, hfound⟩ :=
      lexeme_at_name hname hleft hright
    rw [← hchars] at hparts
    have htoken := exists_token_of_mem_pieces hparts
    rcases hfound with ⟨hkind, rfl, rfl⟩ | ⟨hcovered, later, rfl, hlater⟩
    · exact ⟨_, htoken, hkind, by rw [List.append_nil], rfl⟩
    · have hcoveredPos := bytesOf_pos hcovered
      have hlaterPos := bytesOf_pos hlater
      refine absurd ?_ (hfree _ htoken)
      simp only [Token.stop_eq, bytesOf_append]
      omega

end CaptureLint.Source
