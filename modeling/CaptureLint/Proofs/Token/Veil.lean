import CaptureLint.Proofs.Text.LastRun
import CaptureLint.Proofs.Token.Names

/-!
# Reading past blanked comments

`Veils` relates a text to the same text with some of its comments blanked out.  Reading a lexeme looks
past its end, at a comment that follows or even into it.  Every reader of the lexer finds the same
in both texts as long as the lexeme itself is kept, because the signs that it looks for neither start
a comment nor are blank.  Two readers are the exception, which need to know where the lexeme ends:
that of operators, which slashes belong to, and that of names in backticks, which goes on through
anything on its line.
-/

namespace CaptureLint.Token

/-- What stands in the place of a character of a comment: a space for each of its bytes.  Lines stay
as they are. -/
def veiled (c : Char) : List Char := if c = '\n' then ['\n'] else List.replicate c.utf8Size ' '

def veil (text : List Char) : List Char := text.flatMap veiled

/-- The second text is the first with some of its comments veiled. -/
inductive Veils : List Char → List Char → Prop where
  | nil : Veils [] []
  | same (c : Char) {text text' : List Char} (h : Veils text text') :
      Veils (c :: text) (c :: text')
  | comment {sign : Char} (hsign : sign = '/' ∨ sign = '*') (body : List Char)
      {text text' : List Char} (h : Veils text text') :
      Veils ('/' :: (sign :: body ++ text)) (' ' :: (veil (sign :: body) ++ text'))

variable {c last sign : Char} {text text' tail tail' literal lead body : List Char}
  {opened : List Interpolation} {before before' : Option Piece} {delimiter : Delimiter}
  {kind : TokenKind} {bound : Bool}

/-! ## Veiled text -/

theorem veil_cons (c : Char) (text : List Char) : veil (c :: text) = veiled c ++ veil text := rfl

theorem mem_veiled {d : Char} (h : d ∈ veiled c) : d = ' ' ∨ d = '\n' ∧ c = '\n' := by
  unfold veiled at h
  by_cases hc : c = '\n'
  · rw [if_pos hc, List.mem_singleton] at h
    exact .inr ⟨h, hc⟩
  · rw [if_neg hc] at h
    exact .inl (List.eq_of_mem_replicate h)

theorem allBlank_veil (text : List Char) : Text.allBlank (veil text) = true := by
  rw [Text.allBlank, List.all_eq_true]
  intro d hd
  obtain ⟨c, -, hmem⟩ := List.mem_flatMap.mp hd
  rcases mem_veiled hmem with rfl | ⟨rfl, -⟩ <;> rfl

theorem bytesOf_veiled (c : Char) : Source.bytesOf (veiled c) = c.utf8Size := by
  have hspaces : ∀ count, Source.bytesOf (List.replicate count ' ') = count := by
    intro count
    induction count with
    | zero => rfl
    | succ count ih =>
        rw [List.replicate_succ, Source.bytesOf_cons, ih, show ' '.utf8Size = 1 by decide]
        omega
  unfold veiled
  by_cases hc : c = '\n'
  · subst hc
    rfl
  · rw [if_neg hc, hspaces]

theorem bytesOf_veil (text : List Char) : Source.bytesOf (veil text) = Source.bytesOf text := by
  induction text with
  | nil => rfl
  | cons c text ih =>
      rw [veil_cons, Source.bytesOf_append, bytesOf_veiled, ih, Source.bytesOf_cons]

/-! ## What veiling keeps -/

namespace Veils

theorem append (text : List Char) (h : Veils tail tail') : Veils (text ++ tail) (text ++ tail') := by
  induction text with
  | nil => exact h
  | cons c text ih => exact .same c ih

/-- A character that is neither a slash nor a space stands first in both texts or in neither. -/
theorem head?_eq_iff (h : Veils text text') (hslash : c ≠ '/') (hspace : c ≠ ' ') :
    text'.head? = some c ↔ text.head? = some c := by
  cases h with
  | nil => exact Iff.rfl
  | same => exact Iff.rfl
  | comment => simp [hslash.symm, hspace.symm]

theorem head?_of_head? (h : Veils text text') (hspace : c ≠ ' ') (hc : text'.head? = some c) :
    text.head? = some c := by
  cases h with
  | nil => exact hc
  | same => exact hc
  | comment => simp [hspace.symm] at hc

theorem any_head? (h : Veils text text') {p : Char → Bool} (hslash : p '/' = false)
    (hspace : p ' ' = false) : text'.head?.any p = text.head?.any p := by
  cases h with
  | nil => rfl
  | same => rfl
  | comment => simp [hslash, hspace]

theorem takeWhile (h : Veils text text') {p : Char → Bool} (hslash : p '/' = false)
    (hspace : p ' ' = false) : text'.takeWhile p = text.takeWhile p := by
  induction h with
  | nil => rfl
  | same c h ih => rw [List.takeWhile_cons, List.takeWhile_cons, ih]
  | comment hsign body h ih => simp [hslash, hspace]

theorem dropWhile (h : Veils text text') {p : Char → Bool} (hslash : p '/' = false)
    (hspace : p ' ' = false) : Veils (text.dropWhile p) (text'.dropWhile p) := by
  induction h with
  | nil => exact .nil
  | @same c text text' h ih =>
      rw [List.dropWhile_cons, List.dropWhile_cons]
      split
      · exact ih
      · exact .same c h
  | comment hsign body h ih =>
      rw [List.dropWhile_cons_of_neg (by simp [hslash]),
        List.dropWhile_cons_of_neg (by simp [hspace])]
      exact .comment hsign body h

/-- The character after a run, unless it is a slash or a space. -/
theorem getElem?_takeWhile (h : Veils text text') {p : Char → Bool} (hslash : p '/' = false)
    (hspace : p ' ' = false) (hc : c ≠ '/') (hc' : c ≠ ' ') :
    text'[(text'.takeWhile p).length]? = some c ↔ text[(text.takeWhile p).length]? = some c := by
  rw [← List.head?_drop, ← List.head?_drop, Text.drop_takeWhile, Text.drop_takeWhile]
  exact (h.dropWhile hslash hspace).head?_eq_iff hc hc'

theorem isPrefixOf (h : Veils text text') {sign : List Char} (hslash : '/' ∉ sign)
    (hspace : ' ' ∉ sign) : sign.isPrefixOf text' = sign.isPrefixOf text := by
  induction h generalizing sign with
  | nil => rfl
  | same c h ih =>
      cases sign with
      | nil => rfl
      | cons d sign =>
          rw [List.isPrefixOf, List.isPrefixOf, ih (List.not_mem_of_not_mem_cons hslash)
            (List.not_mem_of_not_mem_cons hspace)]
  | comment hsign body h ih =>
      cases sign with
      | nil => rfl
      | cons d sign =>
          have hd : d ≠ '/' := fun heq => hslash (heq ▸ List.mem_cons_self)
          have hd' : d ≠ ' ' := fun heq => hspace (heq ▸ List.mem_cons_self)
          rw [List.isPrefixOf, List.isPrefixOf, beq_eq_false_iff_ne.mpr hd,
            beq_eq_false_iff_ne.mpr hd', Bool.false_and, Bool.false_and]

end Veils

/-! ## Readers of lexemes -/

/-- A string literal starts with number signs and one or three quotes. -/
theorem opening?_eq (text : List Char) :
    Delimiter.opening? text =
      if ['"', '"', '"'].isPrefixOf (text.dropWhile (· == '#')) then
        some ⟨(text.takeWhile (· == '#')).length, true⟩
      else if ['"'].isPrefixOf (text.dropWhile (· == '#')) then
        some ⟨(text.takeWhile (· == '#')).length, false⟩
      else none := by
  unfold Delimiter.opening?
  dsimp only
  rw [Text.drop_takeWhile]
  generalize text.dropWhile (· == '#') = rest
  split
  · rfl
  · rename_i rest hone
    have hthree : ['"', '"', '"'].isPrefixOf ('"' :: rest) = false := by
      rcases rest with _ | ⟨d, _ | ⟨e, rest⟩⟩
      · rfl
      · exact Bool.and_false _
      · by_cases hd : '"' = d
        · by_cases he : '"' = e
          · exact absurd (by rw [← hd, ← he]) (hone rest)
          · simp [List.isPrefixOf, he]
        · simp [List.isPrefixOf, hd]
    rw [hthree]
    rfl
  · rename_i hthree hone
    rcases rest with _ | ⟨c, rest⟩
    · rfl
    · have hc : ('"' == c) = false := by
        rw [beq_eq_false_iff_ne]
        rintro rfl
        exact hone rest rfl
      simp [List.isPrefixOf, hc]

namespace Veils

theorem nameLength (h : Veils text text') : nameLength text' = nameLength text := by
  rw [Token.nameLength, Token.nameLength, h.takeWhile (by decide) (by decide)]

theorem numberLength (h : Veils text text') (hexadecimal : Bool) (last : Char) :
    numberLength hexadecimal last text' = numberLength hexadecimal last text := by
  induction h generalizing last with
  | nil => rfl
  | @same c text text' h ih =>
      have hnext : numberContinues hexadecimal last c text'.head? =
          numberContinues hexadecimal last c text.head? := by
        rw [numberContinues, numberContinues, h.any_head? (by decide) (by decide)]
      rw [Token.numberLength, Token.numberLength, hnext, ih]
  | comment hsign body h ih =>
      have hstop : ∀ next, numberContinues hexadecimal last '/' next = false ∧
          numberContinues hexadecimal last ' ' next = false := by
        intro next
        have hsigns : Char.isAlphanum '/' = false ∧ Char.isAlphanum ' ' = false := by decide
        simp [numberContinues, hsigns]
      rw [Token.numberLength, Token.numberLength, if_neg (by simp [hstop]), if_neg (by simp [hstop])]

theorem opening? (h : Veils text text') : Delimiter.opening? text' = Delimiter.opening? text := by
  have hrest := h.dropWhile (p := (· == '#')) (by decide) (by decide)
  rw [opening?_eq, opening?_eq, h.takeWhile (by decide) (by decide),
    hrest.isPrefixOf (by decide) (by decide), hrest.isPrefixOf (by decide) (by decide)]

end Veils

/-! ## Names in backticks -/

def isQuotedChar (c : Char) : Bool := c != '\x60' && c != '\n'

theorem isSome_quotedNameLength? (text : List Char) :
    (quotedNameLength? text).isSome =
      (!(text.takeWhile isQuotedChar).isEmpty &&
        (text.dropWhile isQuotedChar).head? == some '\x60') := by
  have hclass : (fun c => c != '\x60' && c != '\n') = isQuotedChar := rfl
  rw [← Text.drop_takeWhile, List.head?_drop, quotedNameLength?, hclass]
  split
  · rename_i hfound
    exact hfound.symm
  · rename_i hnone
    exact (Bool.eq_false_iff.mpr hnone).symm

theorem dropWhile_veiled (c : Char) (hc : c ≠ '\n') (text : List Char) :
    (veiled c ++ text).dropWhile isQuotedChar = text.dropWhile isQuotedChar := by
  rw [veiled, if_neg hc, List.dropWhile_append_of_pos]
  intro d hd
  rw [List.eq_of_mem_replicate hd]
  rfl

/-- A backtick that ends a run in veiled text ends one in the text. -/
theorem head?_dropWhile_of_veil (body : List Char)
    (h : (tail'.dropWhile isQuotedChar).head? = some '\x60' →
      (tail.dropWhile isQuotedChar).head? = some '\x60')
    (hveil : ((veil body ++ tail').dropWhile isQuotedChar).head? = some '\x60') :
    ((body ++ tail).dropWhile isQuotedChar).head? = some '\x60' := by
  induction body with
  | nil => exact h hveil
  | cons c body ih =>
      rw [veil_cons, List.append_assoc] at hveil
      by_cases hline : c = '\n'
      · subst hline
        simp [veiled, isQuotedChar] at hveil
      · rw [dropWhile_veiled c hline] at hveil
        by_cases hquote : c = '\x60'
        · subst hquote
          rfl
        · rw [List.cons_append, List.dropWhile_cons_of_pos (by simp [isQuotedChar, hline, hquote])]
          exact ih hveil

namespace Veils

/-- Veiling takes backticks away and adds none, so it completes no name. -/
theorem quotedNameLength? (h : Veils text text') (hnone : quotedNameLength? text = none) :
    quotedNameLength? text' = none := by
  have hhead : (text'.dropWhile isQuotedChar).head? = some '\x60' →
      (text.dropWhile isQuotedChar).head? = some '\x60' := by
    clear hnone
    induction h with
    | nil => exact id
    | @same c text text' h ih =>
        by_cases hc : isQuotedChar c = true
        · rw [List.dropWhile_cons_of_pos hc, List.dropWhile_cons_of_pos hc]
          exact ih
        · rw [List.dropWhile_cons_of_neg hc, List.dropWhile_cons_of_neg hc]
          exact id
    | @comment sign hsign body text text' h ih =>
        exact head?_dropWhile_of_veil ('/' :: sign :: body) ih
  rw [← Option.not_isSome_iff_eq_none, isSome_quotedNameLength?, Bool.and_eq_true] at hnone ⊢
  rintro ⟨hne, hquote⟩
  refine hnone ⟨?_, ?_⟩
  · cases h with
    | nil => exact hne
    | @same c text text' h =>
        by_cases hc : isQuotedChar c = true
        · rw [List.takeWhile_cons_of_pos hc]
          rfl
        · rw [List.takeWhile_cons_of_neg hc] at hne
          cases hne
    | comment => rfl
  · rw [beq_iff_eq] at hquote ⊢
    exact hhead hquote

end Veils

/-! ## Where a step starts -/

def startsComment (text : List Char) : Bool := text.head? == some '/' && opensComment text.tail

/-- Two texts, the second veiled, where a step starts: a comment that starts there is veiled. -/
structure VeilsAt (text text' : List Char) : Prop where
  veils : Veils text text'
  comment : startsComment text = true → text'.head? = some ' '

theorem opensComment_of_veils (h : Veils text text') (hopens : opensComment text' = true) :
    opensComment text = true := by
  rw [opensComment, Bool.or_eq_true, beq_iff_eq, beq_iff_eq] at hopens ⊢
  exact hopens.imp (h.head?_of_head? (by decide)) (h.head?_of_head? (by decide))

/-- A run of operator characters that ends with a step ends there in veiled text too. -/
theorem VeilsAt.operatorLength (h : VeilsAt tail tail') {text : List Char}
    (hlength : operatorLength (text ++ tail) = text.length) :
    operatorLength (text ++ tail') = text.length := by
  induction text with
  | nil =>
      obtain ⟨hveils, hcomment⟩ := h
      cases hveils with
      | nil => rfl
      | @same c text text' hveils =>
          rw [List.nil_append, Token.operatorLength] at hlength ⊢
          split at hlength
          · simp at hlength
          · rename_i hstop
            rw [if_neg]
            · rfl
            simp only [Bool.and_eq_true, Bool.not_eq_true', Bool.and_eq_false_imp, beq_iff_eq,
              not_and, Classical.not_forall, Bool.not_eq_false] at hstop ⊢
            intro hoperator
            obtain ⟨rfl, hopens⟩ := hstop hoperator
            have hspace := hcomment (by simp [startsComment, hopens])
            cases hspace
      | comment => rfl
  | cons c text ih =>
      rw [List.cons_append, Token.operatorLength] at hlength ⊢
      split at hlength
      · rename_i hgoes
        rw [List.length_cons, Nat.add_comm 1] at hlength
        rw [ih (Nat.succ.inj hlength), if_pos, List.length_cons, Nat.add_comm]
        simp only [Bool.and_eq_true, Bool.not_eq_true', Bool.and_eq_false_imp, beq_iff_eq] at hgoes ⊢
        refine ⟨hgoes.1, fun hc => ?_⟩
        rw [Bool.eq_false_iff]
        intro hopens
        rw [opensComment_of_veils (h.veils.append text) hopens] at hgoes
        cases hgoes.2 hc
      · simp at hlength

/-! ## Lexemes -/

/-- Two branches with one answer, when their conditions agree. -/
theorem ite_eq_of_ite_eq {α : Type} {p q : Prop} [Decidable p] [Decidable q]
    {first second first' second' found : α} (hiff : q ↔ p) (hfirst : p → first = found → first' = found)
    (hsecond : ¬ p → second = found → second' = found) (h : (if p then first else second) = found) :
    (if q then first' else second') = found := by
  by_cases hp : p
  · rw [if_pos hp] at h
    rw [if_pos (hiff.mpr hp)]
    exact hfirst hp h
  · rw [if_neg hp] at h
    rw [if_neg (mt hiff.mp hp)]
    exact hsecond hp h

/-- A lexeme that is no comment and ends with its step is the same in veiled text. -/
theorem VeilsAt.lexemeAt (h : VeilsAt tail tail') (hkind : kind ≠ .comment)
    (hlexeme : lexemeAt bound c (literal ++ tail) = (kind, literal.length)) :
    lexemeAt bound c (literal ++ tail') = (kind, literal.length) := by
  have hveils := h.veils.append literal
  have hname := hveils.nameLength
  have hline : ¬ (c = '/' ∧ (literal ++ tail).head? = some '/') := by
    intro hc
    rw [Token.lexemeAt, if_pos hc] at hlexeme
    exact hkind (congrArg Prod.fst hlexeme).symm
  have hblock : ¬ (c = '/' ∧ (literal ++ tail).head? = some '*') := by
    intro hc
    rw [Token.lexemeAt, if_neg hline, if_pos hc] at hlexeme
    exact hkind (congrArg Prod.fst hlexeme).symm
  have hline' : ¬ (c = '/' ∧ (literal ++ tail').head? = some '/') := fun hc =>
    hline ⟨hc.1, hveils.head?_of_head? (by decide) hc.2⟩
  have hblock' : ¬ (c = '/' ∧ (literal ++ tail').head? = some '*') := fun hc =>
    hblock ⟨hc.1, hveils.head?_of_head? (by decide) hc.2⟩
  rw [Token.lexemeAt, if_neg hline, if_neg hblock] at hlexeme
  rw [Token.lexemeAt, if_neg hline', if_neg hblock', hname]
  refine ite_eq_of_ite_eq Iff.rfl (fun _ hfound => hfound) (fun _ hrest => ?_) hlexeme
  refine ite_eq_of_ite_eq Iff.rfl (fun _ hfound => hfound) (fun _ hrest => ?_) hrest
  refine ite_eq_of_ite_eq Iff.rfl (fun _ hfound => ?_) (fun _ hrest => ?_) hrest
  · cases hquoted : Token.quotedNameLength? (literal ++ tail) with
    | some length =>
        obtain ⟨name, htake, hne, hall⟩ := split_of_quotedNameLength? hquoted
        rw [hquoted] at hfound
        obtain rfl : length = literal.length := congrArg Prod.snd hfound
        rw [List.take_left] at htake
        have hidentifier : TokenKind.identifier = kind := congrArg Prod.fst hfound
        rw [htake, quotedNameLength?_append hne hall]
        exact Prod.ext hidentifier (by simp)
    | none =>
        -- a backtick of its own, so the step ends right after it
        rw [hquoted] at hfound
        rw [hveils.quotedNameLength? hquoted]
        exact hfound
  refine ite_eq_of_ite_eq Iff.rfl (fun _ hfound => hfound) (fun _ hrest => ?_) hrest
  refine ite_eq_of_ite_eq Iff.rfl (fun _ hfound => ?_) (fun _ hrest => ?_) hrest
  · have hexadecimal : ∀ sign : Char, sign ≠ '/' → sign ≠ ' ' →
        ((literal ++ tail').head? == some sign) = ((literal ++ tail).head? == some sign) := by
      intro sign hslash hspace
      rw [Bool.eq_iff_iff, beq_iff_eq, beq_iff_eq]
      exact hveils.head?_eq_iff hslash hspace
    dsimp only
    rw [hexadecimal 'x' (by decide) (by decide), hexadecimal 'X' (by decide) (by decide),
      hveils.numberLength]
    exact hfound
  refine ite_eq_of_ite_eq Iff.rfl (fun _ hfound => hfound) (fun _ hrest => ?_) hrest
  refine ite_eq_of_ite_eq Iff.rfl (fun _ hfound => ?_) (fun _ hrest => ?_) hrest
  · have hrange := hveils.getElem?_takeWhile (p := (· == '.')) (c := '<') (by decide) (by decide)
      (by decide) (by decide)
    have hdots := hveils.takeWhile (p := (· == '.')) (by decide) (by decide)
    dsimp only at hfound ⊢
    rw [hdots] at hrange ⊢
    simp only [hrange]
    exact hfound
  have hequals := hveils.head?_eq_iff (c := '=') (by decide) (by decide)
  refine ite_eq_of_ite_eq (by rw [ne_eq, ne_eq, hequals]) (fun _ hfound => hfound)
    (fun _ hrest => ?_) hrest
  refine ite_eq_of_ite_eq Iff.rfl (fun _ hfound => ?_) (fun _ hrest => ?_) hrest
  · have hlength : Token.operatorLength (literal ++ tail) = literal.length :=
      congrArg Prod.snd hfound
    rw [h.operatorLength hlength]
    rw [hlength] at hfound
    exact hfound
  refine ite_eq_of_ite_eq Iff.rfl (fun _ hfound => ?_) (fun _ hfound => hfound) hrest
  · have hlength : Token.nameLength (literal ++ tail) = literal.length := congrArg Prod.snd hfound
    dsimp only at hfound ⊢
    rw [hlength, List.take_left] at hfound ⊢
    exact hfound

end CaptureLint.Token
