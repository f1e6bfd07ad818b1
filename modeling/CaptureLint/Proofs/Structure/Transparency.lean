import CaptureLint.Proofs.Source.Lines
import CaptureLint.Proofs.Token.Transparency
import CaptureLint.Structure.Builder

/-!
# Comments are transparent

Blanking out the comments of a source text, byte by byte and without touching its lines, takes away
the comment tokens and nothing else.  The structure is built from the other tokens and from the lines
on which they stand, so it stays the same.
-/

namespace CaptureLint.Token

def inComment (tokens : List Token) (byte : Nat) : Bool :=
  tokens.any fun token => token.kind == .comment && (token.start ≤ byte && byte < token.stop)

/-- A text that starts at a byte offset, with the characters in comments blanked out. -/
def veilFrom (tokens : List Token) : Nat → List Char → List Char
  | _, [] => []
  | byte, c :: text =>
      (if inComment tokens byte then veiled c else [c]) ++ veilFrom tokens (byte + c.utf8Size) text

variable {tokens : List Token} {start byte : Nat} {text : List Char} {piece : Piece}
  {parts : List Piece}

theorem veilFrom_append (tokens : List Token) (start : Nat) (first second : List Char) :
    veilFrom tokens start (first ++ second) =
      veilFrom tokens start first ++ veilFrom tokens (start + Source.bytesOf first) second := by
  induction first generalizing start with
  | nil => rfl
  | cons c first ih =>
      rw [List.cons_append, veilFrom, ih, veilFrom, List.append_assoc, Source.bytesOf_cons,
        Nat.add_assoc]

theorem veilFrom_of_inside (h : ∀ byte, start ≤ byte → byte < start + Source.bytesOf text →
    inComment tokens byte = true) : veilFrom tokens start text = veil text := by
  induction text generalizing start with
  | nil => rfl
  | cons c text ih =>
      have hpos := Char.utf8Size_pos c
      rw [Source.bytesOf_cons] at h
      rw [veilFrom, if_pos (h start (Nat.le_refl _) (by omega)), ih, veil_cons]
      exact fun byte hle hlt => h byte (by omega) (by omega)

theorem veilFrom_of_outside (h : ∀ byte, start ≤ byte → byte < start + Source.bytesOf text →
    inComment tokens byte = false) : veilFrom tokens start text = text := by
  induction text generalizing start with
  | nil => rfl
  | cons c text ih =>
      have hpos := Char.utf8Size_pos c
      rw [Source.bytesOf_cons] at h
      rw [veilFrom, if_neg (by simp [h start (Nat.le_refl _) (by omega)]), ih]
      · rfl
      · exact fun byte hle hlt => h byte (by omega) (by omega)

/-! ## Places in pieces -/

theorem inComment_behind (h : start + Source.bytesOf piece.text ≤ byte) :
    inComment (locate start (piece :: parts)) byte =
      inComment (locate (start + Source.bytesOf piece.text) parts) byte := by
  cases piece with
  | lexeme kind text =>
      have hstop : ¬ byte < (Token.mk kind start text).stop := Nat.not_lt.mpr h
      simp [locate, inComment, hstop, Piece.text]
  | blank c => rfl
  | opening hashes => rfl
  | closing => rfl

theorem inComment_inside (hle : start ≤ byte) (hlt : byte < start + Source.bytesOf piece.text) :
    inComment (locate start (piece :: parts)) byte = true ↔ ∃ text, piece = .lexeme .comment text := by
  have hlater : inComment (locate (start + Source.bytesOf piece.text) parts) byte = false := by
    rw [inComment, List.any_eq_false]
    intro token htoken hinside
    have hstart := le_start_of_mem_locate htoken
    simp only [Bool.and_eq_true, decide_eq_true_eq] at hinside
    omega
  have hother : (∀ text, piece ≠ .lexeme .comment text) →
      inComment (locate start (piece :: parts)) byte = false →
        (inComment (locate start (piece :: parts)) byte = true ↔
          ∃ text, piece = .lexeme .comment text) := by
    intro hne hfalse
    refine iff_of_false (Bool.eq_false_iff.mp hfalse) ?_
    rintro ⟨text, heq⟩
    exact hne text heq
  cases piece with
  | lexeme kind text =>
      rw [locate, inComment, List.any_cons, Bool.or_eq_true]
      have hcover : start ≤ byte ∧ byte < (Token.mk kind start text).stop := ⟨hle, hlt⟩
      constructor
      · rintro (hfirst | hbehind)
        · simp only [Bool.and_eq_true, beq_iff_eq] at hfirst
          exact ⟨text, by rw [hfirst.1]⟩
        · rw [← inComment] at hbehind
          exact absurd (hlater.symm.trans hbehind) Bool.false_ne_true
      · rintro ⟨other, hcomment⟩
        cases hcomment
        exact .inl (by simp [hcover])
  | blank c => exact hother (by simp) hlater
  | opening hashes => exact hother (by simp) hlater
  | closing => exact hother (by simp) hlater

/-- Blanking out by the tokens of some pieces is blanking out the comments among the pieces. -/
theorem veilFrom_eq_veiledText
    (h : ∀ byte, start ≤ byte → inComment tokens byte = inComment (locate start parts) byte) :
    veilFrom tokens start (parts.flatMap Piece.text) = veiledText parts := by
  induction parts generalizing start with
  | nil => rfl
  | cons piece parts ih =>
      have hrest : veilFrom tokens (start + Source.bytesOf piece.text)
          (parts.flatMap Piece.text) = veiledText parts :=
        ih fun byte hle => by rw [h byte (by omega), inComment_behind hle]
      have hpieces : veiledText (piece :: parts) = veiledText [piece] ++ veiledText parts :=
        veiledText_append [piece] parts
      rw [List.flatMap_cons, veilFrom_append, hrest, hpieces]
      congr 1
      by_cases hcomment : ∃ text, piece = .lexeme .comment text
      · rw [veilFrom_of_inside]
        · obtain ⟨text, rfl⟩ := hcomment
          rw [veiledText_comment]
          rfl
        · intro byte hle hlt
          rw [h byte hle]
          exact (inComment_inside hle hlt).mpr hcomment
      · rw [veilFrom_of_outside]
        · rw [veiledText, flatMap_veiled_of_code, List.flatMap_singleton]
          intro literal hmem
          exact hcomment ⟨literal, (List.mem_singleton.mp hmem).symm⟩
        · intro byte hle hlt
          rw [h byte hle, Bool.eq_false_iff]
          exact fun hinside => hcomment ((inComment_inside hle hlt).mp hinside)

end CaptureLint.Token

namespace CaptureLint.Source

open Token

/-! ## Lines -/

theorem newlinesBefore_of_not_mem {text : List Char} (h : '\n' ∉ text) (byte : Nat) :
    newlinesBefore text byte = 0 := by
  induction text generalizing byte with
  | nil => rfl
  | cons c text ih =>
      have hc : c ≠ '\n' := fun heq => h (heq ▸ List.mem_cons_self)
      rw [newlinesBefore, if_neg hc, ih fun hmem => h (List.mem_cons_of_mem _ hmem)]
      simp

/-- Text without a newline can take the place of other such text of the same length. -/
theorem newlinesBefore_exchange {old new : List Char} (hold : '\n' ∉ old) (hnew : '\n' ∉ new)
    (hbytes : bytesOf new = bytesOf old) (text : List Char) (byte : Nat) :
    newlinesBefore (new ++ text) byte = newlinesBefore (old ++ text) byte := by
  by_cases hle : bytesOf old ≤ byte
  · obtain ⟨rest, rfl⟩ := Nat.exists_eq_add_of_le hle
    have hright := newlinesBefore_append_right new text rest
    rw [hbytes] at hright
    rw [hright, newlinesBefore_append_right, List.count_eq_zero_of_not_mem hnew,
      List.count_eq_zero_of_not_mem hold]
  · rw [newlinesBefore_append_left text (by omega), newlinesBefore_append_left text (by omega),
      newlinesBefore_of_not_mem hnew, newlinesBefore_of_not_mem hold]

theorem newlinesBefore_append_congr {first second : List Char} (left : List Char)
    (h : ∀ byte, newlinesBefore first byte = newlinesBefore second byte) (byte : Nat) :
    newlinesBefore (left ++ first) byte = newlinesBefore (left ++ second) byte := by
  induction left generalizing byte with
  | nil => exact h byte
  | cons c left ih => rw [List.cons_append, List.cons_append, newlinesBefore, newlinesBefore, ih]

/-- Blanks for the bytes of a character end as many lines as the character, and where it does. -/
theorem newlinesBefore_veiled (c : Char) (text : List Char) (byte : Nat) :
    newlinesBefore (veiled c ++ text) byte = newlinesBefore (c :: text) byte := by
  by_cases hline : c = '\n'
  · subst hline
    rfl
  have hnone : '\n' ∉ veiled c := by
    intro hmem
    rcases mem_veiled hmem with hspace | ⟨-, hc⟩
    · cases hspace
    · exact hline hc
  have hsingle : '\n' ∉ [c] := fun hmem => hline (List.mem_singleton.mp hmem).symm
  exact newlinesBefore_exchange hsingle hnone (bytesOf_veiled c) text byte

theorem newlinesBefore_veilFrom (tokens : List Token) (start : Nat) (text : List Char) (byte : Nat) :
    newlinesBefore (veilFrom tokens start text) byte = newlinesBefore text byte := by
  induction text generalizing start byte with
  | nil => rfl
  | cons c text ih =>
      rw [veilFrom]
      split
      · rw [newlinesBefore_veiled, newlinesBefore, newlinesBefore, ih]
      · rw [List.singleton_append, newlinesBefore, newlinesBefore, ih]

/-! ## Sources -/

/-- A source with a space in the place of every byte of its comments; newlines are kept. -/
def withoutComments (source : Source) : Source :=
  { source with chars := veilFrom source.tokens 0 source.chars }

theorem lineOfByte_withoutComments (source : Source) :
    source.withoutComments.lineOfByte = source.lineOfByte := by
  funext byte
  rw [lineOfByte, lineOfByte, withoutComments, newlinesBefore_veilFrom]

theorem tokens_withoutComments (source : Source) :
    source.withoutComments.tokens = source.tokens.filter (!·.kind.isTrivia) := by
  have hchars : source.withoutComments.chars = veiledText (pieces source.chars) := by
    have hveil : veilFrom source.tokens 0 ((pieces source.chars).flatMap Piece.text) =
        veiledText (pieces source.chars) := veilFrom_eq_veiledText fun _ _ => rfl
    rw [flatMap_text_pieces] at hveil
    exact hveil
  rw [Source.tokens, hchars, tokens_veiledText]
  rfl

/-- Comments are transparent.  A source whose comments are blanked out has the tokens of the source
but for its comments, at the same places, and the same structure. -/
theorem comments_transparent (source : Source) :
    source.withoutComments.tokens = source.tokens.filter (·.kind ≠ .comment) ∧
    source.withoutComments.structureOf source.withoutComments.tokens =
      source.structureOf source.tokens := by
  have htokens := tokens_withoutComments source
  refine ⟨?_, ?_⟩
  · rw [htokens]
    refine List.filter_congr fun token _ => ?_
    rcases token with ⟨_ | _, start, text⟩ <;> rfl
  · rw [structureOf, structureOf, Structure.ofTokens, Structure.ofTokens,
      lineOfByte_withoutComments, htokens, List.filter_filter]
    simp only [Bool.and_self]

end CaptureLint.Source
