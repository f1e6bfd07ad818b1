import CaptureLint.Proofs.Text.LastWord
import CaptureLint.Source.Basic

/-!
# The search for the last word

The last word of a text starts behind the last blank before it.  A search by byte offsets, from the end
of the text, adds the width of this blank to the offset at which the blank starts.  Main statements:
the search never cuts a character and finds what `lastWord?` finds, which is the only way to split the
text in front of a word that only blanks follow.
-/

namespace CaptureLint.Text

open Source (bytesOf bytesOf_append charsBefore? charsBefore?_append)

variable {text front run blanks : List Char}

/-! ## Byte offsets -/

/-- The characters of a text that starts at a byte offset, each with the offset at which it starts. -/
def indexed (start : Nat) : List Char → List (Nat × Char)
  | [] => []
  | c :: text => (start, c) :: indexed (start + c.utf8Size) text

def wordStart (text : List Char) : Nat :=
  match (indexed 0 text).reverse.find? (isBlank ·.2) with
  | some (byte, blank) => byte + blank.utf8Size
  | none => 0

def splitAtByte? (text : List Char) (byte : Nat) : Option (List Char × List Char) :=
  (charsBefore? text byte).map text.splitAt

/-- The search for the last word, `none` if it would cut a character. -/
def searchLastWord? (text : List Char) : Option (Option PlacedWord) :=
  (splitAtByte? (trimEnd text) (wordStart (trimEnd text))).map fun (front, word) =>
    if word.isEmpty then none else some ⟨front.length, word⟩

theorem indexed_append (start : Nat) (front run : List Char) :
    indexed start (front ++ run) = indexed start front ++ indexed (start + bytesOf front) run := by
  induction front generalizing start with
  | nil => rfl
  | cons c front ih =>
      rw [List.cons_append, indexed, indexed, ih, List.cons_append, Source.bytesOf_cons,
        Nat.add_assoc]

theorem map_indexed (start : Nat) (text : List Char) : (indexed start text).map Prod.snd = text := by
  induction text generalizing start with
  | nil => rfl
  | cons c text ih => rw [indexed, List.map_cons, ih]

/-- A text splits between any two of its characters. -/
theorem splitAtByte?_append (front run : List Char) :
    splitAtByte? (front ++ run) (bytesOf front) = some (front, run) := by
  have hchars := charsBefore?_append front run 0
  rw [Nat.add_zero] at hchars
  rw [splitAtByte?, hchars]
  simp [charsBefore?]

/-! ## The search -/

/-- The last word starts behind the blank in front of it, however wide this is. -/
theorem wordStart_eq (h : EndsInRun (! isBlank ·) text front run) : wordStart text = bytesOf front := by
  have hrun : (indexed (0 + bytesOf front) run).reverse.find? (isBlank ·.2) = none := by
    rw [List.find?_eq_none]
    intro found hfound
    have hmem : found.2 ∈ run := by
      rw [← map_indexed (0 + bytesOf front) run]
      exact List.mem_map_of_mem (List.mem_reverse.mp hfound)
    simpa using h.accepted found.2 hmem
  rw [wordStart, h.split, indexed_append, List.reverse_append, List.find?_append, hrun, Option.none_or]
  rcases List.eq_nil_or_concat front with rfl | ⟨init, blank, rfl⟩
  · rfl
  · have hblank : isBlank blank = true := by
      simpa using h.front_stop blank (by simp)
    rw [List.concat_eq_append, indexed_append, List.reverse_append]
    simp [indexed, hblank, bytesOf_append]

theorem splitAtByte?_wordStart (h : EndsInRun (! isBlank ·) text front run) :
    splitAtByte? text (wordStart text) = some (front, run) := by
  rw [wordStart_eq h, h.split, splitAtByte?_append]

/-- The search cuts no character, and finds the last word. -/
theorem searchLastWord?_eq (text : List Char) : searchLastWord? text = some (lastWord? text) := by
  have hsplit := splitAtByte?_wordStart (endsInRun (! isBlank ·) (trimEnd text))
  rw [searchLastWord?, hsplit]
  simp only [Option.map_some, List.length_reverse, lastWord?]

/-! ## Blanks in front -/

theorem lastWord?_append (hblanks : allBlank blanks = true) (text : List Char) :
    lastWord? (blanks ++ text) =
      (lastWord? text).map fun found => { found with offset := blanks.length + found.offset } := by
  cases hfound : lastWord? text with
  | none =>
      rw [Option.map_none, lastWord?_eq_none_iff, allBlank, List.all_append, Bool.and_eq_true]
      exact ⟨hblanks, lastWord?_eq_none_iff.mp hfound⟩
  | some found =>
      obtain ⟨before, after, hword, hoffset⟩ := lastWord?_eq_some_iff.mp hfound
      have hnil : allBlank [] = true := rfl
      have hpadded := hword.pad hblanks hnil
      rw [List.append_nil] at hpadded
      refine lastWord?_eq_some_iff.mpr ⟨_, _, hpadded, ?_⟩
      show blanks.length + found.offset = (blanks ++ before).length
      rw [List.length_append, hoffset]

/-- The last word of a text, which there is unless the text is blank: the word that starts the text or
follows a blank and that only blanks follow, with the number of characters before it.  Blanks in front
of the text move it by their number and leave it as it is.  The search by byte offsets finds it and
cuts no character. -/
theorem lastWord?_exact (text : List Char) :
    (lastWord? text = none ↔ allBlank text = true) ∧
    (∀ found, lastWord? text = some found ↔ ∃ before after,
      EndsInWord text before found.word after ∧ found.offset = before.length) ∧
    (∀ blanks, allBlank blanks = true → lastWord? (blanks ++ text) =
      (lastWord? text).map fun found => { found with offset := blanks.length + found.offset }) ∧
    searchLastWord? text = some (lastWord? text) :=
  ⟨lastWord?_eq_none_iff, fun _ => lastWord?_eq_some_iff,
    fun _ hblanks => lastWord?_append hblanks text, searchLastWord?_eq text⟩

/-- Blanks of three bytes and of one count as one character each. -/
theorem lastWord?_exact_behind_blanks : allBlank "\u3000 ".toList = true ∧
    lastWord? ("\u3000 ".toList ++ "weak\u2003ünïcode".toList) = some ⟨7, "ünïcode".toList⟩ := by
  have hblanks : allBlank "\u3000 ".toList = true := by decide
  have hword : lastWord? "weak\u2003ünïcode".toList = some ⟨5, "ünïcode".toList⟩ := by decide
  refine ⟨hblanks, ?_⟩
  rw [(lastWord?_exact "weak\u2003ünïcode".toList).2.2.1 _ hblanks, hword]
  rfl

end CaptureLint.Text
