import CaptureLint.Proofs.Text.LastWord
import CaptureLint.Text.WordChar

/-!
# Trimming

Trimming takes away the blanks at the two ends of a text, however many there are, and nothing else.
Blanks put around a text do not matter, a text that has none at its ends stays as it is, and no word
character is a blank.
-/

namespace CaptureLint.Text

variable {text left right : List Char} {c : Char}

/-! ## One end -/

theorem trimStart_append (hleft : allBlank left = true) (text : List Char) :
    trimStart (left ++ text) = trimStart text :=
  List.dropWhile_append_of_pos (List.all_eq_true.mp hleft)

theorem trimStart_of_allBlank (h : allBlank text = true) : trimStart text = [] := by
  have htrim := trimStart_append h []
  rw [List.append_nil] at htrim
  exact htrim

theorem trimStart_cons (hc : isBlank c = false) (text : List Char) :
    trimStart (c :: text) = c :: text :=
  List.dropWhile_cons_of_neg (by simp [hc])

theorem trimStart_trimStart (text : List Char) : trimStart (trimStart text) = trimStart text := by
  have htrim := trimStart_append (allBlank_leadingBlanks text) (trimStart text)
  rw [leadingBlanks_append_trimStart] at htrim
  exact htrim.symm

theorem trimEnd_append (text : List Char) (hright : allBlank right = true) :
    trimEnd (text ++ right) = trimEnd text := by
  have hreverse : ∀ c ∈ right.reverse, isBlank c = true := by
    intro c hc
    exact isBlank_of_mem hright (List.mem_reverse.mp hc)
  unfold trimEnd
  rw [List.reverse_append, List.dropWhile_append_of_pos hreverse]

/-! ## Both ends -/

theorem trim_append_right (text : List Char) (hright : allBlank right = true) :
    trim (text ++ right) = trim text := by
  unfold trim
  by_cases hempty : trimStart text = []
  · have hblank : allBlank text = true := by
      rw [← leadingBlanks_append_trimStart text, hempty, List.append_nil]
      exact allBlank_leadingBlanks text
    rw [trimStart_append hblank, trimStart_of_allBlank hright, hempty]
  · have hstart : trimStart (text ++ right) = trimStart text ++ right := by
      show (text ++ right).dropWhile isBlank = text.dropWhile isBlank ++ right
      rw [List.dropWhile_append, if_neg]
      rw [List.isEmpty_iff]
      exact hempty
    rw [hstart, trimEnd_append _ hright]

/-- Blanks around a text do not matter. -/
theorem trim_append (hleft : allBlank left = true) (text : List Char)
    (hright : allBlank right = true) : trim (left ++ text ++ right) = trim text := by
  rw [trim_append_right _ hright, trim, trimStart_append hleft, ← trim]

theorem trim_trim (text : List Char) : trim (trim text) = trim text := by
  obtain ⟨blanks, hsplit, hblank⟩ := exists_trim text
  have htrim := trim_append (allBlank_leadingBlanks text) (trim text) hblank
  rw [← hsplit] at htrim
  exact htrim.symm

theorem mem_of_mem_trim (h : c ∈ trim text) : c ∈ text := by
  obtain ⟨blanks, hsplit, -⟩ := exists_trim text
  rw [hsplit, List.mem_append, List.mem_append]
  exact .inl (.inr h)

theorem trim_of_ends (hstart : ∀ c ∈ text.head?, isBlank c = false)
    (hend : ∀ c ∈ text.getLast?, isBlank c = false) : trim text = text := by
  cases text with
  | nil => rfl
  | cons c text =>
      have htrim := @trimEnd_append_blanks (c :: text) [] hend rfl
      rw [List.append_nil] at htrim
      rw [trim, trimStart_cons (hstart c rfl), htrim]

theorem trim_of_no_blank (h : ∀ c ∈ text, isBlank c = false) : trim text = text := by
  apply trim_of_ends
  · intro c hc
    exact h c (List.mem_of_head? hc)
  · intro c hc
    exact h c (List.mem_of_getLast? hc)

/-! ## Word characters -/

/-- The blanks beyond ASCII, as first and last code points of runs. -/
def blankRuns : List (Nat × Nat) :=
  [(0x85, 0x85), (0xA0, 0xA0), (0x1680, 0x1680), (0x2000, 0x200A), (0x2028, 0x2029),
    (0x202F, 0x202F), (0x205F, 0x205F), (0x3000, 0x3000)]

theorem exists_blankRun (h : isBlank c = true) (hascii : ¬ c.toNat < 0x80) :
    ∃ run ∈ blankRuns, run.1 ≤ c.toNat ∧ c.toNat ≤ run.2 := by
  simp only [isBlank, Bool.or_eq_true, Bool.and_eq_true, decide_eq_true_eq, beq_iff_eq] at h
  simp only [blankRuns, List.mem_cons, List.not_mem_nil, or_false, exists_eq_or_imp, exists_eq_left]
  omega

theorem blankRuns_apart : ∀ run ∈ blankRuns, ∀ words ∈ wordRuns,
    run.2 < words.1 ∨ words.2 < run.1 := by
  decide +kernel

theorem isWordChar_ascii_blanks : ∀ n ∈ [9, 10, 11, 12, 13, 0x20],
    isWordChar (Char.ofNat n) = false := by
  decide

theorem isWordChar_of_isBlank (h : isBlank c = true) : isWordChar c = false := by
  by_cases hascii : c.toNat < 0x80
  · have hmem : c.toNat ∈ [9, 10, 11, 12, 13, 0x20] := by
      simp only [isBlank, Bool.or_eq_true, Bool.and_eq_true, decide_eq_true_eq, beq_iff_eq] at h
      simp only [List.mem_cons, List.not_mem_nil, or_false]
      omega
    have hword := isWordChar_ascii_blanks c.toNat hmem
    rwa [Char.ofNat_toNat] at hword
  · obtain ⟨run, hrun, hfirst, hlast⟩ := exists_blankRun h hascii
    unfold isWordChar
    rw [if_neg hascii, List.any_eq_false]
    intro words hwords
    have hapart := blankRuns_apart run hrun words hwords
    simp only [Bool.and_eq_true, decide_eq_true_eq]
    omega

theorem isBlank_of_isWordChar (h : isWordChar c = true) : isBlank c = false := by
  by_cases hblank : isBlank c = true
  · rw [isWordChar_of_isBlank hblank] at h
    cases h
  · simpa using hblank

end CaptureLint.Text
