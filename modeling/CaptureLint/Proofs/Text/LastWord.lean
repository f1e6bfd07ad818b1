import CaptureLint.Proofs.Text.LastRun
import CaptureLint.Text.Blank

/-!
# The last word of a text

Blanks at the two ends of a text can be cut off and put back.  A word is the last one of a text when
it starts the text or follows a blank, and only blanks follow it.  Main statements: `lastWord?` finds
that word with the number of characters before it, and finds none exactly in a text of blanks.
-/

namespace CaptureLint.Text

variable {text before word after blanks : List Char}

/-! ## Blanks at the ends -/

theorem endsInRun_trimEnd (text : List Char) :
    EndsInRun isBlank text (trimEnd text) (text.reverse.takeWhile isBlank).reverse :=
  endsInRun isBlank text

theorem exists_trimEnd (text : List Char) :
    ∃ blanks, text = trimEnd text ++ blanks ∧ allBlank blanks = true :=
  ⟨_, (endsInRun_trimEnd text).split, List.all_eq_true.mpr (endsInRun_trimEnd text).accepted⟩

/-- Trimming leaves what follows the leading blanks, up to the blanks at the end. -/
theorem exists_trim (text : List Char) :
    ∃ blanks, text = leadingBlanks text ++ trim text ++ blanks ∧ allBlank blanks = true := by
  obtain ⟨blanks, hblanks, hblank⟩ := exists_trimEnd (trimStart text)
  refine ⟨blanks, ?_, hblank⟩
  rw [List.append_assoc, trim, ← hblanks, leadingBlanks_append_trimStart]

theorem allBlank_leadingBlanks (text : List Char) : allBlank (leadingBlanks text) = true :=
  List.all_takeWhile

theorem isBlank_of_mem (h : allBlank blanks = true) {c : Char} (hc : c ∈ blanks) :
    isBlank c = true :=
  List.all_eq_true.mp h c hc

theorem trimEnd_append_blanks (htext : ∀ c ∈ text.getLast?, isBlank c = false)
    (hblanks : allBlank blanks = true) : trimEnd (text ++ blanks) = text := by
  have hrun : EndsInRun isBlank (text ++ blanks) text blanks :=
    ⟨rfl, List.all_eq_true.mp hblanks, htext⟩
  rw [trimEnd, hrun.dropWhile_reverse, List.reverse_reverse]

theorem trimEnd_eq_nil_iff : trimEnd text = [] ↔ allBlank text = true := by
  constructor
  · intro h
    obtain ⟨blanks, hblanks, hblank⟩ := exists_trimEnd text
    rw [hblanks, h]
    exact hblank
  · intro h
    exact @trimEnd_append_blanks [] text (by simp) h

structure EndsInWord (text before word after : List Char) : Prop where
  split : text = before ++ word ++ after
  nonempty : word ≠ []
  nonblank : ∀ c ∈ word, isBlank c = false
  before_blank : ∀ c ∈ before.getLast?, isBlank c = true
  after_blank : allBlank after = true

theorem EndsInWord.pad {left right : List Char} (h : EndsInWord text before word after)
    (hleft : allBlank left = true) (hright : allBlank right = true) :
    EndsInWord (left ++ text ++ right) (left ++ before) word (after ++ right) where
  split := by simp [h.split]
  nonempty := h.nonempty
  nonblank := h.nonblank
  before_blank := by
    intro c hc
    rw [List.getLast?_append, Option.mem_def, Option.or_eq_some_iff] at hc
    rcases hc with hc | ⟨-, hc⟩
    · exact h.before_blank c hc
    · exact isBlank_of_mem hleft (List.mem_of_mem_getLast? hc)
  after_blank := by
    rw [allBlank, List.all_append, Bool.and_eq_true]
    exact ⟨h.after_blank, hright⟩

theorem EndsInWord.trimEnd_eq (h : EndsInWord text before word after) :
    trimEnd text = before ++ word := by
  rw [h.split]
  refine trimEnd_append_blanks (fun c hc => ?_) h.after_blank
  rw [List.getLast?_append, List.getLast?_eq_some_getLast h.nonempty, Option.some_or] at hc
  exact h.nonblank c (Option.some.inj hc ▸ List.getLast_mem h.nonempty)

/-- Without its last blanks, a text ends in its last word. -/
theorem endsInWord_iff : EndsInWord text before word after ↔
    EndsInRun (! isBlank ·) (trimEnd text) before word ∧ word ≠ [] ∧ text = trimEnd text ++ after ∧
      allBlank after = true := by
  constructor
  · intro h
    refine ⟨⟨h.trimEnd_eq, fun c hc => ?_, fun c hc => ?_⟩, h.nonempty, ?_, h.after_blank⟩
    · rw [h.nonblank c hc, Bool.not_false]
    · rw [h.before_blank c hc, Bool.not_true]
    · rw [h.trimEnd_eq, ← h.split]
  · rintro ⟨hrun, hne, htext, hafter⟩
    refine ⟨?_, hne, fun c hc => ?_, fun c hc => ?_, hafter⟩
    · rw [← hrun.split, ← htext]
    · simpa using hrun.accepted c hc
    · simpa using hrun.front_stop c hc

/-- The last word found is the last word, with the number of characters before it. -/
theorem lastWord?_eq_some_iff {found : PlacedWord} :
    lastWord? text = some found ↔
      ∃ before after, EndsInWord text before found.word after ∧ found.offset = before.length := by
  constructor
  · intro h
    obtain ⟨blanks, hblanks, hblank⟩ := exists_trimEnd text
    simp only [lastWord?, List.isEmpty_iff, Option.ite_none_left_eq_some, Option.some.injEq] at h
    obtain ⟨hne, rfl⟩ := h
    exact ⟨_, blanks, endsInWord_iff.mpr ⟨endsInRun _ _, hne, hblanks, hblank⟩,
      List.length_reverse.symm⟩
  · rintro ⟨before, after, h, hoffset⟩
    obtain ⟨hrun, hne, -⟩ := endsInWord_iff.mp h
    simp [lastWord?, hrun.takeWhile_reverse, hrun.dropWhile_reverse, hne, ← hoffset]

theorem lastWord?_eq_none_iff : lastWord? text = none ↔ allBlank text = true := by
  rw [← trimEnd_eq_nil_iff]
  simp only [lastWord?, List.isEmpty_iff, ite_eq_left_iff, reduceCtorEq, imp_false,
    Decidable.not_not]
  constructor
  · intro hempty
    have hrun := endsInRun (! isBlank ·) (trimEnd text)
    rw [hempty] at hrun
    -- what the last blanks are cut off from would itself end in a blank
    cases hlast : (trimEnd text).getLast? with
    | none => exact List.getLast?_eq_none_iff.mp hlast
    | some c =>
        have hnot := (endsInRun_trimEnd text).front_stop c hlast
        rw [hrun.split, List.append_nil] at hlast
        have hblank := hrun.front_stop c hlast
        rw [hnot] at hblank
        cases hblank
  · intro hnil
    rw [hnil]
    rfl

end CaptureLint.Text
