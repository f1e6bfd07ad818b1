import CaptureLint.Capture.List
import CaptureLint.Proofs.Text.LastWord

/-!
# Where the entries of a capture list stand

The name of an entry is an excerpt of the list, with `nameOffsetInList` characters before it.  The
items of a list follow one another, so these offsets grow from entry to entry.
-/

namespace CaptureLint.Capture

open Text

variable {start : Nat} {entry : Entry} {item text list : List Char}

/-! ## One item -/

/-- What a word of a list stands between: each side is empty or has a separator next to the word. -/
structure SetApart (before after : List Char) : Prop where
  before : ∀ c ∈ before.getLast?, isBlank c = true ∨ c = ','
  after : ∀ c ∈ after.head?, isBlank c = true ∨ c = ',' ∨ c = '='

theorem exists_binding (item : List Char) :
    ∃ bound, item = binding item ++ bound ∧ ∀ c ∈ bound.head?, c = '=' := by
  refine ⟨item.dropWhile (· != '='), List.takeWhile_append_dropWhile.symm, fun c hc => ?_⟩
  have hhead := List.head?_dropWhile_not (· != '=') item
  rw [Option.mem_def.mp hc] at hhead
  simpa using hhead

/-- What an item binds is told by its first part, with the blanks at its ends or without them. -/
theorem exists_binding_trim (item : List Char) :
    ∃ blanks, binding item = leadingBlanks item ++ binding (trim item) ++ blanks ∧
      allBlank blanks = true := by
  obtain ⟨blanks, hitem, hblanks⟩ := exists_trim item
  have hfirst : binding item = leadingBlanks item ++ binding (trim item ++ blanks) := by
    conv => lhs; rw [hitem, List.append_assoc]
    refine List.takeWhile_append_of_pos fun c hc => ?_
    rw [bne_iff_ne]
    rintro rfl
    exact absurd (isBlank_of_mem (allBlank_leadingBlanks item) hc) (by decide)
  rw [hfirst]
  by_cases hsign : (binding (trim item)).length = (trim item).length
  · -- there is no sign, and the first part goes on into the blanks at the end
    have hwhole : binding (trim item) = trim item := (List.takeWhile_prefix _).eq_of_length hsign
    refine ⟨binding blanks, ?_, List.all_eq_true.mpr fun c hc =>
      isBlank_of_mem hblanks ((List.takeWhile_sublist _).subset hc)⟩
    rw [hwhole, List.append_assoc]
    exact congrArg _ (List.takeWhile_append.trans (if_pos hsign))
  · refine ⟨[], ?_, rfl⟩
    rw [List.append_nil]
    exact congrArg _ (List.takeWhile_append.trans (if_neg hsign))

theorem entryOf?_eq_none_iff : entryOf? start item = none ↔ allBlank (binding item) = true := by
  obtain ⟨blanks, hbinding, hblanks⟩ := exists_binding_trim item
  have hblank : allBlank (binding item) = allBlank (binding (trim item)) := by
    rw [hbinding, allBlank, List.all_append, List.all_append, ← allBlank, ← allBlank, ← allBlank,
      allBlank_leadingBlanks, hblanks, Bool.true_and, Bool.and_true]
  rw [hblank, ← lastWord?_eq_none_iff, entryOf?]
  cases lastWord? (binding (trim item)) <;> simp

theorem endsInWord_of_entryOf? (h : entryOf? start item = some entry) :
    ∃ before after, EndsInWord (binding item) before entry.name after ∧
      entry.offset = start + (leadingBlanks item).length ∧
      entry.nameOffsetInList = start + before.length := by
  simp only [entryOf?, Option.bind_eq_bind, Option.bind_eq_some_iff, Option.some.injEq] at h
  obtain ⟨found, hfound, rfl⟩ := h
  obtain ⟨before, after, hword, hoffset⟩ := lastWord?_eq_some_iff.mp hfound
  obtain ⟨blanks, hbinding, hblanks⟩ := exists_binding_trim item
  refine ⟨leadingBlanks item ++ before, after ++ blanks, ?_, rfl, ?_⟩
  · rw [hbinding]
    exact hword.pad (allBlank_leadingBlanks item) hblanks
  · simp only [Entry.nameOffsetInList, hoffset, List.length_append, Nat.add_assoc]

/-- The name of an entry is an excerpt of its item, set apart from what the item holds beside it. -/
theorem split_of_entryOf? (h : entryOf? start item = some entry) :
    ∃ before after, item = before ++ entry.name ++ after ∧
      entry.nameOffsetInList = start + before.length ∧ entry.name ≠ [] ∧ SetApart before after := by
  obtain ⟨before, after, hword, -, hoffset⟩ := endsInWord_of_entryOf? h
  obtain ⟨bound, hitem, hbound⟩ := exists_binding item
  refine ⟨before, after ++ bound, ?_, hoffset, hword.nonempty,
    fun c hc => .inl (hword.before_blank c hc), fun c hc => ?_⟩
  · conv => lhs; rw [hitem, hword.split]
    simp
  · rw [List.head?_append, Option.mem_def, Option.or_eq_some_iff] at hc
    rcases hc with hc | ⟨-, hc⟩
    · exact .inl (isBlank_of_mem hword.after_blank (List.mem_of_mem_head? hc))
    · exact .inr (.inr (hbound c hc))

theorem bounds_of_mem_entryOf? (h : entry ∈ (entryOf? start item).toList) :
    start ≤ entry.nameOffsetInList ∧ entry.nameOffsetInList < start + item.length := by
  obtain ⟨before, after, hitem, hoffset, hne, -⟩ := split_of_entryOf? (Option.mem_toList.mp h)
  have hpos := List.length_pos_iff.mpr hne
  rw [hitem, hoffset]
  simp only [List.length_append]
  omega

/-! ## All items -/

/-- The entries that are still to be read are bound at or after the start of the current item. -/
theorem bounds_of_mem_entriesFrom (h : entry ∈ entriesFrom start item text) :
    start ≤ entry.nameOffsetInList ∧
      entry.nameOffsetInList < start + item.length + text.length := by
  fun_induction entriesFrom start item text with
  | case1 start item => simpa using bounds_of_mem_entryOf? h
  | case2 start item text ih =>
      rw [List.mem_append] at h
      rw [List.length_cons]
      rcases h with h | h
      · have hbounds := bounds_of_mem_entryOf? h
        rw [List.length_reverse] at hbounds
        omega
      · have hbounds := ih h
        rw [List.length_nil] at hbounds
        omega
  | case3 start item c text hc ih =>
      have hbounds := ih h
      rw [List.length_cons] at hbounds ⊢
      omega

theorem increasing_entriesFrom (start : Nat) (item text : List Char) :
    (entriesFrom start item text).Pairwise fun first second =>
      first.nameOffsetInList < second.nameOffsetInList := by
  fun_induction entriesFrom start item text with
  | case1 start item => cases entryOf? start item.reverse <;> simp
  | case2 start item text ih =>
      rw [List.pairwise_append]
      refine ⟨by cases entryOf? start item.reverse <;> simp, ih, ?_⟩
      -- the comma after the item separates its entry from the next one
      intro first hfirst second hsecond
      have hbefore := (bounds_of_mem_entryOf? hfirst).2
      have hafter := (bounds_of_mem_entriesFrom hsecond).1
      rw [List.length_reverse] at hbefore
      omega
  | case3 start item c text hc ih => exact ih

theorem nameOffset_lt_length (h : entry ∈ entries list) :
    entry.nameOffsetInList < list.length := by
  have hbounds := (bounds_of_mem_entriesFrom h).2
  simpa using hbounds

theorem increasing_entries (list : List Char) :
    (entries list).Pairwise fun first second => first.nameOffsetInList < second.nameOffsetInList :=
  increasing_entriesFrom 0 [] list

end CaptureLint.Capture
