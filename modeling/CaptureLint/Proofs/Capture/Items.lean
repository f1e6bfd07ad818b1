import CaptureLint.Proofs.Capture.Entries

/-!
# The entries of a list, item by item

Commas cut a list into items, and every item holds at most one entry.  Main statement: the entries of
two lists joined by a comma are those of the first and, moved behind it, those of the second; and an
item without commas binds the last word before its first `=`, if there is one.
-/

namespace CaptureLint.Capture

open Text

variable {start : Nat} {entry : Entry} {item text : List Char}

/-! ## Several items -/

/-- What has been read of the current item does not change where the next item starts. -/
theorem entriesFrom_append (start : Nat) (item first second : List Char) :
    entriesFrom start item (first ++ ',' :: second) =
      entriesFrom start item first ++
        entriesFrom (start + item.length + first.length + 1) [] second := by
  fun_induction entriesFrom start item first with
  | case1 start item => rfl
  | case2 start item first ih =>
      have hstart : start + item.length + 1 + ([] : List Char).length + first.length + 1 =
          start + item.length + (',' :: first).length + 1 := by
        simp only [List.length_nil, List.length_cons]
        omega
      rw [List.cons_append, entriesFrom, ih, List.append_assoc, hstart]
  | case3 start item c first hc ih =>
      have hstart : start + (c :: item).length + first.length + 1 =
          start + item.length + (c :: first).length + 1 := by
        simp only [List.length_cons]
        omega
      rw [List.cons_append, entriesFrom, ih, hstart]
      exact hc

theorem entryOf?_shift (distance start : Nat) (item : List Char) :
    entryOf? (distance + start) item = (entryOf? start item).map (Entry.shift distance) := by
  unfold entryOf?
  cases lastWord? (binding (trim item)) with
  | none => rfl
  | some found =>
      simp only [Option.bind_eq_bind, Option.bind_some, Option.map_some, Entry.shift,
        Option.some.injEq, Entry.mk.injEq, true_and, and_true]
      omega

theorem entriesFrom_shift (distance start : Nat) (item text : List Char) :
    entriesFrom (distance + start) item text =
      (entriesFrom start item text).map (Entry.shift distance) := by
  fun_induction entriesFrom start item text with
  | case1 start item => rw [entriesFrom, entryOf?_shift, Option.toList_map]
  | case2 start item text ih =>
      rw [entriesFrom, entryOf?_shift, Option.toList_map, List.map_append, ← ih]
      simp only [Nat.add_assoc]
  | case3 start item c text hc ih =>
      rw [entriesFrom, ih]
      exact hc

/-! ## One item -/

theorem entriesFrom_of_no_comma (h : ',' ∉ text) :
    entriesFrom start item text = (entryOf? start (item.reverse ++ text)).toList := by
  induction text generalizing item with
  | nil => rw [entriesFrom, List.append_nil]
  | cons c text ih =>
      rw [List.mem_cons, not_or] at h
      rw [entriesFrom, ih h.2, List.reverse_cons, List.append_assoc, List.singleton_append]
      exact fun hc => h.1 hc.symm

theorem entries_of_no_comma (h : ',' ∉ item) : entries item = (entryOf? 0 item).toList := by
  rw [entries, entriesFrom_of_no_comma h, List.reverse_nil, List.nil_append]

theorem drop_take_of_endsInWord {before word after : List Char}
    (h : EndsInWord (binding item) before word after) :
    (item.drop before.length).take word.length = word := by
  obtain ⟨bound, hitem, -⟩ := exists_binding item
  rw [hitem, h.split]
  simp

/-! ## Lists -/

/-- The entries of a list are found item by item.  Commas separate the items, and the entries behind
a comma are moved by what stands before it.  An item without commas has an entry exactly when its part
before the first `=` is not blank; the name is the last word of that part and stands where the offset
of the name says. -/
theorem entries_item_by_item :
    (∀ first second : List Char, entries (first ++ ',' :: second) =
      entries first ++ (entries second).map (Entry.shift (first.length + 1))) ∧
    ∀ item : List Char, ',' ∉ item →
      (entries item = [] ↔ allBlank (item.takeWhile (· != '=')) = true) ∧
      (allBlank (item.takeWhile (· != '=')) = false → ∃ entry before after,
        entries item = [entry] ∧
        EndsInWord (item.takeWhile (· != '=')) before entry.name after ∧
        entry.offset = (leadingBlanks item).length ∧
        entry.nameOffsetInList = before.length ∧
        (item.drop entry.nameOffsetInList).take entry.name.length = entry.name) := by
  refine ⟨fun first second => ?_, fun item hitem => ?_⟩
  · have hshift := entriesFrom_shift (first.length + 1) 0 [] second
    rw [Nat.add_zero] at hshift
    rw [entries, entriesFrom_append, entries, entries, ← hshift, List.length_nil, Nat.zero_add]
  · rw [entries_of_no_comma hitem]
    have hnone := @entryOf?_eq_none_iff 0 item
    rw [binding] at hnone
    refine ⟨by rw [Option.toList_eq_nil_iff, hnone], fun hblank => ?_⟩
    obtain ⟨entry, hentry⟩ : ∃ entry, entryOf? 0 item = some entry :=
      Option.ne_none_iff_exists'.mp fun heq => by simp [hnone.mp heq] at hblank
    obtain ⟨before, after, hword, hoffset, hname⟩ := endsInWord_of_entryOf? hentry
    rw [Nat.zero_add] at hoffset hname
    refine ⟨entry, before, after, by rw [hentry, Option.toList_some], hword, hoffset, hname, ?_⟩
    rw [hname]
    exact drop_take_of_endsInWord hword

/-- Items without a name are passed over, and the offsets of later entries count them. -/
example : entries "é, = x,\u3000weak b = [1],".toList =
    [⟨['é'], 0, 0⟩, ⟨['b'], 8, 5⟩] := by decide

end CaptureLint.Capture
