import CaptureLint.Proofs.Rule.Window
import CaptureLint.Proofs.Source.Lines

/-!
# Where findings point

A finding carries a name, a character offset and a location.  The offset is a sum that is collected
along the capture list: the window, the brackets, the items before the entry and the qualifiers in
front of the name.  Here the characters at that offset are the name, whatever the text is.
-/

namespace CaptureLint.Capture

open Text

/-- A word that can stand between the separators of a capture list. -/
def IsName (name : List Char) : Prop :=
  name ≠ [] ∧ ∀ c ∈ name, isBlank c = false ∧ c ∉ [',', '=', '[', ']']

instance : DecidablePred IsName := fun name =>
  inferInstanceAs (Decidable (name ≠ [] ∧ ∀ c ∈ name, isBlank c = false ∧ c ∉ [',', '=', '[', ']']))

variable {start : Nat} {entry : Entry} {item text list : List Char}

/-! ## The characters of a name -/

theorem not_mem_binding (item : List Char) : '=' ∉ binding item := by
  intro hmem
  have hne := List.all_eq_true.mp (List.all_takeWhile (p := (· != '=')) (l := item)) '=' hmem
  simp at hne

theorem name_of_entryOf? (h : entryOf? start item = some entry) :
    ∀ c ∈ entry.name, isBlank c = false ∧ c ≠ '=' ∧ c ∈ item := by
  obtain ⟨before, after, hword, -, -⟩ := endsInWord_of_entryOf? h
  intro c hc
  have hmem : c ∈ binding item := by
    rw [hword.split]
    simp [hc]
  refine ⟨hword.nonblank c hc, ?_, (List.takeWhile_sublist _).subset hmem⟩
  rintro rfl
  exact not_mem_binding item hmem

/-- What has been read of the current item holds no comma, so no entry does. -/
theorem name_of_mem_entriesFrom (hitem : ',' ∉ item) (h : entry ∈ entriesFrom start item text) :
    ∀ c ∈ entry.name, isBlank c = false ∧ c ≠ '=' ∧ c ≠ ',' := by
  have hone : ∀ {start : Nat} {item : List Char}, ',' ∉ item →
      entry ∈ (entryOf? start item.reverse).toList →
      ∀ c ∈ entry.name, isBlank c = false ∧ c ≠ '=' ∧ c ≠ ',' := by
    intro start item hitem hentry c hc
    obtain ⟨hblank, hequals, hmem⟩ := name_of_entryOf? (Option.mem_toList.mp hentry) c hc
    refine ⟨hblank, hequals, ?_⟩
    rintro rfl
    exact hitem (List.mem_reverse.mp hmem)
  fun_induction entriesFrom start item text with
  | case1 start item => exact hone hitem h
  | case2 start item text ih =>
      rcases List.mem_append.mp h with h | h
      · exact hone hitem h
      · exact ih (by simp) h
  | case3 start item c text hc ih =>
      apply ih _ h
      simp only [List.mem_cons, not_or]
      exact ⟨fun heq => hc heq.symm, hitem⟩

theorem split_of_mem_entriesFrom (h : entry ∈ entriesFrom start item text) :
    ∃ before after, item.reverse ++ text = before ++ entry.name ++ after ∧
      entry.nameOffsetInList = start + before.length ∧ entry.name ≠ [] ∧ SetApart before after := by
  fun_induction entriesFrom start item text with
  | case1 start item =>
      rw [List.append_nil]
      exact split_of_entryOf? (Option.mem_toList.mp h)
  | case2 start item text ih =>
      rcases List.mem_append.mp h with h | h
      · obtain ⟨before, after, hitem, hoffset, hne, hapart⟩ :=
          split_of_entryOf? (Option.mem_toList.mp h)
        refine ⟨before, after ++ ',' :: text, by simp [hitem], hoffset, hne, hapart.before, ?_⟩
        intro c hc
        rw [List.head?_append, Option.mem_def, Option.or_eq_some_iff] at hc
        rcases hc with hc | ⟨-, hc⟩
        · exact hapart.after c hc
        · exact .inr (.inl (Option.some.inj hc).symm)
      · obtain ⟨before, after, htext, hoffset, hne, hapart⟩ := ih h
        rw [List.reverse_nil, List.nil_append] at htext
        refine ⟨item.reverse ++ ',' :: before, after, by simp [htext], ?_, hne, ?_, hapart.after⟩
        · simp only [hoffset, List.length_append, List.length_reverse, List.length_cons]
          omega
        · intro c hc
          rw [List.getLast?_append, List.getLast?_cons, Option.some_or, Option.mem_def,
            Option.some.injEq] at hc
          cases hlast : before.getLast? with
          | none => exact .inr (by rw [← hc, hlast]; rfl)
          | some last =>
              rw [hlast, Option.getD_some] at hc
              exact hc ▸ hapart.before last hlast
  | case3 start item c text hc ih =>
      obtain ⟨before, after, htext, hoffset, hne, hapart⟩ := ih h
      exact ⟨before, after, by simpa using htext, hoffset, hne, hapart⟩

theorem isName_of_mem_entries (hopening : '[' ∉ list) (hclosing : ']' ∉ list)
    (h : entry ∈ entries list) : IsName entry.name := by
  obtain ⟨before, after, hlist, -, hne, -⟩ := split_of_mem_entriesFrom h
  rw [List.reverse_nil, List.nil_append] at hlist
  refine ⟨hne, fun c hc => ?_⟩
  obtain ⟨hblank, hequals, hcomma⟩ := name_of_mem_entriesFrom (by simp) h c hc
  have hmem : c ∈ list := by
    rw [hlist]
    simp [hc]
  have hopen : c ≠ '[' := fun heq => hopening (heq ▸ hmem)
  have hclose : c ≠ ']' := fun heq => hclosing (heq ▸ hmem)
  simp [hblank, hequals, hcomma, hopen, hclose]

/-- An entry of the capture list of a window stands between its brackets, where its offset says. -/
theorem split_of_mem_listing {source : Source} {window : CharRange} {found : Listing}
    (hfound : listing? source window = some found) (h : entry ∈ entries found.text) :
    ∃ first second left right after, source.substring? window = some (first ++ '\x7b' ::
        (second ++ '[' :: (left ++ entry.name ++ right ++ ']' :: after))) ∧
      allBlank first = true ∧ allBlank second = true ∧ ']' ∉ left ++ entry.name ++ right ∧
      found.range.start + entry.nameOffsetInList =
        window.start + (first.length + second.length + 2 + left.length) ∧
      source.substring? ⟨found.range.start + entry.nameOffsetInList, entry.name.length⟩ =
        some entry.name ∧ IsName entry.name := by
  obtain ⟨before, text, rest, first, second, after, hchars, rfl, hspelled, hrange⟩ :=
    listing?_eq_some_iff.mp hfound
  obtain ⟨left, right, hgroup, hoffset, -⟩ := split_of_mem_entriesFrom h
  rw [List.reverse_nil, List.nil_append] at hgroup
  rw [Nat.zero_add] at hoffset
  have hat : found.range.start + entry.nameOffsetInList =
      before.length + (first.length + second.length + 2 + left.length) := by
    rw [hrange, hoffset]
    exact Nat.add_assoc _ _ _
  have hsplit := hspelled.split
  rw [hgroup] at hsplit
  have hexcerpt : source.chars = (before ++ first ++ '\x7b' :: (second ++ '[' :: left)) ++
      entry.name ++ (right ++ ']' :: after ++ rest) := by
    rw [hchars, hsplit]
    simp
  have hlength : (before ++ first ++ '\x7b' :: (second ++ '[' :: left)).length =
      before.length + (first.length + second.length + 2 + left.length) := by
    simp only [List.length_append, List.length_cons]
    omega
  refine ⟨first, second, left, right, after, ?_, hspelled.first_blank, hspelled.second_blank, ?_,
    hat, ?_, isName_of_mem_entries hspelled.no_opening hspelled.no_closing h⟩
  · rw [Source.substring?_of_excerpt hchars, hsplit]
  · rw [← hgroup]
    exact hspelled.no_closing
  · rw [hat, ← hlength]
    exact Source.substring?_of_excerpt hexcerpt

end CaptureLint.Capture

/-! ## Findings -/

namespace CaptureLint.UnusedCapture

open Capture

variable {severity : Severity} {source : Source} {closure : Closure} {violation : Violation}

/-- A finding of any closure, real or invented, points at its name: the name stands at the offset,
between the brackets at the start of the window, and the location is that of the offset. -/
theorem finding_points_at_name
    (h : violation ∈ (check severity (.ofSource source) closure).value) :
    ∃ window first second left right after, closure.window? source = some window ∧
      source.substring? window = some (first ++ '\x7b' :: (second ++ '[' ::
        (left ++ violation.reference.toList ++ right ++ ']' :: after))) ∧
      Text.allBlank first = true ∧ Text.allBlank second = true ∧
      ']' ∉ left ++ violation.reference.toList ++ right ∧
      violation.offset = window.start + (first.length + second.length + 2 + left.length) ∧
      source.substring? ⟨violation.offset, violation.reference.toList.length⟩ =
        some violation.reference.toList ∧
      IsName violation.reference.toList ∧
      source.location? violation.offset = some violation.location ∧
      violation.location = ⟨1 + (source.chars.take violation.offset).count '\n',
        1 + ((source.chars.take violation.offset).reverse.takeWhile (· != '\n')).length⟩ := by
  rcases check_value severity source closure with
    hnone | ⟨window, list, kept, hwindow, hlist, hkept, hvalue⟩
  · rw [hnone] at h
    cases h
  rw [hvalue] at h
  obtain ⟨entry, hentry, rfl⟩ := List.mem_map.mp h
  obtain ⟨first, second, left, right, after, htext, hfirst, hsecond, hclosing, hoffset, hspells,
    hname⟩ := split_of_mem_listing hlist (hkept.subset hentry)
  have hreference :
      (UnusedCapture.violation severity source list.range.start entry).reference.toList =
        entry.name := String.toList_ofList
  -- a name that is spelled in the source starts in it
  have hin : list.range.start + entry.nameOffsetInList ≤ source.charLength := by
    obtain ⟨left, right, hchars, hrange⟩ := Source.exists_excerpt_of_substring? hspells
    have hstart : list.range.start + entry.nameOffsetInList = left.length :=
      congrArg CharRange.start hrange
    rw [hstart, Source.charLength, hchars]
    simp
  have hlocation : source.location? (list.range.start + entry.nameOffsetInList) =
      some (UnusedCapture.violation severity source list.range.start entry).location := by
    show _ = some ((source.location? (list.range.start + entry.nameOffsetInList)).getD .top)
    rw [Source.location?, if_pos hin, Option.getD_some]
  rw [hreference]
  refine ⟨window, first, second, left, right, after, hwindow, htext, hfirst, hsecond, hclosing,
    hoffset, hspells, hname, hlocation, ?_⟩
  rw [Source.location?, if_pos hin] at hlocation
  rw [← Option.some.inj hlocation, Location.top_afterText]
  rfl

theorem finding_points_at_second_line :
    ∃ source : Source, source.chars = "é\n\x7b [\n weak a] in b \x7d".toList ∧
      ∃ violation ∈ (check .warning (.ofSource source) ⟨⟨3, 19⟩, none⟩).value,
        source.substring? ⟨violation.offset, violation.reference.toList.length⟩ = some ['a'] ∧
          source.location? violation.offset = some ⟨3, 7⟩ := by
  refine ⟨⟨none, "é\n\x7b [\n weak a] in b \x7d".toList⟩, rfl, ?_⟩
  have hvalue : (check .warning (.ofSource ⟨none, "é\n\x7b [\n weak a] in b \x7d".toList⟩)
      ⟨⟨3, 19⟩, none⟩).value =
        [⟨identifier, "a", none, 12, ⟨3, 7⟩, .warning, message "a"⟩] := by decide +kernel
  have hmem := hvalue ▸ List.mem_singleton_self _
  obtain ⟨-, -, -, -, -, -, -, -, -, -, -, -, hspelled, -, hlocation, -⟩ :=
    finding_points_at_name hmem
  exact ⟨_, hmem, hspelled, hlocation⟩

end CaptureLint.UnusedCapture
