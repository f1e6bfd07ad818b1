import CaptureLint.Proofs.Source.Conversion
import CaptureLint.Proofs.Text.LastRun

/-!
# Lines of a text

A line number counts the newlines before a place and a column the characters after the last of them.
Text in front moves both by what it holds; text behind changes neither.  Locations are in the order of
their offsets: stepping over a character leads to a later one.
-/

namespace CaptureLint.Location

variable {place other next : Location} {text front line : List Char}

/-! ## Reading order -/

/-- Reading order: by line, and in a line by column. -/
def Precedes (place other : Location) : Prop :=
  place.line < other.line ∨ place.line = other.line ∧ place.column < other.column

theorem Precedes.irrefl (place : Location) : ¬ place.Precedes place := by
  simp [Precedes]

theorem Precedes.trans (hfirst : place.Precedes other) (hsecond : other.Precedes next) :
    place.Precedes next := by
  unfold Precedes at *
  omega

theorem precedes_after (place : Location) (c : Char) : place.Precedes (place.after c) := by
  unfold after
  split
  · exact .inl (Nat.lt_succ_self _)
  · exact .inr ⟨rfl, Nat.lt_succ_self _⟩

theorem precedes_afterText (place : Location) (h : text ≠ []) :
    place.Precedes (place.afterText text) := by
  induction text generalizing place with
  | nil => exact absurd rfl h
  | cons c text ih =>
      show place.Precedes ((place.after c).afterText text)
      cases text with
      | nil => exact precedes_after place c
      | cons d text => exact (precedes_after place c).trans (ih _ (List.cons_ne_nil d text))

/-! ## The last line -/

/-- How a text is written that ends in `line`, behind the lines in `front`. -/
structure EndsInLine (text front line : List Char) : Prop where
  split : text = front ++ line
  front_newline : ∀ c ∈ front.getLast?, c = '\n'
  no_newline : '\n' ∉ line

theorem endsInLine_iff :
    EndsInLine text front line ↔ Text.EndsInRun (· != '\n') text front line := by
  constructor
  · intro h
    refine ⟨h.split, fun c hc => ?_, fun c hc => ?_⟩
    · rw [bne_iff_ne]
      rintro rfl
      exact h.no_newline hc
    · rw [h.front_newline c hc, bne_self_eq_false]
  · intro h
    refine ⟨h.split, fun c hc => ?_, fun hmem => ?_⟩
    · simpa using h.front_stop c hc
    · simpa using h.accepted '\n' hmem

theorem exists_endsInLine (text : List Char) : ∃ front line, EndsInLine text front line :=
  ⟨_, _, endsInLine_iff.mpr (Text.endsInRun _ text)⟩

theorem EndsInLine.count_eq (h : EndsInLine text front line) :
    text.count '\n' = front.count '\n' := by
  rw [h.split, List.count_append, List.count_eq_zero_of_not_mem h.no_newline, Nat.add_zero]

theorem top_afterText (text : List Char) :
    top.afterText text =
      ⟨1 + text.count '\n', 1 + (text.reverse.takeWhile (· != '\n')).length⟩ := by
  rw [← List.reverse_reverse text]
  induction text.reverse with
  | nil => rfl
  | cons c text ih =>
      rw [List.reverse_cons, afterText_append, ih, List.reverse_append, List.reverse_reverse]
      by_cases hc : c = '\n'
      · subst hc
        simp [afterText, after, Nat.add_assoc]
      · simp [afterText, after, hc, Nat.add_assoc]

/-- The column counts the characters of the last line. -/
theorem EndsInLine.top_afterText (h : EndsInLine text front line) :
    top.afterText text = ⟨1 + text.count '\n', 1 + line.length⟩ := by
  rw [Location.top_afterText, (endsInLine_iff.mp h).takeWhile_reverse, List.length_reverse]

end CaptureLint.Location

namespace CaptureLint.Source

variable {source : Source} {before after : List Char}

theorem newlinesBefore_zero (text : List Char) : newlinesBefore text 0 = 0 := by
  cases text with
  | nil => rfl
  | cons c text =>
      have hpos := Char.utf8Size_pos c
      rw [newlinesBefore, if_neg (by omega)]

theorem newlinesBefore_append_right (first second : List Char) (byte : Nat) :
    newlinesBefore (first ++ second) (bytesOf first + byte) =
      first.count '\n' + newlinesBefore second byte := by
  induction first with
  | nil => simp
  | cons c first ih =>
      have hle : c.utf8Size ≤ bytesOf (c :: first) + byte := by
        rw [bytesOf_cons]
        omega
      have hrest : bytesOf (c :: first) + byte - c.utf8Size = bytesOf first + byte := by
        rw [bytesOf_cons]
        omega
      rw [List.cons_append, newlinesBefore, if_pos hle, hrest, ih, List.count_cons]
      by_cases hc : c = '\n' <;> simp [hc]
      omega

theorem newlinesBefore_append_left {first : List Char} {byte : Nat} (second : List Char)
    (hle : byte ≤ bytesOf first) :
    newlinesBefore (first ++ second) byte = newlinesBefore first byte := by
  induction first generalizing byte with
  | nil =>
      obtain rfl : byte = 0 := by simpa using hle
      exact newlinesBefore_zero second
  | cons c first ih =>
      rw [List.cons_append, newlinesBefore, newlinesBefore]
      split
      · rw [ih]
        rw [bytesOf_cons] at hle
        omega
      · rfl

theorem lineOfByte_of_excerpt (h : source.chars = before ++ after) :
    source.lineOfByte (bytesOf before) = 1 + before.count '\n' := by
  have hnewlines := newlinesBefore_append_right before after 0
  rw [newlinesBefore_zero, Nat.add_zero, Nat.add_zero] at hnewlines
  rw [lineOfByte, h, hnewlines]

/-! ## Locations of offsets -/

theorem location?_eq_some_iff {offset : Nat} {place : Location} :
    source.location? offset = some place ↔
      offset ≤ source.charLength ∧ Location.top.afterText (source.chars.take offset) = place := by
  simp [location?]

theorem location?_isSome_iff {offset : Nat} :
    (source.location? offset).isSome ↔ offset ≤ source.charLength := by
  simp [location?]

theorem location?_of_excerpt (h : source.chars = before ++ after) :
    source.location? before.length = some (Location.top.afterText before) := by
  simp [location?, charLength, h]

theorem precedes_of_lt {offset later : Nat} {place other : Location} (hlt : offset < later)
    (hplace : source.location? offset = some place) (hother : source.location? later = some other) :
    place.Precedes other := by
  obtain ⟨-, rfl⟩ := location?_eq_some_iff.mp hplace
  obtain ⟨hle, rfl⟩ := location?_eq_some_iff.mp hother
  obtain ⟨middle, hmiddle⟩ : source.chars.take offset <+: source.chars.take later :=
    List.take_prefix_take_left (Nat.le_of_lt hlt)
  rw [← hmiddle, Location.afterText_append]
  refine Location.precedes_afterText _ fun hnil => ?_
  have hlength := congrArg List.length hmiddle
  rw [hnil, List.append_nil, List.length_take, List.length_take] at hlength
  rw [charLength] at hle
  omega

theorem precedes_iff {offset later : Nat} {place other : Location}
    (hplace : source.location? offset = some place) (hother : source.location? later = some other) :
    place.Precedes other ↔ offset < later := by
  refine ⟨fun hprecedes => ?_, fun hlt => precedes_of_lt hlt hplace hother⟩
  rcases Nat.lt_trichotomy offset later with hlt | rfl | hgt
  · exact hlt
  · rw [Option.some.inj (hplace.symm.trans hother)] at hprecedes
    exact absurd hprecedes (Location.Precedes.irrefl other)
  · exact absurd (hprecedes.trans (precedes_of_lt hgt hother hplace)) (Location.Precedes.irrefl place)

end CaptureLint.Source
