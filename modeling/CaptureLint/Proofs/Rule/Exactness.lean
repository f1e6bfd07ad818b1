import CaptureLint.Proofs.Capture.Grammar
import CaptureLint.Proofs.Token.Query
import CaptureLint.Rule.UnusedCapture

/-!
# What the rule on unused captures finds

For every source and every closure, whether or not a structure holds it, the findings are determined
by two ranges of the closure and by the tokens of its body.  A closure is skipped only when one of
the two ranges does not fit the source; the conversions after that cannot fail, because a capture
list ends inside its window and the window ends inside the closure.
-/

namespace CaptureLint.Closure

variable {source : Source} {closure : Closure} {whole window : CharRange}

/-- The bytes in which a capture list of the closure can stand: from its start to the first
expression inside it or, if there is none, to its end. -/
def windowBytes (closure : Closure) : ByteRange :=
  .between closure.range.start (closure.firstChild.getD closure.range.stop)

/-- A closure whose two ranges hold whole characters of the source, with the first expression
between its start and its end. -/
structure Fits (source : Source) (closure : Closure) : Prop where
  whole : source.IsWhole closure.range
  window : source.IsWhole closure.windowBytes
  child : ∀ child, closure.firstChild = some child →
    closure.range.start ≤ child ∧ child ≤ closure.range.stop

theorem child_bounds_iff :
    (closure.range.start ≤ closure.firstChild.getD closure.range.stop ∧
      closure.firstChild.getD closure.range.stop ≤ closure.range.stop) ↔
    ∀ child, closure.firstChild = some child →
      closure.range.start ≤ child ∧ child ≤ closure.range.stop := by
  cases closure.firstChild with
  | none => simp [ByteRange.stop]
  | some child => simp

theorem window?_eq_some_iff :
    closure.window? source = some window ↔
      source.toCharRange? closure.windowBytes = some window ∧
        ∀ child, closure.firstChild = some child →
          closure.range.start ≤ child ∧ child ≤ closure.range.stop := by
  rw [← child_bounds_iff, window?, Option.ite_none_right_eq_some, and_comm]
  rfl

/-- A closure fits exactly when both of its ranges convert. -/
theorem fits_iff :
    closure.Fits source ↔ ∃ whole window,
      source.toCharRange? closure.range = some whole ∧ closure.window? source = some window := by
  constructor
  · intro h
    obtain ⟨whole, hwhole⟩ :=
      Option.isSome_iff_exists.mp (Source.toCharRange?_isSome_iff.mpr h.whole)
    obtain ⟨window, hwindow⟩ :=
      Option.isSome_iff_exists.mp (Source.toCharRange?_isSome_iff.mpr h.window)
    exact ⟨whole, window, hwhole, window?_eq_some_iff.mpr ⟨hwindow, h.child⟩⟩
  · rintro ⟨whole, window, hwhole, hwindow⟩
    obtain ⟨hbytes, hchild⟩ := window?_eq_some_iff.mp hwindow
    exact ⟨Source.toCharRange?_isSome_iff.mp (by rw [hwhole]; rfl),
      Source.toCharRange?_isSome_iff.mp (by rw [hbytes]; rfl), hchild⟩

theorem window_bounds (hwhole : source.toCharRange? closure.range = some whole)
    (hwindow : closure.window? source = some window) :
    window.start = whole.start ∧ window.stop ≤ whole.stop := by
  obtain ⟨hbytes, hchild⟩ := window?_eq_some_iff.mp hwindow
  obtain ⟨hstart, hstop⟩ := Source.toCharRange?_eq_some_iff.mp hwhole
  obtain ⟨hwindowStart, hwindowStop⟩ := Source.toCharRange?_eq_some_iff.mp hbytes
  have hbounds := child_bounds_iff.mpr hchild
  rw [windowBytes, ByteRange.stop_between hbounds.1] at hwindowStop
  constructor
  · exact Nat.le_antisymm ((Source.byteOfChar?_le_iff hwindowStart hstart).mp (Nat.le_refl _))
      ((Source.byteOfChar?_le_iff hstart hwindowStart).mp (Nat.le_refl _))
  · exact (Source.byteOfChar?_le_iff hwindowStop hstop).mp hbounds.2

end CaptureLint.Closure

namespace CaptureLint.UnusedCapture

open Capture

variable {source : Source} {closure : Closure} {whole window : CharRange} {list : Listing}

theorem listing_bounds (hlist : listing? source window = some list) :
    window.start + 2 ≤ list.range.start ∧ list.range.stop + 1 ≤ window.stop ∧
      list.range.length = list.text.length ∧ source.chars[list.range.stop]? = some ']' := by
  obtain ⟨before, text, rest, first, second, after, hchars, rfl, hspelled, hrange⟩ :=
    listing?_eq_some_iff.mp hlist
  have hlength := congrArg List.length hspelled.split
  simp only [List.length_append, List.length_cons] at hlength
  have hopening : source.chars =
      (before ++ first ++ '\x7b' :: second ++ '[' :: list.text) ++ ']' :: (after ++ rest) := by
    rw [hchars, hspelled.split]
    simp
  have hstop : list.range.stop =
      (before ++ first ++ '\x7b' :: second ++ '[' :: list.text).length := by
    rw [hrange]
    simp only [CharRange.stop, List.length_append, List.length_cons]
    omega
  refine ⟨?_, ?_, by rw [hrange], ?_⟩
  · simp only [hrange]
    omega
  · simp only [hrange, CharRange.stop]
    omega
  · rw [hstop, hopening, List.getElem?_append_right (Nat.le_refl _), Nat.sub_self,
      List.getElem?_cons_zero]

theorem namesIn?_eq_some {tokens : List Token} (hsorted : tokens.Pairwise (·.start < ·.start))
    {body : CharRange} {start stop : Nat}
    (hstart : source.byteOfChar? body.start = some start)
    (hstop : source.byteOfChar? body.stop = some stop) :
    namesIn? source tokens body = some (((tokens.filter fun token =>
      start ≤ token.start && token.start < stop).filter (·.kind.isName)).map (·.text)) := by
  have hle : start ≤ stop := (Source.byteOfChar?_le_iff hstart hstop).mpr (Nat.le_add_right _ _)
  have hbytes : source.toByteRange? body = some (.between start stop) := by
    rw [Source.toByteRange?_eq_some_iff, ByteRange.stop_between hle]
    exact ⟨hstart, hstop⟩
  have hlength : (ByteRange.between start stop).stop ≤ source.byteLength := by
    rw [ByteRange.stop_between hle]
    exact Source.le_byteLength_of_byteOfChar? hstop
  simp only [namesIn?, hbytes, Option.bind_eq_bind, Option.bind_some,
    Source.tokensIn?_eq_filter hsorted hlength, ByteRange.stop_between hle]
  rfl

/-- No name token that starts between two byte offsets spells the name of the entry. -/
def Unused (tokens : List Token) (start stop : Nat) (entry : Capture.Entry) : Prop :=
  ∀ token ∈ tokens, token.kind.isName = true → start ≤ token.start → token.start < stop →
    token.text ≠ entry.name

instance (tokens : List Token) (start stop : Nat) : DecidablePred (Unused tokens start stop) :=
  fun entry => inferInstanceAs (Decidable (∀ token ∈ tokens, token.kind.isName = true →
    start ≤ token.start → token.start < stop → token.text ≠ entry.name))

theorem unused_eq_filter (tokens : List Token) (start stop : Nat) (entries : List Capture.Entry) :
    unused entries (((tokens.filter fun token =>
      start ≤ token.start && token.start < stop).filter (·.kind.isName)).map (·.text)) =
        entries.filter (Unused tokens start stop ·) := by
  unfold unused
  congr 1
  funext entry
  rw [Bool.eq_iff_iff, decide_eq_true_iff, Unused]
  simp only [Bool.not_eq_true', List.contains_eq_mem, decide_eq_false_iff_not, decide_eq_true_eq,
    List.mem_map, List.mem_filter, Bool.and_eq_true, not_exists, not_and]
  constructor
  · intro h token htoken hname hstart hstop
    exact h token ⟨⟨htoken, hstart, hstop⟩, hname⟩
  · rintro h token ⟨⟨htoken, hstart, hstop⟩, hname⟩
    exact h token htoken hname hstart hstop

/-! ## Findings -/

variable (severity : Severity)

theorem violations?_of_no_listing (hwhole : source.toCharRange? closure.range = some whole)
    (hwindow : closure.window? source = some window) (hlist : listing? source window = none) :
    violations? severity (.ofSource source) closure = some [] := by
  simp [violations?, Program.ofSource, hwhole, hwindow, hlist]

/-- Once both ranges convert and a capture list is found, the body can be read and the findings are
the entries that it does not use. -/
theorem violations?_of_listing (hwhole : source.toCharRange? closure.range = some whole)
    (hwindow : closure.window? source = some window) (hlist : listing? source window = some list) :
    ∃ bodyStart, source.byteOfChar? (list.range.stop + 1) = some bodyStart ∧
      violations? severity (.ofSource source) closure =
        some (((entries list.text).filter
          (Unused source.tokens bodyStart closure.range.stop ·)).map
            (violation severity source list.range.start)) := by
  obtain ⟨-, hwholeStop⟩ := Source.toCharRange?_eq_some_iff.mp hwhole
  have hin : list.range.stop + 1 ≤ whole.stop :=
    Nat.le_trans (listing_bounds hlist).2.1 (Closure.window_bounds hwhole hwindow).2
  have hlength : whole.stop ≤ source.charLength := (Source.byteOfChar?_eq_some_iff.mp hwholeStop).1
  have hbody : bodyRange? whole list.range =
      some (.between (list.range.stop + 1) whole.stop) := if_pos hin
  obtain ⟨bodyStart, hbodyStart⟩ : ∃ byte, source.byteOfChar? (list.range.stop + 1) = some byte :=
    ⟨_, if_pos (Nat.le_trans hin hlength)⟩
  have hbodyStop : source.byteOfChar? (CharRange.between (list.range.stop + 1) whole.stop).stop =
      some closure.range.stop := by
    rw [CharRange.stop_between hin]
    exact hwholeStop
  have hnames := namesIn?_eq_some (Source.ordered_tokens source).starts hbodyStart hbodyStop
  refine ⟨bodyStart, hbodyStart, ?_⟩
  simp only [violations?, Program.ofSource, hwhole, hwindow, hlist, Option.bind_eq_bind,
    Option.bind_some]
  cases hentries : entries list.text with
  | nil => rfl
  | cons entry rest =>
      simp only [hbody, hnames, Option.bind_some, unused_eq_filter]

theorem violations?_eq_none_iff :
    violations? severity (.ofSource source) closure = none ↔ ¬ closure.Fits source := by
  rw [Closure.fits_iff]
  constructor
  · rintro hnone ⟨whole, window, hwhole, hwindow⟩
    cases hlist : listing? source window with
    | none => simp [violations?_of_no_listing severity hwhole hwindow hlist] at hnone
    | some list =>
        obtain ⟨bodyStart, -, hsome⟩ := violations?_of_listing severity hwhole hwindow hlist
        simp [hsome] at hnone
  · intro hunfit
    cases hwhole : source.toCharRange? closure.range with
    | none => simp [violations?, Program.ofSource, hwhole]
    | some whole =>
        cases hwindow : closure.window? source with
        | none => simp [violations?, Program.ofSource, hwhole, hwindow]
        | some window => exact absurd ⟨whole, window, hwhole, hwindow⟩ hunfit

end CaptureLint.UnusedCapture
