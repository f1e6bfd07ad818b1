import CaptureLint.Proofs.Capture.Entries
import CaptureLint.Proofs.Rule.Exactness
import CaptureLint.Proofs.Structure.Nesting

/-!
# The windows of a structure

The closures of a structure start and end with tokens, and so do the expressions inside them.  Their
ranges and their windows therefore hold whole characters, and since a window ends where the first
expression starts, the window of a closure that is visited later stands after it.
-/

namespace CaptureLint.Closure

open Node

variable {source : Source} {node : Node} {closure : Closure}

theorem ofNode?_eq_some_iff :
    ofNode? node = some closure ↔
      node.kind = .closure ∧ closure = ⟨node.range, node.children.head?.map Node.start⟩ := by
  rw [ofNode?, Option.ite_none_right_eq_some, Option.some.injEq]
  exact and_congr_right fun _ => eq_comm

/-- The window of a closure of a structure is its head. -/
theorem windowBytes_of_node (h : ofNode? node = some closure) :
    closure.windowBytes = .between node.start node.headStop := by
  obtain ⟨-, rfl⟩ := ofNode?_eq_some_iff.mp h
  rfl

theorem isBoundary_of_mem_structureOf
    (h : node ∈ forestPreorder (source.structureOf source.tokens)) :
    source.IsBoundary node.start ∧ source.IsBoundary node.stop := by
  obtain ⟨-, ⟨first, hfirst, hstart⟩, ⟨last, hlast, hstop⟩⟩ :=
    Structure.nested_of_mem_ofTokens _ source.ordered_tokens h
  rw [← hstart, ← hstop]
  exact ⟨(Source.isBoundary_of_mem_tokens (List.mem_filter.mp hfirst).1).1,
    (Source.isBoundary_of_mem_tokens (List.mem_filter.mp hlast).1).2⟩

theorem isBoundary_headStop (h : node ∈ forestPreorder (source.structureOf source.tokens)) :
    source.IsBoundary node.headStop := by
  unfold headStop
  cases hchildren : node.children with
  | nil => exact (isBoundary_of_mem_structureOf h).2
  | cons child children =>
      have hchild : child ∈ node.children := by rw [hchildren]; exact List.mem_cons_self
      exact (isBoundary_of_mem_structureOf (forestPreorder_of_child hchild _ h)).1

theorem fits_of_mem_structureOf (h : node ∈ forestPreorder (source.structureOf source.tokens))
    (hclosure : ofNode? node = some closure) : closure.Fits source := by
  have hnested := (Structure.nested_of_mem_ofTokens _ source.ordered_tokens h).1
  obtain ⟨hstart, hstop⟩ := isBoundary_of_mem_structureOf h
  refine ⟨?_, ?_, ?_⟩
  · have hwhole := Source.isWhole_between hstart hstop node.start_le_stop
    obtain ⟨-, rfl⟩ := ofNode?_eq_some_iff.mp hclosure
    have hrange : ByteRange.between node.start node.stop = node.range := by
      simp [ByteRange.between, Node.start, Node.stop, ByteRange.stop]
    rwa [hrange] at hwhole
  · rw [windowBytes_of_node hclosure]
    exact Source.isWhole_between hstart (isBoundary_headStop h) (start_le_headStop hnested)
  · obtain ⟨-, rfl⟩ := ofNode?_eq_some_iff.mp hclosure
    intro first hfirst
    obtain ⟨child, hchild, rfl⟩ := Option.map_eq_some_iff.mp hfirst
    have hwithin := hnested.within child (List.mem_of_head? hchild)
    exact ⟨hwithin.1, Nat.le_trans child.start_le_stop hwithin.2.1⟩

theorem windows_apart {first second : Node} {before after : Closure}
    (hprecedes : first.Precedes second) (hnested : first.Nested)
    (hfirst : ofNode? first = some before) (hsecond : ofNode? second = some after)
    {window later : CharRange} (hwindow : before.window? source = some window)
    (hlater : after.window? source = some later) : window.stop ≤ later.start := by
  have hbytes := (window?_eq_some_iff.mp hwindow).1
  have hbytes' := (window?_eq_some_iff.mp hlater).1
  rw [windowBytes_of_node hfirst, Source.toCharRange?_eq_some_iff,
    ByteRange.stop_between (start_le_headStop hnested)] at hbytes
  rw [windowBytes_of_node hsecond, Source.toCharRange?_eq_some_iff] at hbytes'
  exact (Source.byteOfChar?_le_iff hbytes.2 hbytes'.1).mp hprecedes.1

end CaptureLint.Closure

/-! ## Findings in their window -/

namespace CaptureLint.UnusedCapture

open Capture

variable {severity : Severity} {source : Source} {closure : Closure} {violation : Violation}

theorem check_value (severity : Severity) (source : Source) (closure : Closure) :
    (check severity (.ofSource source) closure).value = [] ∨
      ∃ window list kept, closure.window? source = some window ∧
        listing? source window = some list ∧ List.Sublist kept (entries list.text) ∧
        (check severity (.ofSource source) closure).value =
          kept.map (UnusedCapture.violation severity source list.range.start) := by
  by_cases hfits : closure.Fits source
  · obtain ⟨whole, window, hwhole, hwindow⟩ := Closure.fits_iff.mp hfits
    cases hlist : listing? source window with
    | none =>
        rw [check, violations?_of_no_listing severity hwhole hwindow hlist]
        exact .inl rfl
    | some list =>
        obtain ⟨bodyStart, -, hfound⟩ := violations?_of_listing severity hwhole hwindow hlist
        rw [check, hfound]
        exact .inr ⟨window, list, _, hwindow, hlist, List.filter_sublist, rfl⟩
  · rw [check, (violations?_eq_none_iff severity).mpr hfits]
    exact .inl rfl

theorem offset_bounds_of_mem_check
    (h : violation ∈ (check severity (.ofSource source) closure).value) :
    ∃ window, closure.window? source = some window ∧ window.start ≤ violation.offset ∧
      violation.offset < window.stop := by
  rcases check_value severity source closure with
    hnone | ⟨window, list, kept, hwindow, hlist, hkept, hvalue⟩
  · rw [hnone] at h
    cases h
  · rw [hvalue] at h
    obtain ⟨entry, hentry, rfl⟩ := List.mem_map.mp h
    have hlt := nameOffset_lt_length (hkept.subset hentry)
    obtain ⟨hstart, hstop, hlength, -⟩ := listing_bounds hlist
    refine ⟨window, hwindow, ?_, ?_⟩
    · show window.start ≤ list.range.start + entry.nameOffsetInList
      omega
    · show list.range.start + entry.nameOffsetInList < window.stop
      simp only [CharRange.stop] at hstop ⊢
      omega

theorem increasing_check (severity : Severity) (source : Source) (closure : Closure) :
    (check severity (.ofSource source) closure).value.Pairwise fun first second =>
      first.offset < second.offset := by
  rcases check_value severity source closure with hnone | ⟨window, list, kept, -, -, hkept, hvalue⟩
  · rw [hnone]
    exact .nil
  · rw [hvalue, List.pairwise_map]
    refine ((increasing_entries list.text).sublist hkept).imp ?_
    intro first second hlt
    show list.range.start + _ < list.range.start + _
    omega

end CaptureLint.UnusedCapture
