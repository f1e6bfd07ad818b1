import CaptureLint.Proofs.Rule.Window
import CaptureLint.Proofs.Source.Lines
import CaptureLint.Proofs.Structure.Shift

/-!
# The rule on a part of a source

A source may be part of a larger one.  When it starts at the start of a line and has the same tokens
there as on its own, the rule finds the same at its closures, further on.
-/

namespace CaptureLint

def CharRange.shift (distance : Nat) (range : CharRange) : CharRange :=
  ⟨range.start + distance, range.length⟩

def Violation.shift (chars lines : Nat) (violation : Violation) : Violation :=
  { violation with
    offset := violation.offset + chars
    location := ⟨violation.location.line + lines, violation.location.column⟩ }

def Closure.shift (distance : Nat) (closure : Closure) : Closure :=
  ⟨closure.range.shift distance, closure.firstChild.map (· + distance)⟩

theorem CharRange.stop_shift (distance : Nat) (range : CharRange) :
    (range.shift distance).stop = range.stop + distance :=
  Nat.add_right_comm _ _ _

theorem ByteRange.stop_shift (distance : Nat) (range : ByteRange) :
    (range.shift distance).stop = range.stop + distance :=
  Nat.add_right_comm _ _ _

theorem Location.afterText_add_lines (place : Location) (lines : Nat) (text : List Char) :
    (⟨place.line + lines, place.column⟩ : Location).afterText text =
      ⟨(place.afterText text).line + lines, (place.afterText text).column⟩ := by
  induction text generalizing place with
  | nil => rfl
  | cons c text ih =>
      have hafter : (⟨place.line + lines, place.column⟩ : Location).after c =
          ⟨(place.after c).line + lines, (place.after c).column⟩ := by
        by_cases hc : c = '\n' <;> simp [Location.after, hc, Nat.add_right_comm]
      show ((⟨place.line + lines, place.column⟩ : Location).after c).afterText text = _
      rw [hafter, ih]
      rfl

/-- A source that is part of another one, between `before` and `after`. -/
structure Source.PartOf (inner outer : Source) (before after : List Char) : Prop where
  path : outer.path = inner.path
  chars : outer.chars = before ++ inner.chars ++ after
  column : (Location.top.afterText before).column = 1
  kept : ∀ token ∈ inner.tokens, token.shift (Source.bytesOf before) ∈ outer.tokens
  found : ∀ token ∈ outer.tokens, Source.bytesOf before ≤ token.start →
    token.start < inner.byteLength + Source.bytesOf before →
      ∃ own ∈ inner.tokens, token = own.shift (Source.bytesOf before)

namespace Source.PartOf

variable {inner outer : Source} {before after : List Char}

theorem byteOfChar? (h : inner.PartOf outer before after) {offset byte : Nat}
    (hbyte : inner.byteOfChar? offset = some byte) :
    outer.byteOfChar? (offset + before.length) = some (byte + bytesOf before) := by
  obtain ⟨hle, rfl⟩ := byteOfChar?_eq_some_iff.mp hbyte
  have hchars : outer.chars =
      (before ++ inner.chars.take offset) ++ (inner.chars.drop offset ++ after) := by
    rw [h.chars, List.append_assoc, List.append_assoc, ← List.append_assoc (inner.chars.take offset),
      List.take_append_drop]
  have hoffset := byteOfChar?_of_excerpt hchars
  rwa [List.length_append, List.length_take_of_le hle, bytesOf_append, Nat.add_comm,
    Nat.add_comm (bytesOf before)] at hoffset

theorem toCharRange? (h : inner.PartOf outer before after) {range : ByteRange} {found : CharRange}
    (hrange : inner.toCharRange? range = some found) :
    outer.toCharRange? (range.shift (bytesOf before)) = some (found.shift before.length) := by
  obtain ⟨hstart, hstop⟩ := toCharRange?_eq_some_iff.mp hrange
  rw [toCharRange?_eq_some_iff, ByteRange.stop_shift, CharRange.stop_shift]
  exact ⟨h.byteOfChar? hstart, h.byteOfChar? hstop⟩

theorem substring? (h : inner.PartOf outer before after) {range : CharRange} {text : List Char}
    (htext : inner.substring? range = some text) :
    outer.substring? (range.shift before.length) = some text := by
  obtain ⟨left, right, hchars, rfl⟩ := exists_excerpt_of_substring? htext
  have houter : outer.chars = (before ++ left) ++ text ++ (right ++ after) := by
    rw [h.chars, hchars]
    simp
  have hfound := substring?_of_excerpt houter
  rwa [List.length_append, Nat.add_comm] at hfound

theorem location? (h : inner.PartOf outer before after) {offset : Nat} {place : Location}
    (hplace : inner.location? offset = some place) :
    outer.location? (offset + before.length) =
      some ⟨place.line + before.count '\n', place.column⟩ := by
  rw [Source.location?, Option.ite_none_right_eq_some, Option.some.injEq] at hplace
  obtain ⟨hle, rfl⟩ := hplace
  have hlength : offset + before.length ≤ outer.charLength := by
    simp only [charLength, h.chars, List.length_append] at hle ⊢
    omega
  have htake : outer.chars.take (offset + before.length) = before ++ inner.chars.take offset := by
    rw [h.chars, List.append_assoc, Nat.add_comm, List.take_length_add_append,
      List.take_append_of_le_length hle]
  have hbefore : Location.top.afterText before = ⟨1 + before.count '\n', 1⟩ := by
    have hcolumn := h.column
    rw [Location.top_afterText] at hcolumn ⊢
    exact congrArg (Location.mk _) hcolumn
  rw [Source.location?, if_pos hlength, htake, Location.afterText_append, hbefore]
  exact congrArg some (Location.afterText_add_lines .top _ _)

end Source.PartOf

namespace Closure

variable {inner outer : Source} {before after : List Char} {closure : Closure}

theorem windowBytes_shift (distance : Nat) :
    (closure.shift distance).windowBytes = closure.windowBytes.shift distance := by
  unfold windowBytes shift
  rw [ByteRange.stop_shift]
  cases closure.firstChild <;>
    simp [ByteRange.shift, ByteRange.between, Nat.add_sub_add_right]

theorem window?_shift (h : inner.PartOf outer before after) {window : CharRange}
    (hwindow : closure.window? inner = some window) :
    (closure.shift (Source.bytesOf before)).window? outer = some (window.shift before.length) := by
  obtain ⟨hbytes, hchild⟩ := window?_eq_some_iff.mp hwindow
  rw [window?_eq_some_iff, windowBytes_shift]
  refine ⟨h.toCharRange? hbytes, fun child hsome => ?_⟩
  obtain ⟨own, hown, rfl⟩ := Option.map_eq_some_iff.mp hsome
  obtain ⟨hstart, hstop⟩ := hchild own hown
  rw [show (closure.shift (Source.bytesOf before)).range = closure.range.shift _ from rfl,
    ByteRange.stop_shift]
  exact ⟨Nat.add_le_add_right hstart _, Nat.add_le_add_right hstop _⟩

end Closure

namespace UnusedCapture

open Capture

variable {inner outer : Source} {before after : List Char} {closure : Closure}

theorem listing?_shift (h : inner.PartOf outer before after) {window : CharRange}
    (hwindow : window.stop ≤ inner.charLength) :
    listing? outer (window.shift before.length) =
      (listing? inner window).map fun list => ⟨list.text, list.range.shift before.length⟩ := by
  have htext : inner.substring? window = some _ := if_pos hwindow
  simp only [listing?, h.substring? htext, htext, Option.bind_eq_bind, Option.bind_some]
  cases groupOf? ((inner.chars.drop window.start).take window.length) with
  | none => rfl
  | some found => simp [CharRange.shift, Nat.add_right_comm]

/-- The tokens that use a name inside the part are its own. -/
theorem unused_shift (h : inner.PartOf outer before after) {start stop : Nat}
    (hstop : stop ≤ inner.byteLength) (entry : Capture.Entry) :
    Unused outer.tokens (start + Source.bytesOf before) (stop + Source.bytesOf before) entry ↔
      Unused inner.tokens start stop entry := by
  constructor
  · intro hunused token htoken hname hfirst hlast
    exact hunused (token.shift _) (h.kept token htoken) hname (Nat.add_le_add_right hfirst _)
      (Nat.add_lt_add_right hlast _)
  · intro hunused token htoken hname hfirst hlast
    obtain ⟨own, hown, rfl⟩ := h.found token htoken (by omega) (by omega)
    simp only [Token.shift] at hfirst hlast
    exact hunused own hown hname (by omega) (by omega)

theorem violation_shift (h : inner.PartOf outer before after) (severity : Severity)
    {listStart : Nat} {entry : Capture.Entry}
    (hin : listStart + entry.nameOffsetInList ≤ inner.charLength) :
    violation severity outer (listStart + before.length) entry =
      (violation severity inner listStart entry).shift before.length (before.count '\n') := by
  have hplace : inner.location? (listStart + entry.nameOffsetInList) = some _ := if_pos hin
  have hmoved := h.location? hplace
  rw [Nat.add_right_comm] at hmoved
  unfold violation Violation.shift
  simp only [hplace, hmoved, h.path, Option.getD_some, Nat.add_right_comm]

theorem value_check_shift (h : inner.PartOf outer before after) (severity : Severity)
    (hfits : closure.Fits inner) :
    (check severity (.ofSource outer) (closure.shift (Source.bytesOf before))).value =
      (check severity (.ofSource inner) closure).value.map
        (Violation.shift before.length (before.count '\n')) := by
  obtain ⟨whole, window, hwhole, hwindow⟩ := Closure.fits_iff.mp hfits
  have hwhole' := h.toCharRange? hwhole
  have hwindow' := Closure.window?_shift h hwindow
  have hstop : window.stop ≤ inner.charLength :=
    (Source.byteOfChar?_eq_some_iff.mp (Source.toCharRange?_eq_some_iff.mp
      (Closure.window?_eq_some_iff.mp hwindow).1).2).1
  have hlist' := listing?_shift h hstop
  cases hlist : listing? inner window with
  | none =>
      rw [hlist] at hlist'
      rw [check, check, violations?_of_no_listing severity hwhole hwindow hlist,
        violations?_of_no_listing severity hwhole' hwindow' hlist']
      rfl
  | some list =>
      rw [hlist] at hlist'
      obtain ⟨bodyStart, hbody, hfound⟩ := violations?_of_listing severity hwhole hwindow hlist
      obtain ⟨moved, hmoved, hfound'⟩ := violations?_of_listing severity hwhole' hwindow' hlist'
      obtain ⟨-, hlistStop, hlength, -⟩ := listing_bounds hlist
      -- the body starts further on by the bytes in front
      obtain rfl : moved = bodyStart + Source.bytesOf before := by
        have hbody' := h.byteOfChar? hbody
        rw [Nat.add_right_comm, ← CharRange.stop_shift] at hbody'
        exact Option.some.inj (hmoved.symm.trans hbody')
      have hbytes : closure.range.stop ≤ inner.byteLength :=
        Source.le_byteLength_of_byteOfChar? (Source.toCharRange?_eq_some_iff.mp hwhole).2
      have hunused : ∀ entry, Unused outer.tokens (bodyStart + Source.bytesOf before)
          (closure.shift (Source.bytesOf before)).range.stop entry ↔
            Unused inner.tokens bodyStart closure.range.stop entry := by
        intro entry
        rw [show (closure.shift (Source.bytesOf before)).range = closure.range.shift _ from rfl,
          ByteRange.stop_shift]
        exact unused_shift h hbytes entry
      rw [check, check, hfound, hfound']
      simp only [hunused, Logged.value_pure, List.map_map]
      refine List.map_congr_left fun entry hentry => violation_shift h severity ?_
      have hlt := nameOffset_lt_length (List.mem_filter.mp hentry).1
      simp only [CharRange.stop] at hlistStop hstop
      omega

end UnusedCapture

end CaptureLint
