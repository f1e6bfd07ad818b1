import CaptureLint.Proofs.Lint.Names
import CaptureLint.Proofs.Source.Tables

/-!
# Where findings and directives stand

A finding is placed by the character it starts with, and a directive by the byte its comment starts
with.  Both ways to number lines agree, so a directive and a finding on one line of the text have one
line number.  Main statement: what a location says of an offset, and whose locations are reported.
-/

namespace CaptureLint.Source

variable {source : Source}

theorem lineOfByte_of_location? {offset byte : Nat} {place : Location}
    (hplace : source.location? offset = some place) (hbyte : source.byteOfChar? offset = some byte) :
    source.lineOfByte byte = place.line := by
  obtain ⟨-, rfl⟩ := location?_eq_some_iff.mp hplace
  obtain ⟨-, rfl⟩ := byteOfChar?_eq_some_iff.mp hbyte
  rw [lineOfByte_of_excerpt (List.take_append_drop offset source.chars).symm,
    Location.line_afterText]
  rfl

theorem exists_byte_of_location? {offset : Nat} {place : Location}
    (h : source.location? offset = some place) :
    ∃ byte, source.byteOfChar? offset = some byte ∧ source.lineOfByte byte = place.line := by
  have hle := (location?_eq_some_iff.mp h).1
  obtain ⟨byte, hbyte⟩ := Option.isSome_iff_exists.mp (byteOfChar?_isSome_iff.mpr hle)
  exact ⟨byte, hbyte, lineOfByte_of_location? h hbyte⟩

theorem exists_location_of_mem_tokens {token : Token} (h : token ∈ source.tokens) :
    ∃ offset place, source.byteOfChar? offset = some token.start ∧
      source.location? offset = some place ∧ place.line = source.lineOfByte token.start := by
  obtain ⟨before, after, hchars, hstart⟩ := (isBoundary_of_mem_tokens h).1
  have hbyte := byteOfChar?_of_excerpt hchars
  have hplace := location?_of_excerpt hchars
  rw [← hstart] at hbyte
  exact ⟨before.length, _, hbyte, hplace, (lineOfByte_of_location? hplace hbyte).symm⟩

end CaptureLint.Source

namespace CaptureLint.Suppression

theorem mem_directives_iff {source : Source} {tokens : List Token} {line : Nat}
    {directive : Directive} : (line, directive) ∈ directives source tokens ↔
      ∃ token ∈ tokens, token.kind = .comment ∧ Directive.ofComment? token.text = some directive ∧
        source.lineOfByte token.start = line := by
  simp only [directives, List.mem_filterMap, Option.bind_eq_bind, Option.ite_none_right_eq_some,
    Option.bind_eq_some_iff, Option.some.injEq, Prod.mk.injEq]
  refine exists_congr fun token => and_congr_right fun _ => and_congr_right fun _ => ?_
  constructor
  · rintro ⟨found, hfound, hline, rfl⟩
    exact ⟨hfound, hline⟩
  · rintro ⟨hfound, hline⟩
    exact ⟨directive, hfound, hline, rfl⟩

end CaptureLint.Suppression

namespace CaptureLint.Lint

open Suppression

/-- A finding has the location of its offset; no other stands in for it. -/
theorem location?_of_mem_source {rules : List Rule} {source : Source} {violation : Violation}
    (h : violation ∈ (Lint.source rules source).value) :
    source.location? violation.offset = some violation.location := by
  obtain ⟨closure, severity, hcheck⟩ := mem_check_of_mem_source h
  rcases UnusedCapture.check_value severity source closure with
    hnone | ⟨window, list, kept, -, hlist, hkept, hvalue⟩
  · rw [hnone] at hcheck
    cases hcheck
  rw [hvalue] at hcheck
  obtain ⟨entry, hentry, rfl⟩ := List.mem_map.mp hcheck
  obtain ⟨left, right, hchars, hoffset, -⟩ :=
    Capture.excerpt_of_mem_listing hlist (hkept.subset hentry)
  show source.location? (list.range.start + entry.nameOffsetInList) =
    some ((source.location? (list.range.start + entry.nameOffsetInList)).getD .top)
  rw [hoffset, Source.location?_of_excerpt hchars, Option.getD_some]

/-- A character offset has a location exactly when it does not pass the end.  The location counts the
newlines before the offset and the characters behind the last of them, is on the line of the byte at
the offset, and comes earlier in reading order the smaller the offset is.  Directives are on the line
of the location where their comment starts, and findings on that of the location of their offset.
What locations and lines say is what the tables of character starts and line starts say, searched by
halving. -/
theorem locations_exact (source : Source) :
    (∀ offset, (source.location? offset).isSome ↔ offset ≤ source.charLength) ∧
    (∀ offset place, source.location? offset = some place →
      place.line = 1 + (source.chars.take offset).count '\n' ∧
      (∃ front line, Location.EndsInLine (source.chars.take offset) front line ∧
        place.column = 1 + line.length) ∧
      ∃ byte, source.byteOfChar? offset = some byte ∧ source.lineOfByte byte = place.line) ∧
    (∀ offset later place other, source.location? offset = some place →
      source.location? later = some other →
        (place.Precedes other ↔ offset < later) ∧ (place = other ↔ offset = later)) ∧
    (∀ line directive, (line, directive) ∈ directives source source.tokens ↔
      ∃ token ∈ source.tokens, token.kind = .comment ∧
        Directive.ofComment? token.text = some directive ∧
        ∃ offset place, source.byteOfChar? offset = some token.start ∧
          source.location? offset = some place ∧ place.line = line) ∧
    (∀ rules, ∀ violation ∈ (Lint.source rules source).value,
      source.location? violation.offset = some violation.location ∧
      ∃ byte, source.byteOfChar? violation.offset = some byte ∧
        source.lineOfByte byte = violation.location.line) ∧
    (∀ offset, source.location? offset = source.tabulatedLocation? offset) ∧
    ∀ byte, source.lineOfByte byte =
      Token.partitionPoint (· ≤ byte) source.lineStarts := by
  refine ⟨fun _ => Source.location?_isSome_iff, fun offset place hplace => ?_, ?_,
    fun line directive => ?_, fun rules violation hviolation => ?_,
    source.location?_eq_tabulatedLocation?, source.lineOfByte_eq_partitionPoint⟩
  · obtain ⟨front, line, hline⟩ := Location.exists_endsInLine (source.chars.take offset)
    have htop := (Source.location?_eq_some_iff.mp hplace).2
    rw [hline.top_afterText] at htop
    subst htop
    exact ⟨rfl, ⟨front, line, hline, rfl⟩, Source.exists_byte_of_location? hplace⟩
  · intro offset later place other hplace hother
    have hbefore := Source.precedes_iff hplace hother
    have hbehind := Source.precedes_iff hother hplace
    refine ⟨hbefore, ?_, ?_⟩
    · rintro rfl
      have hnotBefore := mt hbefore.mpr (Location.Precedes.irrefl place)
      have hnotBehind := mt hbehind.mpr (Location.Precedes.irrefl place)
      omega
    · rintro rfl
      exact Option.some.inj (hplace.symm.trans hother)
  · rw [mem_directives_iff]
    refine exists_congr fun token => and_congr_right fun htoken => and_congr_right fun _ =>
      and_congr_right fun _ => ?_
    constructor
    · rintro rfl
      exact Source.exists_location_of_mem_tokens htoken
    · rintro ⟨offset, place, hbyte, hplace, rfl⟩
      exact Source.lineOfByte_of_location? hplace hbyte
  · have hplace := location?_of_mem_source hviolation
    exact ⟨hplace, Source.exists_byte_of_location? hplace⟩

end CaptureLint.Lint
