import CaptureLint.Source.Basic

/-!
# Bytes and characters of an excerpt

An excerpt is a piece of a source text with the text before it.  The conversions of a source are
determined by its excerpts: a byte range converts exactly when it is the range of an excerpt, and
the excerpt then gives the range of characters and the substring.
-/

namespace CaptureLint.Source

/-! ## Prefixes of a text -/

theorem bytesOf_take_lt {text : List Char} {first second : Nat} (hlt : first < second)
    (hle : second ≤ text.length) : bytesOf (text.take first) < bytesOf (text.take second) := by
  have hsplit : text.take second = text.take first ++ (text.take second).drop first := by
    conv => lhs; rw [← List.take_append_drop first (text.take second)]
    rw [List.take_take, Nat.min_eq_left (Nat.le_of_lt hlt)]
  have hne : (text.take second).drop first ≠ [] := by
    intro hnil
    have hlen := congrArg List.length hnil
    simp only [List.length_drop, List.length_take, List.length_nil] at hlen
    omega
  have hpos := bytesOf_pos hne
  rw [hsplit, bytesOf_append]
  omega

/-- Prefixes of one text are ordered alike by their bytes and by their characters. -/
theorem bytesOf_take_le_iff {text : List Char} {first second : Nat} (hf : first ≤ text.length)
    (hs : second ≤ text.length) :
    bytesOf (text.take first) ≤ bytesOf (text.take second) ↔ first ≤ second := by
  rcases Nat.lt_trichotomy first second with hlt | rfl | hgt
  · have := bytesOf_take_lt hlt hs
    omega
  · simp
  · have := bytesOf_take_lt hgt hf
    omega

/-- The characters before a byte offset are those of the prefix that ends there. -/
theorem charsBefore?_eq_some_iff {text : List Char} {byte count : Nat} :
    charsBefore? text byte = some count ↔
      count ≤ text.length ∧ bytesOf (text.take count) = byte := by
  constructor
  · intro h
    induction text generalizing byte count with
    | nil =>
        cases byte with
        | zero => simp_all [charsBefore?]
        | succ byte => simp [charsBefore?] at h
    | cons c text ih =>
        cases byte with
        | zero =>
            obtain rfl : 0 = count := by simpa [charsBefore?] using h
            simp
        | succ byte =>
            simp only [charsBefore?] at h
            split at h
            · obtain ⟨rest, hrest, rfl⟩ := Option.map_eq_some_iff.mp h
              obtain ⟨hle, hbytes⟩ := ih hrest
              simp only [List.length_cons, List.take_succ_cons, bytesOf_cons]
              omega
            · simp at h
  · rintro ⟨hle, rfl⟩
    have happ := charsBefore?_append (text.take count) (text.drop count) 0
    simpa [charsBefore?, Nat.min_eq_left hle] using happ

/-! ## Offsets and ranges -/

variable {source : Source} {before text after : List Char}

theorem byteOfChar?_eq_some_iff {offset byte : Nat} :
    source.byteOfChar? offset = some byte ↔
      offset ≤ source.charLength ∧ bytesOf (source.chars.take offset) = byte := by
  simp [byteOfChar?]

/-- The two conversions of offsets undo each other. -/
theorem charOfByte?_eq_some_iff {byte offset : Nat} :
    source.charOfByte? byte = some offset ↔ source.byteOfChar? offset = some byte := by
  rw [charOfByte?, charsBefore?_eq_some_iff, byteOfChar?_eq_some_iff, charLength]

theorem byteOfChar?_isSome_iff {offset : Nat} :
    (source.byteOfChar? offset).isSome ↔ offset ≤ source.charLength := by
  simp [byteOfChar?]

theorem byteOfChar?_le_iff {first second firstByte secondByte : Nat}
    (hf : source.byteOfChar? first = some firstByte)
    (hs : source.byteOfChar? second = some secondByte) :
    firstByte ≤ secondByte ↔ first ≤ second := by
  obtain ⟨hfirst, rfl⟩ := byteOfChar?_eq_some_iff.mp hf
  obtain ⟨hsecond, rfl⟩ := byteOfChar?_eq_some_iff.mp hs
  exact bytesOf_take_le_iff hfirst hsecond

theorem byteOfChar?_charLength : source.byteOfChar? source.charLength = some source.byteLength := by
  simp [byteOfChar?, charLength, byteLength]

theorem le_byteLength_of_byteOfChar? {offset byte : Nat}
    (h : source.byteOfChar? offset = some byte) : byte ≤ source.byteLength :=
  (byteOfChar?_le_iff h byteOfChar?_charLength).mpr (byteOfChar?_eq_some_iff.mp h).1

/-- A byte range converts to the characters between the offsets of its two ends. -/
theorem toCharRange?_eq_some_iff {range : ByteRange} {found : CharRange} :
    source.toCharRange? range = some found ↔
      source.byteOfChar? found.start = some range.start ∧
        source.byteOfChar? found.stop = some range.stop := by
  simp only [toCharRange?, Option.bind_eq_bind, Option.bind_eq_some_iff, Option.some.injEq,
    charOfByte?_eq_some_iff]
  constructor
  · rintro ⟨start, hstart, stop, hstop, rfl⟩
    have hle : start ≤ stop := (byteOfChar?_le_iff hstart hstop).mp (Nat.le_add_right _ _)
    rw [CharRange.stop_between hle]
    exact ⟨hstart, hstop⟩
  · rintro ⟨hstart, hstop⟩
    refine ⟨found.start, hstart, found.stop, hstop, ?_⟩
    simp [CharRange.between, CharRange.stop]

theorem toByteRange?_eq_some_iff {range : CharRange} {found : ByteRange} :
    source.toByteRange? range = some found ↔
      source.byteOfChar? range.start = some found.start ∧
        source.byteOfChar? range.stop = some found.stop := by
  simp only [toByteRange?, Option.bind_eq_bind, Option.bind_eq_some_iff, Option.some.injEq]
  constructor
  · rintro ⟨start, hstart, stop, hstop, rfl⟩
    have hle : start ≤ stop := (byteOfChar?_le_iff hstart hstop).mpr (Nat.le_add_right _ _)
    rw [ByteRange.stop_between hle]
    exact ⟨hstart, hstop⟩
  · rintro ⟨hstart, hstop⟩
    refine ⟨found.start, hstart, found.stop, hstop, ?_⟩
    simp [ByteRange.between, ByteRange.stop]

theorem toByteRange?_isSome_iff {range : CharRange} :
    (source.toByteRange? range).isSome ↔ range.stop ≤ source.charLength := by
  constructor
  · intro h
    obtain ⟨found, hfound⟩ := Option.isSome_iff_exists.mp h
    exact (byteOfChar?_eq_some_iff.mp (toByteRange?_eq_some_iff.mp hfound).2).1
  · intro h
    have hstart : range.start ≤ source.charLength := Nat.le_trans (Nat.le_add_right _ _) h
    simp [toByteRange?, byteOfChar?, if_pos h, if_pos hstart]

theorem toByteRange?_eq_some_iff_toCharRange? {bytes : ByteRange} {chars : CharRange} :
    source.toByteRange? chars = some bytes ↔ source.toCharRange? bytes = some chars := by
  rw [toByteRange?_eq_some_iff, toCharRange?_eq_some_iff]

/-! ## Excerpts -/

/-- A byte range that holds whole characters of the source, none of them cut. -/
def IsWhole (source : Source) (range : ByteRange) : Prop :=
  ∃ before text after, source.chars = before ++ text ++ after ∧
    range = ⟨bytesOf before, bytesOf text⟩

theorem byteOfChar?_of_excerpt (h : source.chars = before ++ after) :
    source.byteOfChar? before.length = some (bytesOf before) := by
  simp [byteOfChar?, charLength, h]

theorem toCharRange?_of_excerpt (h : source.chars = before ++ text ++ after) :
    source.toCharRange? ⟨bytesOf before, bytesOf text⟩ = some ⟨before.length, text.length⟩ := by
  have hstart := byteOfChar?_of_excerpt (h.trans (List.append_assoc before text after))
  have hstop := byteOfChar?_of_excerpt h
  rw [List.length_append, bytesOf_append] at hstop
  exact toCharRange?_eq_some_iff.mpr ⟨hstart, hstop⟩

theorem substring?_of_excerpt (h : source.chars = before ++ text ++ after) :
    source.substring? ⟨before.length, text.length⟩ = some text := by
  simp [substring?, CharRange.stop, charLength, h]

theorem substringOfBytes?_of_excerpt (h : source.chars = before ++ text ++ after) :
    source.substringOfBytes? ⟨bytesOf before, bytesOf text⟩ = some text := by
  simp [substringOfBytes?, toCharRange?_of_excerpt h, substring?_of_excerpt h]

theorem charOfByte?_eq_some_iff_excerpt {byte offset : Nat} :
    source.charOfByte? byte = some offset ↔
      ∃ before after, source.chars = before ++ after ∧ byte = bytesOf before ∧
        offset = before.length := by
  constructor
  · intro h
    obtain ⟨hle, hbytes⟩ := charsBefore?_eq_some_iff.mp h
    refine ⟨source.chars.take offset, source.chars.drop offset,
      (List.take_append_drop offset source.chars).symm, hbytes.symm, ?_⟩
    rw [List.length_take, Nat.min_eq_left hle]
  · rintro ⟨before, after, hchars, rfl, rfl⟩
    exact charOfByte?_eq_some_iff.mpr (byteOfChar?_of_excerpt hchars)

theorem exists_excerpt_of_toCharRange? {range : ByteRange} {found : CharRange}
    (h : source.toCharRange? range = some found) :
    ∃ before text after, source.chars = before ++ text ++ after ∧
      range = ⟨bytesOf before, bytesOf text⟩ ∧ found = ⟨before.length, text.length⟩ := by
  obtain ⟨hstart, hstop⟩ := toCharRange?_eq_some_iff.mp h
  obtain ⟨hsl, hsb⟩ := byteOfChar?_eq_some_iff.mp hstart
  obtain ⟨htl, htb⟩ := byteOfChar?_eq_some_iff.mp hstop
  obtain ⟨start, length⟩ := found
  simp only [charLength, CharRange.stop] at hsl htl hsb htb
  have hsplit : source.chars.take (start + length) =
      source.chars.take start ++ (source.chars.drop start).take length := List.take_add
  refine ⟨source.chars.take start, (source.chars.drop start).take length,
    source.chars.drop (start + length), ?_, ?_, ?_⟩
  · rw [← hsplit, List.take_append_drop]
  · rw [hsplit, bytesOf_append, hsb] at htb
    obtain ⟨first, bytes⟩ := range
    simp only [ByteRange.stop] at htb hsb ⊢
    rw [hsb, ByteRange.mk.injEq]
    exact ⟨rfl, by omega⟩
  · simp only [CharRange.mk.injEq, List.length_take, List.length_drop]
    omega

theorem toCharRange?_isSome_iff {range : ByteRange} :
    (source.toCharRange? range).isSome ↔ source.IsWhole range := by
  constructor
  · intro h
    obtain ⟨found, hfound⟩ := Option.isSome_iff_exists.mp h
    obtain ⟨before, text, after, hchars, hrange, -⟩ := exists_excerpt_of_toCharRange? hfound
    exact ⟨before, text, after, hchars, hrange⟩
  · rintro ⟨before, text, after, hchars, rfl⟩
    rw [toCharRange?_of_excerpt hchars]
    rfl

theorem excerpt_unique {first firstRest second secondRest : List Char}
    (hf : source.chars = first ++ firstRest) (hs : source.chars = second ++ secondRest)
    (hbytes : bytesOf first = bytesOf second) : first = second ∧ firstRest = secondRest := by
  have hlength : first.length = second.length := by
    have hfirst := charOfByte?_eq_some_iff.mpr (byteOfChar?_of_excerpt hf)
    rw [hbytes, charOfByte?_eq_some_iff.mpr (byteOfChar?_of_excerpt hs)] at hfirst
    exact (Option.some.inj hfirst).symm
  exact List.append_inj (hf.symm.trans hs) hlength

theorem excerpt_of_le {first firstRest second secondRest : List Char}
    (hf : source.chars = first ++ firstRest) (hs : source.chars = second ++ secondRest)
    (hbytes : bytesOf first ≤ bytesOf second) :
    ∃ middle, second = first ++ middle ∧ firstRest = middle ++ secondRest := by
  rcases List.append_eq_append_iff.mp (hf.symm.trans hs) with ⟨middle, hsecond, hrest⟩ |
      ⟨middle, hfirst, hrest⟩
  · exact ⟨middle, hsecond, hrest⟩
  · -- the longer one has no more bytes, so it is not longer
    obtain rfl : middle = [] := by
      refine Classical.byContradiction fun hne => ?_
      have hpos := bytesOf_pos hne
      rw [hfirst, bytesOf_append] at hbytes
      omega
    exact ⟨[], by simpa using hfirst.symm, by simpa using hrest.symm⟩

def IsBoundary (source : Source) (byte : Nat) : Prop :=
  ∃ before after, source.chars = before ++ after ∧ byte = bytesOf before

theorem isWhole_between {start stop : Nat} (hstart : source.IsBoundary start)
    (hstop : source.IsBoundary stop) (hle : start ≤ stop) :
    source.IsWhole (.between start stop) := by
  obtain ⟨first, firstRest, hfirst, rfl⟩ := hstart
  obtain ⟨second, secondRest, hsecond, rfl⟩ := hstop
  obtain ⟨middle, rfl, rfl⟩ := excerpt_of_le hfirst hsecond hle
  refine ⟨first, middle, secondRest, by rw [hfirst, List.append_assoc], ?_⟩
  rw [ByteRange.between, bytesOf_append, Nat.add_sub_cancel_left]

theorem isWhole_iff {range : ByteRange} :
    source.IsWhole range ↔ source.IsBoundary range.start ∧ source.IsBoundary range.stop := by
  constructor
  · rintro ⟨before, text, after, hchars, rfl⟩
    refine ⟨⟨before, text ++ after, by rw [hchars, List.append_assoc], rfl⟩, ?_⟩
    exact ⟨before ++ text, after, hchars, (bytesOf_append before text).symm⟩
  · rintro ⟨hstart, hstop⟩
    have hwhole := isWhole_between hstart hstop (Nat.le_add_right _ _)
    simpa [ByteRange.between, ByteRange.stop] using hwhole

theorem exists_excerpt_of_substring? {range : CharRange} {found : List Char}
    (h : source.substring? range = some found) :
    ∃ before after, source.chars = before ++ found ++ after ∧
      range = ⟨before.length, found.length⟩ := by
  unfold substring? at h
  split at h
  · rename_i hle
    cases h
    simp only [CharRange.stop, charLength] at hle
    refine ⟨source.chars.take range.start,
      source.chars.drop (range.start + range.length), ?_, ?_⟩
    · rw [List.append_assoc, ← List.drop_drop, List.take_append_drop, List.take_append_drop]
    · simp only [List.length_take, List.length_drop]
      obtain ⟨start, length⟩ := range
      simp only [CharRange.mk.injEq] at hle ⊢
      omega
  · simp at h

theorem substringOfBytes?_eq_some_iff {range : ByteRange} :
    source.substringOfBytes? range = some text ↔
      ∃ before after, source.chars = before ++ text ++ after ∧
        range = ⟨bytesOf before, bytesOf text⟩ := by
  constructor
  · intro h
    obtain ⟨found, hrange, htext⟩ := Option.bind_eq_some_iff.mp h
    obtain ⟨before, own, after, hchars, rfl, rfl⟩ := exists_excerpt_of_toCharRange? hrange
    rw [substring?_of_excerpt hchars] at htext
    obtain rfl : own = text := Option.some.inj htext
    exact ⟨before, after, hchars, rfl⟩
  · rintro ⟨before, after, hchars, rfl⟩
    exact substringOfBytes?_of_excerpt hchars

theorem substring?_eq_bind (source : Source) (range : CharRange) :
    source.substring? range = (source.toByteRange? range).bind source.substringOfBytes? := by
  by_cases hrange : range.stop ≤ source.charLength
  · obtain ⟨before, after, hchars, hwhole⟩ := exists_excerpt_of_substring? (if_pos hrange)
    have hbytes := toByteRange?_eq_some_iff_toCharRange?.mpr (toCharRange?_of_excerpt hchars)
    rw [← hwhole] at hbytes
    rw [hbytes, Option.bind_some, substringOfBytes?_of_excerpt hchars]
    exact if_pos hrange
  · have hnone : source.toByteRange? range = none := by
      rw [← Option.not_isSome_iff_eq_none, toByteRange?_isSome_iff]
      exact hrange
    rw [hnone, Option.bind_none]
    exact if_neg hrange

end CaptureLint.Source
