import CaptureLint.Proofs.Source.Lines
import CaptureLint.Proofs.Token.Query

/-!
# Offset tables

Offsets can be tabulated once for a text: where its characters start in bytes, with the end of the
text as a last entry, and where its lines start, found among its bytes.  A character offset is then
looked up, and a byte offset or a line is found by halving.  Main statements: the tables increase, the
answers they give are those of the walks along the text, and the two coordinates convert without loss.
-/

namespace CaptureLint.Source

open Token

variable {source : Source}

/-! ## Search by halving -/

def placeOf? (items : List Nat) (value : Nat) : Option Nat :=
  let place := partitionPoint (· < value) items
  if items[place]? = some value then some place else none

theorem placeOf?_eq_some_iff {items : List Nat} (hitems : items.Pairwise (· < ·))
    {value place : Nat} : placeOf? items value = some place ↔ items[place]? = some value := by
  constructor
  · intro h
    rw [placeOf?, Option.ite_none_right_eq_some, Option.some.injEq] at h
    obtain ⟨hvalue, rfl⟩ := h
    exact hvalue
  · intro h
    obtain ⟨hplace, hvalue⟩ := List.getElem?_eq_some_iff.mp h
    have hsplit : items.take place ++ value :: items.drop (place + 1) = items := by
      rw [← hvalue, List.getElem_cons_drop, List.take_append_drop]
    rw [← hsplit, List.pairwise_append, List.pairwise_cons] at hitems
    obtain ⟨-, ⟨hbehind, -⟩, hfront⟩ := hitems
    have hpoint : partitionPoint (· < value) items = place := by
      rw [← hsplit, partitionPoint_append, List.length_take, Nat.min_eq_left (Nat.le_of_lt hplace)]
      · intro item hitem
        exact decide_eq_true (hfront item hitem value List.mem_cons_self)
      · intro item hitem
        rw [decide_eq_false_iff_not]
        rcases List.mem_cons.mp hitem with rfl | hitem
        · exact Nat.lt_irrefl _
        · have := hbehind item hitem
          omega
    rw [placeOf?, hpoint]
    exact if_pos h

/-! ## Where characters start -/

/-- The byte offsets of the characters of a text that starts at `start`, then that of its end. -/
def charStartsFrom (start : Nat) : List Char → List Nat
  | [] => [start]
  | c :: text => start :: charStartsFrom (start + c.utf8Size) text

def charStarts (source : Source) : List Nat := charStartsFrom 0 source.chars

theorem getElem?_charStartsFrom (start : Nat) (text : List Char) (offset : Nat) :
    (charStartsFrom start text)[offset]? =
      if offset ≤ text.length then some (start + bytesOf (text.take offset)) else none := by
  induction text generalizing start offset with
  | nil => cases offset <;> simp [charStartsFrom]
  | cons c text ih =>
      cases offset with
      | zero => simp [charStartsFrom]
      | succ offset => simp [charStartsFrom, ih, Nat.add_assoc]

theorem le_of_mem_charStartsFrom {start place : Nat} {text : List Char}
    (h : place ∈ charStartsFrom start text) : start ≤ place := by
  obtain ⟨offset, hoffset⟩ := List.mem_iff_getElem?.mp h
  rw [getElem?_charStartsFrom, Option.ite_none_right_eq_some, Option.some.injEq] at hoffset
  omega

theorem increasing_charStartsFrom (start : Nat) (text : List Char) :
    (charStartsFrom start text).Pairwise (· < ·) := by
  induction text generalizing start with
  | nil => exact List.pairwise_singleton _ _
  | cons c text ih =>
      refine List.pairwise_cons.mpr ⟨fun place hplace => ?_, ih _⟩
      have hle := le_of_mem_charStartsFrom hplace
      have hpos := Char.utf8Size_pos c
      omega

theorem increasing_charStarts (source : Source) : source.charStarts.Pairwise (· < ·) :=
  increasing_charStartsFrom 0 source.chars

theorem byteOfChar?_eq_getElem? (source : Source) (offset : Nat) :
    source.byteOfChar? offset = source.charStarts[offset]? := by
  rw [charStarts, getElem?_charStartsFrom, Nat.zero_add]
  rfl

theorem charOfByte?_eq_placeOf? (source : Source) (byte : Nat) :
    source.charOfByte? byte = placeOf? source.charStarts byte := by
  refine Option.ext fun offset => ?_
  rw [charOfByte?_eq_some_iff, byteOfChar?_eq_getElem?,
    placeOf?_eq_some_iff (increasing_charStarts source)]

/-! ## The bytes of a text -/

def encode (text : List Char) : List UInt8 := text.flatMap String.utf8EncodeChar

theorem length_encode (text : List Char) : (encode text).length = bytesOf text := by
  induction text with
  | nil => rfl
  | cons c text ih =>
      rw [encode, List.flatMap_cons, List.length_append, String.length_utf8EncodeChar, bytesOf_cons,
        ← ih]
      rfl

theorem encode_append (first second : List Char) :
    encode (first ++ second) = encode first ++ encode second :=
  List.flatMap_append

theorem encode_of_substringOfBytes? {range : ByteRange} {text : List Char}
    (h : source.substringOfBytes? range = some text) :
    encode text = ((encode source.chars).drop range.start).take range.length := by
  obtain ⟨before, after, hchars, rfl⟩ := substringOfBytes?_eq_some_iff.mp h
  rw [hchars, List.append_assoc, encode_append, encode_append,
    List.drop_left' (length_encode before), List.take_left' (length_encode text)]

/-! ## Where lines start -/

/-- The offsets right behind the newline bytes among bytes that start at `start`. -/
def newlineStopsFrom (start : Nat) : List UInt8 → List Nat
  | [] => []
  | byte :: bytes => (if byte = 10 then [start + 1] else []) ++ newlineStopsFrom (start + 1) bytes

def lineStarts (source : Source) : List Nat := 0 :: newlineStopsFrom 0 (encode source.chars)

theorem utf8EncodeChar_of_lt {c : Char} (h : c.toNat < 128) :
    String.utf8EncodeChar c = [UInt8.ofNat c.toNat] := by
  have hle : c.val.toNat ≤ 127 := Nat.le_of_lt_succ h
  rw [String.utf8EncodeChar, if_pos hle]
  rfl

/-- The bytes of a longer character are none of those of ASCII. -/
theorem le_of_mem_utf8EncodeChar {c : Char} {byte : UInt8} (h : 128 ≤ c.toNat)
    (hbyte : byte ∈ String.utf8EncodeChar c) : 128 ≤ byte.toNat := by
  have hofNat : ∀ n, 128 ≤ n → n < 256 → 128 ≤ (UInt8.ofNat n).toNat := by
    intro n hlow hhigh
    rwa [UInt8.toNat_ofNat', Nat.mod_eq_of_lt hhigh]
  have hlarge : ¬ c.val.toNat ≤ 127 := Nat.not_le.mpr h
  rw [String.utf8EncodeChar, if_neg hlarge] at hbyte
  split at hbyte
  · simp only [List.mem_cons, List.not_mem_nil, or_false] at hbyte
    rcases hbyte with rfl | rfl <;> exact hofNat _ (by omega) (by omega)
  · split at hbyte
    · simp only [List.mem_cons, List.not_mem_nil, or_false] at hbyte
      rcases hbyte with rfl | rfl | rfl <;> exact hofNat _ (by omega) (by omega)
    · simp only [List.mem_cons, List.not_mem_nil, or_false] at hbyte
      rcases hbyte with rfl | rfl | rfl | rfl <;> exact hofNat _ (by omega) (by omega)

theorem newline_mem_utf8EncodeChar (c : Char) : 10 ∈ String.utf8EncodeChar c ↔ c = '\n' := by
  by_cases hc : c.toNat < 128
  · rw [utf8EncodeChar_of_lt hc, List.mem_singleton, ← UInt8.toNat_inj, UInt8.toNat_ofNat',
      Nat.mod_eq_of_lt (Nat.lt_trans hc (by decide)), ← Char.toNat_inj]
    exact eq_comm
  · constructor
    · intro hmem
      exact absurd (le_of_mem_utf8EncodeChar (Nat.le_of_not_lt hc) hmem) (by decide)
    · rintro rfl
      exact absurd (by decide) hc

theorem newlineStopsFrom_append (start : Nat) (first second : List UInt8) :
    newlineStopsFrom start (first ++ second) =
      newlineStopsFrom start first ++ newlineStopsFrom (start + first.length) second := by
  induction first generalizing start with
  | nil => rfl
  | cons byte first ih =>
      rw [List.cons_append, newlineStopsFrom, ih, newlineStopsFrom, List.append_assoc,
        List.length_cons, Nat.add_right_comm, Nat.add_assoc]

theorem newlineStopsFrom_of_not_mem {bytes : List UInt8} (h : 10 ∉ bytes) (start : Nat) :
    newlineStopsFrom start bytes = [] := by
  induction bytes generalizing start with
  | nil => rfl
  | cons byte bytes ih =>
      rw [List.mem_cons, not_or] at h
      rw [newlineStopsFrom, if_neg (Ne.symm h.1), ih h.2, List.append_nil]

theorem newlineStopsFrom_encode_cons (start : Nat) (c : Char) (text : List Char) :
    newlineStopsFrom start (encode (c :: text)) =
      (if c = '\n' then [start + 1] else []) ++
        newlineStopsFrom (start + c.utf8Size) (encode text) := by
  rw [encode, List.flatMap_cons, newlineStopsFrom_append, String.length_utf8EncodeChar]
  split
  next hc =>
    subst hc
    rfl
  next hc =>
    rw [newlineStopsFrom_of_not_mem fun hmem => hc ((newline_mem_utf8EncodeChar c).mp hmem)]
    rfl

theorem newlineStopsFrom_encode_append (start : Nat) (first second : List Char) :
    newlineStopsFrom start (encode (first ++ second)) =
      newlineStopsFrom start (encode first) ++
        newlineStopsFrom (start + bytesOf first) (encode second) := by
  rw [encode_append, newlineStopsFrom_append, length_encode]

theorem length_newlineStopsFrom_encode (start : Nat) (text : List Char) :
    (newlineStopsFrom start (encode text)).length = text.count '\n' := by
  induction text generalizing start with
  | nil => rfl
  | cons c text ih =>
      rw [newlineStopsFrom_encode_cons, List.length_append, ih, List.count_cons]
      by_cases hc : c = '\n' <;> simp [hc, Nat.add_comm]

theorem lt_of_mem_newlineStopsFrom {start place : Nat} {bytes : List UInt8}
    (h : place ∈ newlineStopsFrom start bytes) : start < place := by
  induction bytes generalizing start with
  | nil => cases h
  | cons byte bytes ih =>
      rw [newlineStopsFrom, List.mem_append] at h
      rcases h with h | h
      · split at h
        · rw [List.mem_singleton] at h
          omega
        · cases h
      · exact Nat.lt_of_succ_lt (ih h)

theorem increasing_newlineStopsFrom (start : Nat) (bytes : List UInt8) :
    (newlineStopsFrom start bytes).Pairwise (· < ·) := by
  induction bytes generalizing start with
  | nil => exact .nil
  | cons byte bytes ih =>
      rw [newlineStopsFrom]
      split
      · exact List.pairwise_cons.mpr ⟨fun place hplace => lt_of_mem_newlineStopsFrom hplace, ih _⟩
      · exact ih _

theorem increasing_lineStarts (source : Source) : source.lineStarts.Pairwise (· < ·) :=
  List.pairwise_cons.mpr ⟨fun _ hplace => lt_of_mem_newlineStopsFrom hplace,
    increasing_newlineStopsFrom 0 _⟩

/-- The walk along a text counts the lines that have started. -/
theorem countP_newlineStopsFrom (start : Nat) (text : List Char) (byte : Nat) :
    (newlineStopsFrom start (encode text)).countP (· ≤ start + byte) = newlinesBefore text byte := by
  induction text generalizing start byte with
  | nil => rfl
  | cons c text ih =>
      rw [newlineStopsFrom_encode_cons, List.countP_append, newlinesBefore]
      by_cases hle : c.utf8Size ≤ byte
      · have hrest := ih (start + c.utf8Size) (byte - c.utf8Size)
        rw [show start + c.utf8Size + (byte - c.utf8Size) = start + byte by omega] at hrest
        rw [if_pos hle, hrest]
        by_cases hc : c = '\n'
        · subst hc
          have hone : 1 ≤ byte := hle
          simp [hone]
        · simp [hc]
      · -- every newline from here on ends behind the offset
        rw [if_neg hle, Nat.add_eq_zero_iff, List.countP_eq_zero, List.countP_eq_zero]
        refine ⟨fun place hplace => ?_, fun place hplace => ?_⟩
        · rw [List.mem_ite_nil_right, List.mem_singleton] at hplace
          obtain ⟨rfl, rfl⟩ := hplace
          have hzero : byte < 1 := Nat.lt_of_not_le hle
          simp only [decide_eq_true_eq]
          omega
        · have hbehind := lt_of_mem_newlineStopsFrom hplace
          simp only [decide_eq_true_eq]
          omega

theorem lineOfByte_eq_partitionPoint (source : Source) (byte : Nat) :
    source.lineOfByte byte = partitionPoint (· ≤ byte) source.lineStarts := by
  have hpairs : source.lineStarts.Pairwise fun place next =>
      decide (next ≤ byte) = true → decide (place ≤ byte) = true :=
    (increasing_lineStarts source).imp fun hlt => by
      simp only [decide_eq_true_eq]
      omega
  have hcount := countP_newlineStopsFrom 0 source.chars byte
  rw [Nat.zero_add] at hcount
  rw [partitionPoint_eq_countP hpairs, lineStarts, List.countP_cons_of_pos (by simp), hcount,
    lineOfByte, Nat.add_comm]

/-! ## Locations -/

/-- The location of a character offset: its line is found by halving, and its column counts from the
character that the line starts with. -/
def tabulatedLocation? (source : Source) (offset : Nat) : Option Location := do
  let byte ← source.charStarts[offset]?
  let line := partitionPoint (· ≤ byte) source.lineStarts
  let lineStart ← source.lineStarts[line - 1]?
  let first ← placeOf? source.charStarts lineStart
  some ⟨line, offset - first + 1⟩

/-- The last line of the text before a place starts behind the newlines before that place. -/
theorem getElem?_lineStarts {before after front line : List Char}
    (h : source.chars = before ++ after) (hline : Location.EndsInLine before front line) :
    source.lineStarts[before.count '\n']? = some (bytesOf front) := by
  rw [hline.count_eq, lineStarts, h, hline.split]
  rcases List.eq_nil_or_concat front with rfl | ⟨lines, c, hfront⟩
  · rfl
  · rw [List.concat_eq_append] at hfront
    subst hfront
    obtain rfl : c = '\n' := hline.front_newline c (by simp)
    have hstop : bytesOf (lines ++ ['\n']) = bytesOf lines + 1 := by
      rw [bytesOf_append]
      rfl
    rw [List.append_assoc, List.append_assoc, newlineStopsFrom_encode_append, List.singleton_append,
      newlineStopsFrom_encode_cons, List.count_append, if_pos rfl, Nat.zero_add, hstop]
    show (newlineStopsFrom 0 (encode lines) ++ _)[lines.count '\n']? = _
    rw [List.getElem?_append_right (Nat.le_of_eq (length_newlineStopsFrom_encode 0 lines)),
      length_newlineStopsFrom_encode, Nat.sub_self]
    rfl

theorem location?_eq_tabulatedLocation? (source : Source) (offset : Nat) :
    source.location? offset = source.tabulatedLocation? offset := by
  by_cases hoffset : offset ≤ source.charLength
  · obtain ⟨before, after, hchars, rfl⟩ :
        ∃ before after, source.chars = before ++ after ∧ offset = before.length :=
      ⟨source.chars.take offset, source.chars.drop offset, (List.take_append_drop _ _).symm,
        (List.length_take_of_le hoffset).symm⟩
    obtain ⟨front, line, hline⟩ := Location.exists_endsInLine before
    have hfront : source.chars = front ++ (line ++ after) := by
      rw [hchars, hline.split, List.append_assoc]
    have hbyte := byteOfChar?_of_excerpt hchars
    have hfirst := charOfByte?_eq_some_iff.mpr (byteOfChar?_of_excerpt hfront)
    rw [byteOfChar?_eq_getElem?] at hbyte
    rw [charOfByte?_eq_placeOf?] at hfirst
    have hlength : before.length - front.length = line.length := by
      rw [hline.split, List.length_append, Nat.add_sub_cancel_left]
    rw [location?_of_excerpt hchars, hline.top_afterText, tabulatedLocation?]
    simp only [Option.bind_eq_bind, hbyte, Option.bind_some, ← lineOfByte_eq_partitionPoint,
      lineOfByte_of_excerpt hchars, Nat.add_sub_cancel_left, getElem?_lineStarts hchars hline, hfirst,
      hlength]
    rw [Nat.add_comm 1 line.length]
  · have hnone : source.charStarts[offset]? = none := by
      rw [← byteOfChar?_eq_getElem?]
      exact if_neg hoffset
    rw [tabulatedLocation?, hnone]
    exact if_neg hoffset

/-! ## The two coordinates -/

/-- Bytes and characters are two coordinates for the places between the characters of a text, and
nothing is lost from one to the other.  A byte offset has a character offset exactly when it stands
at such a place, and that counts the characters before it; a character offset has a byte offset
exactly when it does not pass the end.  Either conversion undoes the other, and both increase.
Ranges convert end by end, the start never behind the stop, exactly when both ends do.  The
substring of characters is that of the bytes they convert to, and has the bytes that the text has
there.  What the conversions answer is what the table of character starts answers, looked up at a
character offset and searched by halving for a byte offset. -/
theorem coordinates_convert (source : Source) :
    (∀ byte offset, source.charOfByte? byte = some offset ↔
      ∃ before after, source.chars = before ++ after ∧ byte = bytesOf before ∧
        offset = before.length) ∧
    (∀ offset, (source.byteOfChar? offset).isSome ↔ offset ≤ source.charLength) ∧
    (∀ byte offset, source.charOfByte? byte = some offset ↔
      source.byteOfChar? offset = some byte) ∧
    (∀ first second firstByte secondByte, source.byteOfChar? first = some firstByte →
      source.byteOfChar? second = some secondByte → (firstByte < secondByte ↔ first < second)) ∧
    (∀ bytes chars, source.toCharRange? bytes = some chars ↔
      source.toByteRange? chars = some bytes) ∧
    (∀ bytes chars, source.toCharRange? bytes = some chars →
      ∃ start stop, source.charOfByte? bytes.start = some start ∧
        source.charOfByte? bytes.stop = some stop ∧ start ≤ stop ∧ chars = .between start stop) ∧
    (∀ chars bytes, source.toByteRange? chars = some bytes →
      ∃ start stop, source.byteOfChar? chars.start = some start ∧
        source.byteOfChar? chars.stop = some stop ∧ start ≤ stop ∧ bytes = .between start stop) ∧
    (∀ bytes, (source.toCharRange? bytes).isSome ↔
      source.IsBoundary bytes.start ∧ source.IsBoundary bytes.stop) ∧
    (∀ chars, (source.toByteRange? chars).isSome ↔ chars.stop ≤ source.charLength) ∧
    (∀ chars text, source.substring? chars = some text ↔
      ∃ before after, source.chars = before ++ text ++ after ∧
        chars = ⟨before.length, text.length⟩) ∧
    (∀ bytes text, source.substringOfBytes? bytes = some text ↔
      ∃ before after, source.chars = before ++ text ++ after ∧
        bytes = ⟨bytesOf before, bytesOf text⟩) ∧
    (∀ bytes text, source.substringOfBytes? bytes = some text →
      encode text = ((encode source.chars).drop bytes.start).take bytes.length) ∧
    (∀ chars, source.substring? chars =
      (source.toByteRange? chars).bind source.substringOfBytes?) ∧
    (∀ offset, source.byteOfChar? offset = source.charStarts[offset]?) ∧
    ∀ byte, source.charOfByte? byte = placeOf? source.charStarts byte := by
  refine ⟨fun _ _ => charOfByte?_eq_some_iff_excerpt, fun _ => byteOfChar?_isSome_iff,
    fun _ _ => charOfByte?_eq_some_iff, ?_, fun _ _ => toByteRange?_eq_some_iff_toCharRange?.symm,
    ?_, ?_, fun _ => toCharRange?_isSome_iff.trans isWhole_iff, fun _ => toByteRange?_isSome_iff,
    ?_, fun _ _ => substringOfBytes?_eq_some_iff, fun _ _ => encode_of_substringOfBytes?,
    substring?_eq_bind source,
    byteOfChar?_eq_getElem? source, charOfByte?_eq_placeOf? source⟩
  · intro first second firstByte secondByte hfirst hsecond
    have hle := byteOfChar?_le_iff hsecond hfirst
    omega
  · intro bytes chars h
    obtain ⟨hstart, hstop⟩ := toCharRange?_eq_some_iff.mp h
    refine ⟨chars.start, chars.stop, charOfByte?_eq_some_iff.mpr hstart,
      charOfByte?_eq_some_iff.mpr hstop, Nat.le_add_right _ _, ?_⟩
    simp [CharRange.between, CharRange.stop]
  · intro chars bytes h
    obtain ⟨hstart, hstop⟩ := toByteRange?_eq_some_iff.mp h
    refine ⟨bytes.start, bytes.stop, hstart, hstop, Nat.le_add_right _ _, ?_⟩
    simp [ByteRange.between, ByteRange.stop]
  · intro chars text
    constructor
    · exact exists_excerpt_of_substring?
    · rintro ⟨before, after, hchars, rfl⟩
      exact substring?_of_excerpt hchars

end CaptureLint.Source
