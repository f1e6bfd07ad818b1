import CaptureLint.Source.Location
import CaptureLint.Source.Range

/-!
# Source texts

A source text is a list of characters, with the path it was read from if there is one.  Offsets come
in two units, UTF-8 bytes and characters; this module converts between them, cuts substrings and
finds lines.  A byte offset that falls inside a character, and any offset past the end, has no
counterpart, and every conversion says so by `none`.
-/

namespace CaptureLint

/-- A text to be linted, with the path it was read from. -/
structure Source where
  path : Option String
  chars : List Char
deriving DecidableEq, Repr

namespace Source

/-! ## Lengths and offsets -/

def bytesOf : List Char → Nat
  | [] => 0
  | c :: text => c.utf8Size + bytesOf text

/-- The number of characters before a byte offset, if the offset stands between two characters. -/
def charsBefore? : List Char → Nat → Option Nat
  | _, 0 => some 0
  | [], _ + 1 => none
  | c :: text, byte =>
      if c.utf8Size ≤ byte then (charsBefore? text (byte - c.utf8Size)).map (· + 1) else none

def newlinesBefore : List Char → Nat → Nat
  | [], _ => 0
  | c :: text, byte =>
      if c.utf8Size ≤ byte then
        (if c = '\n' then 1 else 0) + newlinesBefore text (byte - c.utf8Size)
      else 0

@[simp] theorem bytesOf_nil : bytesOf [] = 0 := rfl

@[simp] theorem bytesOf_cons (c : Char) (text : List Char) :
    bytesOf (c :: text) = c.utf8Size + bytesOf text := rfl

theorem bytesOf_append (first second : List Char) :
    bytesOf (first ++ second) = bytesOf first + bytesOf second := by
  induction first with
  | nil => simp
  | cons c first ih => simp [ih, Nat.add_assoc]

/-- Only the empty text has no bytes. -/
theorem bytesOf_pos {text : List Char} (h : text ≠ []) : 0 < bytesOf text := by
  cases text with
  | nil => exact absurd rfl h
  | cons c text =>
      have := Char.utf8Size_pos c
      simp only [bytesOf_cons]
      omega

/-- A byte offset after the first character counts it and goes on from there. -/
theorem charsBefore?_cons (c : Char) (text : List Char) (byte : Nat) :
    charsBefore? (c :: text) (c.utf8Size + byte) = (charsBefore? text byte).map (· + 1) := by
  have hpos := Char.utf8Size_pos c
  obtain ⟨n, hn⟩ : ∃ n, c.utf8Size + byte = n + 1 := ⟨c.utf8Size + byte - 1, by omega⟩
  rw [hn]
  simp only [charsBefore?]
  rw [if_pos (by omega), show n + 1 - c.utf8Size = byte by omega]

/-- A byte offset after `first` counts the characters of `first` and goes on from there. -/
theorem charsBefore?_append (first second : List Char) (byte : Nat) :
    charsBefore? (first ++ second) (bytesOf first + byte) =
      (charsBefore? second byte).map (· + first.length) := by
  induction first with
  | nil => simp
  | cons c first ih =>
      rw [List.cons_append, bytesOf_cons, Nat.add_assoc, charsBefore?_cons, ih, Option.map_map]
      rfl

/-! ## Conversions -/

variable (source : Source)

def byteLength : Nat := bytesOf source.chars

def charLength : Nat := source.chars.length

def charOfByte? (byte : Nat) : Option Nat := charsBefore? source.chars byte

/-- The byte offset of a character offset; the end of the text is an offset too. -/
def byteOfChar? (offset : Nat) : Option Nat :=
  if offset ≤ source.charLength then some (bytesOf (source.chars.take offset)) else none

def toCharRange? (range : ByteRange) : Option CharRange := do
  let start ← source.charOfByte? range.start
  let stop ← source.charOfByte? range.stop
  some (.between start stop)

def toByteRange? (range : CharRange) : Option ByteRange := do
  let start ← source.byteOfChar? range.start
  let stop ← source.byteOfChar? range.stop
  some (.between start stop)

def substring? (range : CharRange) : Option (List Char) :=
  if range.stop ≤ source.charLength then
    some ((source.chars.drop range.start).take range.length)
  else none

def substringOfBytes? (range : ByteRange) : Option (List Char) := do
  source.substring? (← source.toCharRange? range)

/-! ## Lines -/

/-- The number, from one, of the line that holds a byte offset. -/
def lineOfByte (byte : Nat) : Nat := 1 + newlinesBefore source.chars byte

/-- The location of a character offset; the end of the text has one too. -/
def location? (offset : Nat) : Option Location :=
  if offset ≤ source.charLength then some (Location.top.afterText (source.chars.take offset))
  else none

def displayPath : String := source.path.getD "<input>"

end Source

end CaptureLint
