/-!
# Blank characters

Text is a list of characters (Unicode scalar values).  A character is blank when it has the Unicode
property White_Space; every trimming and skipping step of the library uses this one class.  A word is
a run of characters that are not blank; the last one of a text is found from its end.
-/

namespace CaptureLint.Text

/-- The characters with the property White_Space: seventeen in the Basic Latin, Latin-1, Ogham and
ideographic blocks and at the ends of General Punctuation, and the run from U+2000 to U+200A. -/
def isBlank (c : Char) : Bool :=
  let n := c.toNat
  (9 ≤ n && n ≤ 13) || n == 0x20 || n == 0x85 || n == 0xA0 || n == 0x1680 ||
    (0x2000 ≤ n && n ≤ 0x200A) || n == 0x2028 || n == 0x2029 || n == 0x202F || n == 0x205F ||
    n == 0x3000

def leadingBlanks (text : List Char) : List Char := text.takeWhile isBlank

def trimStart (text : List Char) : List Char := text.dropWhile isBlank

def trimEnd (text : List Char) : List Char := (text.reverse.dropWhile isBlank).reverse

def trim (text : List Char) : List Char := trimEnd (trimStart text)

/-- A text of blanks only; the empty text is one. -/
def allBlank (text : List Char) : Bool := text.all isBlank

theorem leadingBlanks_append_trimStart (text : List Char) :
    leadingBlanks text ++ trimStart text = text :=
  List.takeWhile_append_dropWhile

/-! ## The last word of a text -/

structure PlacedWord where
  offset : Nat
  word : List Char
deriving DecidableEq, Repr

/-- The last word, `none` for a text of blanks. -/
def lastWord? (text : List Char) : Option PlacedWord :=
  let backwards := (trimEnd text).reverse
  let word := (backwards.takeWhile (! isBlank ·)).reverse
  if word.isEmpty then none
  else some ⟨(backwards.dropWhile (! isBlank ·)).length, word⟩

end CaptureLint.Text
