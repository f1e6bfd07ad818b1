import CaptureLint.Token.Lexer

/-!
# The tokens in a byte range

Tokens stand in the order of their starts, so the ones that start in a byte range are neighbours, and
the first and the last of them are found by halving.  Whoever asks from outside gives the range in two
words of 64 bits, and their sum may be too large for a word.
-/

namespace CaptureLint.Token

/-- The place from `low` to `high` where the items stop to satisfy `before`, found by halving.  The
items that satisfy it are taken to stand in front of those that do not. -/
def partitionIn {α : Type} (before : α → Bool) (items : Array α) (low high : Nat) : Nat :=
  if low < high then
    let middle := low + (high - low) / 2
    if items[middle]?.any before then partitionIn before items (middle + 1) high
    else partitionIn before items low middle
  else low
termination_by high - low

def partitionPoint {α : Type} (before : α → Bool) (items : List α) : Nat :=
  partitionIn before items.toArray 0 items.length

end CaptureLint.Token

namespace CaptureLint

/-- A byte range in words. -/
structure WordRange where
  start : UInt64
  length : UInt64
deriving DecidableEq, Repr

namespace WordRange

variable (range : WordRange)

def toByteRange : ByteRange := ⟨range.start.toNat, range.length.toNat⟩

def stop : UInt64 := range.start + range.length

/-- Whether no word is the first byte after the range. -/
def overflows : Bool := UInt64.size ≤ range.toByteRange.stop

end WordRange

/-- What brings a query down. -/
inductive QueryFault where
  /-- The range ends past the last word, where sums of words are checked. -/
  | overflow
  /-- The first of the tokens asked for stands behind the last of them. -/
  | inverted
deriving DecidableEq, Repr

end CaptureLint

namespace CaptureLint.Source

/-- The tokens that start in a byte range, `none` if it reaches past the end of the text. -/
def tokensIn? (source : Source) (tokens : List Token) (range : ByteRange) : Option (List Token) :=
  if range.stop ≤ source.byteLength then
    let first := Token.partitionPoint (·.start < range.start) tokens
    let last := Token.partitionPoint (·.start < range.stop) tokens
    some ((tokens.take last).drop first)
  else none

/-- The same query for a range in words.  Sums of words are `checked`, or else they wrap around. -/
def tokensInWords (checked : Bool) (source : Source) (tokens : List Token) (range : WordRange) :
    Except QueryFault (Option (List Token)) :=
  if checked && range.overflows then .error .overflow
  else if range.stop.toNat ≤ source.byteLength then
    let first := Token.partitionPoint (·.start < range.start.toNat) tokens
    let last := Token.partitionPoint (·.start < range.stop.toNat) tokens
    if first ≤ last then .ok (some ((tokens.take last).drop first)) else .error .inverted
  else .ok none

end CaptureLint.Source
