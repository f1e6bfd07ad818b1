import CaptureLint.Token.Basic

/-!
# String literals

A string literal is written between quotes, one or three of them, with the same number of `#` signs
outside on both sides.  `\#…#(` with that number of `#` signs opens an interpolation, which ends the
segment of the literal before it; another segment follows the interpolation.
-/

namespace CaptureLint.Token

structure Delimiter where
  hashes : Nat
  multiline : Bool
deriving DecidableEq, Repr

namespace Delimiter

def quotes (delimiter : Delimiter) : Nat := if delimiter.multiline then 3 else 1

def width (delimiter : Delimiter) : Nat := delimiter.quotes + delimiter.hashes

def opening? (text : List Char) : Option Delimiter :=
  let hashes := (text.takeWhile (· == '#')).length
  match text.drop hashes with
  | '"' :: '"' :: '"' :: _ => some ⟨hashes, true⟩
  | '"' :: _ => some ⟨hashes, false⟩
  | _ => none

def closing (delimiter : Delimiter) : List Char :=
  List.replicate delimiter.quotes '"' ++ List.replicate delimiter.hashes '#'

/-- Whether exactly the `#` signs of the delimiter follow a backslash, which makes it an escape. -/
def escapes (delimiter : Delimiter) (afterBackslash : List Char) : Bool :=
  (afterBackslash.takeWhile (· == '#')).length == delimiter.hashes

def interpolates (delimiter : Delimiter) (afterBackslash : List Char) : Bool :=
  delimiter.escapes afterBackslash && afterBackslash[delimiter.hashes]? == some '('

end Delimiter

inductive SegmentEnd where
  /-- The closing delimiter, which belongs to the segment. -/
  | closed
  /-- The end of the line, for a literal of one line, or of the text. -/
  | broken
  /-- An interpolation, which opens right after the segment. -/
  | interpolation
deriving DecidableEq, Repr

/-- The length of the segment that goes on with a text, and what ends it.  The first argument counts
characters that an escape takes with it, whatever they are. -/
def segment (delimiter : Delimiter) : Nat → List Char → Nat × SegmentEnd
  | _, [] => (0, .broken)
  | escaped + 1, _ :: text =>
      let (length, ending) := segment delimiter escaped text
      (length + 1, ending)
  | 0, c :: text =>
      if c = '\\' ∧ delimiter.interpolates text then (0, .interpolation)
      else if c = '"' ∧ delimiter.closing.isPrefixOf (c :: text) then (delimiter.width, .closed)
      else if c = '\n' ∧ ¬ delimiter.multiline then (0, .broken)
      else
        let escaped := if c = '\\' ∧ delimiter.escapes text then delimiter.hashes + 1 else 0
        let (length, ending) := segment delimiter escaped text
        (length + 1, ending)

end CaptureLint.Token
