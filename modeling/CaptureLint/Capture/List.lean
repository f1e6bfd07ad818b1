import CaptureLint.Token.Query

/-!
# Capture lists

A closure may open with a capture list, `\x7b [weak self, total = sum] in … \x7d`.  This module finds
the text between the brackets at the start of a window of the source and splits it into entries.
An entry binds the last word before its `=`; what is bound to it is not looked at.  A captured name
counts as used when any name token of the rest of the closure has the same spelling, in whatever scope:
a declaration inside that takes the same name hides that the capture is unused.
-/

namespace CaptureLint.Capture

open Text

/-! ## The list in a window -/

structure Listing where
  text : List Char
  range : CharRange
deriving DecidableEq, Repr

/-- Splits a window that opens with blanks, `\x7b`, blanks and `[` into these and what follows. -/
def opening? (window : List Char) : Option (Nat × List Char) :=
  match trimStart window with
  | '\x7b' :: inside =>
      match trimStart inside with
      | '[' :: rest =>
          some ((leadingBlanks window).length + (leadingBlanks inside).length + 2, rest)
      | _ => none
  | _ => none

/-- The group of a window and the number of characters before it.  The group ends at the first `]`; it
must not be blank nor hold a `[`. -/
def groupOf? (window : List Char) : Option (Nat × List Char) := do
  let (offset, rest) ← opening? window
  let group := rest.takeWhile (· != ']')
  if group.length < rest.length && !allBlank group && !group.contains '[' then
    some (offset, group)
  else none

def listing? (source : Source) (window : CharRange) : Option Listing := do
  let (offset, group) ← groupOf? (← source.substring? window)
  some ⟨group, ⟨window.start + offset, group.length⟩⟩

/-! ## The entries of a list -/

structure Entry where
  /-- The name that the entry binds in the closure. -/
  name : List Char
  /-- The number of characters of the list before the entry's first one that is not blank. -/
  offset : Nat
  /-- The number of characters from there to the name; qualifiers such as `weak` stand between. -/
  nameOffset : Nat
deriving DecidableEq, Repr

namespace Entry

def nameOffsetInList (entry : Entry) : Nat := entry.offset + entry.nameOffset

def shift (distance : Nat) (entry : Entry) : Entry :=
  { entry with offset := entry.offset + distance }

end Entry

/-- The part of an item that says what it binds: all that stands before the first `=`. -/
def binding (item : List Char) : List Char := item.takeWhile (· != '=')

/-- The entry that an item of a list holds, `start` characters of the list standing before the item.
Items without a name hold none. -/
def entryOf? (start : Nat) (item : List Char) : Option Entry := do
  let ⟨nameOffset, name⟩ ← lastWord? (binding (trim item))
  some ⟨name, start + (leadingBlanks item).length, nameOffset⟩

/-- The entries of the items from here on: `item` holds, newest first, what has been read of the
current item, which starts at `start`. -/
def entriesFrom (start : Nat) (item : List Char) : List Char → List Entry
  | [] => (entryOf? start item.reverse).toList
  | ',' :: text =>
      (entryOf? start item.reverse).toList ++ entriesFrom (start + item.length + 1) [] text
  | c :: text => entriesFrom start (c :: item) text

def entries (list : List Char) : List Entry := entriesFrom 0 [] list

/-! ## Uses of captured names -/

/-- The rest of a closure after the `]` that closes its capture list, `none` if the list does not end
inside the closure. -/
def bodyRange? (closure list : CharRange) : Option CharRange :=
  if list.stop + 1 ≤ closure.stop then some (.between (list.stop + 1) closure.stop) else none

/-- The spellings of the name tokens that start in a range of characters, in source order. -/
def namesIn? (source : Source) (tokens : List Token) (body : CharRange) :
    Option (List (List Char)) := do
  let found ← source.tokensIn? tokens (← source.toByteRange? body)
  some ((found.filter (·.kind.isName)).map (·.text))

def unused (entries : List Entry) (used : List (List Char)) : List Entry :=
  entries.filter fun entry => !used.contains entry.name

end CaptureLint.Capture
