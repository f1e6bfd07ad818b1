import CaptureLint.Ignore.Expression

/-!
# Globs of ignore files

In the globs of ignore files `?`, `*` and `[…]` do not reach over directories: `?` and `*` stand for
the bytes of one name.  `**` between slashes, or at an end, stands for any number of directories;
`{a,b}` lists alternatives, which may be nested; a backslash takes the character after it literally.
-/

namespace CaptureLint.Ignore

inductive Part where
  | literal (c : Char)
  | any
  | anyInName
  /-- `**/` at the start. -/
  | anyBefore
  /-- `/**` at the end. -/
  | anyAfter
  /-- `/**/`. -/
  | anyBetween
  | within (negated : Bool) (ranges : List (Char × Char))
  | oneOf (branches : List (List Part))

structure OpenGroup where
  /-- The parts before the group, newest first. -/
  outer : List Part
  /-- The branches of the group that are complete, newest first. -/
  branches : List (List Part)

structure GlobReading where
  /-- The parts of the current branch, newest first. -/
  parts : List Part
  groups : List OpenGroup
  previous : Option Char
  /-- Whether a `[` without an end has been met, after which every `[` is literal. -/
  plainBrackets : Bool

namespace GlobReading

def initial : GlobReading := ⟨[], [], none, false⟩

def push (reading : GlobReading) (part : Part) (last : Char) : GlobReading :=
  { reading with parts := part :: reading.parts, previous := some last }

/-- The state after `**`, `next` being the character that follows: the new state, and how many
characters of what follows belong to it. -/
def pushStars (reading : GlobReading) (next : Option Char) : GlobReading × Nat :=
  let inGroup := !reading.groups.isEmpty
  let plain : GlobReading × Nat := ((reading.push .anyInName '*').push .anyInName '*', 0)
  if reading.parts.isEmpty then
    if next.all (· == '/') then (reading.push .anyBefore '/', if next.isSome then 1 else 0) else plain
  else if reading.previous != some '/' &&
      !(inGroup && (reading.previous == some ',' || reading.previous == some '{')) then plain
  else
    let replaceLast (ending : Part) : List Part :=
      match reading.parts with
      | .anyBefore :: parts => .anyBefore :: parts
      | .anyAfter :: parts => .anyAfter :: parts
      | _ :: parts => ending :: parts
      | [] => [ending]
    match next with
    | none => ({ reading with parts := replaceLast .anyAfter, previous := some '*' }, 0)
    | some '/' => ({ reading with parts := replaceLast .anyBetween, previous := some '/' }, 1)
    | some c =>
        if inGroup && (c == ',' || c == '}') then
          ({ reading with parts := replaceLast .anyAfter, previous := some '*' }, 0)
        else plain

def openGroup (reading : GlobReading) : GlobReading :=
  { reading with
    parts := []
    groups := ⟨reading.parts, []⟩ :: reading.groups
    previous := some '{' }

def comma (reading : GlobReading) : GlobReading :=
  match reading.groups with
  | [] => reading.push (.literal ',') ','
  | group :: groups =>
      { reading with
        parts := []
        groups := { group with branches := reading.parts.reverse :: group.branches } :: groups
        previous := some ',' }

def closeGroup? (reading : GlobReading) : Option GlobReading :=
  match reading.groups with
  | [] => none
  | group :: groups =>
      let branches := (reading.parts.reverse :: group.branches).reverse
      some { reading with parts := .oneOf branches :: group.outer, groups, previous := some '}' }

end GlobReading

inductive ClassReading where
  | closed (ranges : List (Char × Char)) (length : Nat)
  | unclosed
  | invalid

/-- Reads the inside of a class up to and with its `]`: `first` tells whether no entry has been read,
`ranging` whether a dash after the newest entry makes it a range. -/
def readClass (first ranging : Bool) (ranges : List (Char × Char)) (length : Nat) :
    List Char → ClassReading
  | [] => .unclosed
  | c :: text =>
      if c = ']' ∧ !first then
        .closed ((if ranging then ('-', '-') :: ranges else ranges).reverse) (length + 1)
      else if c = '-' ∧ !first ∧ !ranging then readClass false true ranges (length + 1) text
      else
        match ranging, ranges with
        | true, (low, _) :: ranges =>
            if c < low then .invalid
            else readClass false false ((low, c) :: ranges) (length + 1) text
        | _, _ => readClass false false ((c, c) :: ranges) (length + 1) text

def readGlob (reading : GlobReading) : List Char → Option (List Part)
  | [] => if reading.groups.isEmpty then some reading.parts.reverse else none
  | '?' :: text => readGlob (reading.push .any '?') text
  | '*' :: '*' :: text =>
      let (reading, taken) := reading.pushStars text.head?
      readGlob reading (text.drop taken)
  | '*' :: text => readGlob (reading.push .anyInName '*') text
  | '[' :: text =>
      let negated := text.head? == some '!' || text.head? == some '^'
      let marks := if negated then 1 else 0
      let plain := reading.push (.literal '[') '['
      if reading.plainBrackets then readGlob plain text
      else
        match readClass true false [] 0 (text.drop marks) with
        | .closed ranges length =>
            readGlob (reading.push (.within negated ranges) ']') (text.drop (marks + length))
        | .unclosed => readGlob { plain with plainBrackets := true } text
        | .invalid => none
  | '{' :: text => readGlob reading.openGroup text
  | '}' :: text =>
      match reading.closeGroup? with
      | some reading => readGlob reading text
      | none => none
  | ',' :: text => readGlob reading.comma text
  | ['\\'] => none
  | '\\' :: c :: text => readGlob (reading.push (.literal c) c) text
  | c :: text => readGlob (reading.push (.literal c) c) text
termination_by text => text.length
decreasing_by
  all_goals simp only [List.length_cons, List.length_drop]
  all_goals omega

/-! ## Meaning -/

def bytesOfChar (c : Char) : List UInt8 := (String.singleton c).toUTF8.toList

/-- The ranges of bytes of a range of characters, each character being written as its bytes. -/
def byteRanges (range : Char × Char) : List (UInt8 × UInt8) :=
  let single (b : UInt8) : UInt8 × UInt8 := (b, b)
  let low := bytesOfChar range.1
  let high := bytesOfChar range.2
  if range.1 = range.2 then low.map single
  else
    match low.getLast?, high.head? with
    | some first, some last =>
        low.dropLast.map single ++ [(first, last)] ++ (high.drop 1).map single
    | _, _ => []

mutual

def Part.expression : Part → Expression
  | .literal c => .literal (bytesOfChar c)
  | .any => .nameByte
  | .anyInName => .many .nameByte
  | .anyBefore => .orElse (.orElse .empty .slash) (.followedBy .anything .slash)
  | .anyAfter => .followedBy .slash .anything
  | .anyBetween => .orElse .slash (.followedBy .slash (.followedBy .anything .slash))
  | .within negated ranges => .byte negated (ranges.flatMap byteRanges)
  | .oneOf branches => if allEmpty branches then .empty else branchesExpression branches

def branchesExpression : List (List Part) → Expression
  | [] => .nothing
  | branch :: branches =>
      let rest := branchesExpression branches
      if branch.isEmpty then rest else .orElse (partsExpression branch) rest

def allEmpty : List (List Part) → Bool
  | [] => true
  | branch :: branches => branch.isEmpty && allEmpty branches

def partsExpression : List Part → Expression
  | [] => .empty
  | part :: parts => .followedBy part.expression (partsExpression parts)

end

def globExpression? (glob : List Char) : Option Expression := do
  match ← readGlob .initial glob with
  | [.anyBefore] => some .anything
  | parts => some (partsExpression parts)

end CaptureLint.Ignore
