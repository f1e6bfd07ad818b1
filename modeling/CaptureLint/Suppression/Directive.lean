import CaptureLint.Text.Blank
import CaptureLint.Text.Split
import CaptureLint.Text.WordChar

/-!
# Suppression directives

A line comment that starts with `caplint:ignore` is a directive: it suppresses violations on its own
line, on the next line (`caplint:ignore-next-line`) or from here to a matching end
(`caplint:ignore-start`, `caplint:ignore-end`).  The first three may name rules in brackets and give
a reason after two dashes.
-/

namespace CaptureLint.Suppression

open Text

/-- What a directive with rules covers. -/
inductive Extent where
  | sameLine
  | nextLine
  | block
deriving DecidableEq, Repr

/-- The rules that a directive names, none of them meaning all rules, and its reason. -/
structure Terms where
  ruleIds : List String
  reason : Option String
deriving DecidableEq, Repr

inductive Directive where
  | ignore (extent : Extent) (terms : Terms)
  | endBlock
deriving DecidableEq, Repr

def after? : List Char → List Char → Option (List Char)
  | [], text => some text
  | c :: lead, d :: text => if c = d then after? lead text else none
  | _ :: _, [] => none

def readIds (list : List Char) : List String :=
  ((split ',' list).map trim).filterMap fun id =>
    if id.isEmpty then none else some (String.ofList id)

def isListChar (c : Char) : Bool := isWordChar c || c == ',' || c == '*' || isBlank c

/-- The reason at the end of a directive, on one line; nothing else may stand there. -/
def readReason? (text : List Char) : Option (Option String) :=
  match trimStart text with
  | [] => some none
  | '-' :: '-' :: rest =>
      let reason := trim rest
      if reason.contains '\n' then none
      else some (if reason.isEmpty then none else some (String.ofList reason))
  | _ => none

def readTerms? (text : List Char) : Option Terms :=
  match trimStart text with
  | '[' :: inside => do
      let list := inside.takeWhile isListChar
      let rest ← after? [']'] (inside.drop list.length)
      if list.isEmpty then none else some ⟨readIds list, ← readReason? rest⟩
  | rest => do some ⟨[], ← readReason? rest⟩

def commentBody? (comment : List Char) : Option (List Char) := do
  let rest ← after? ['/', '/'] (trimEnd comment)
  some (trimStart (rest.dropWhile (· == '/')))

def Directive.ofComment? (comment : List Char) : Option Directive := do
  let text ← after? "caplint:ignore".toList (← commentBody? comment)
  if let some text := after? "-start".toList text then
    some (.ignore .block (← readTerms? text))
  else if let some text := after? "-end".toList text then
    if allBlank text then some .endBlock else none
  else if let some text := after? "-next-line".toList text then
    some (.ignore .nextLine (← readTerms? text))
  else some (.ignore .sameLine (← readTerms? text))

end CaptureLint.Suppression
