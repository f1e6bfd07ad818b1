import CaptureLint.Capture.List
import CaptureLint.Log.Basic
import CaptureLint.Structure.Builder
import CaptureLint.Violation

/-!
# The rule on unused captures

The rule reports the entries of a closure's capture list whose name the rest of the closure never
spells.  A capture list is looked for between the start of the closure and the first expression
inside it, so a list literal that belongs to such an expression is never taken for one.  A closure
whose ranges do not fit the source is skipped, and the log says so.
-/

namespace CaptureLint

structure Program where
  source : Source
  tokens : List Token
  forest : List Node

def Program.ofSource (source : Source) : Program :=
  let tokens := source.tokens
  ⟨source, tokens, source.structureOf tokens⟩

structure Closure where
  range : ByteRange
  /-- The byte offset of the first expression inside. -/
  firstChild : Option Nat
deriving DecidableEq, Repr

namespace Closure

def ofNode? (node : Node) : Option Closure :=
  if node.kind = .closure then some ⟨node.range, node.children.head?.map Node.start⟩ else none

/-- The characters in which a capture list of the closure can stand. -/
def window? (source : Source) (closure : Closure) : Option CharRange :=
  let stop := closure.firstChild.getD closure.range.stop
  if closure.range.start ≤ stop ∧ stop ≤ closure.range.stop then
    source.toCharRange? (.between closure.range.start stop)
  else none

end Closure

namespace UnusedCapture

def identifier : String := "unused_capture_list"

def title : String := "Unused Capture List"

def description : String := "Unused reference in a capture list should be removed."

def kindName : String := "Lint"

def message (name : String) : String := s!"Unused reference {name} in a capture list should be removed."

def violation (severity : Severity) (source : Source) (listStart : Nat) (entry : Capture.Entry) :
    Violation :=
  let offset := listStart + entry.nameOffsetInList
  let name := String.ofList entry.name
  { ruleId := identifier
    reference := name
    file := source.path
    offset
    location := (source.location? offset).getD .top
    severity
    message := message name }

/-- The violations of a closure in the order of its capture list, `none` if a range of the closure
does not fit the source. -/
def violations? (severity : Severity) (program : Program) (closure : Closure) :
    Option (List Violation) := do
  let source := program.source
  let whole ← source.toCharRange? closure.range
  let window ← closure.window? source
  match Capture.listing? source window with
  | none => some []
  | some list =>
      match Capture.entries list.text with
      | [] => some []
      | entries =>
          let body ← Capture.bodyRange? whole list.range
          let used ← Capture.namesIn? source program.tokens body
          some ((Capture.unused entries used).map (violation severity source list.range.start))

/-- The violations of a closure; one with unfit ranges has none and is logged. -/
def check (severity : Severity) (program : Program) (closure : Closure) : Logged (List Violation) :=
  match violations? severity program closure with
  | some violations => pure violations
  | none => do
      .log .trace .rule s!"skipping closure at byte {closure.range.start}: inconsistent source ranges"
      pure []

end UnusedCapture

end CaptureLint
