import CaptureLint.Rule.UnusedCapture
import CaptureLint.Suppression.Table

/-!
# Linting a source text

The violations of all closures of a text, less the suppressed ones, in the order of their offsets.
-/

namespace CaptureLint

inductive Rule where
  | unusedCapture (settings : RuleSettings)
deriving DecidableEq, Repr

namespace Rule

def identifier : Rule → String
  | unusedCapture _ => UnusedCapture.identifier

/-- The violations that a rule finds at a node; nodes that it does not apply to have none. -/
def check (program : Program) (node : Node) : Rule → Logged (List Violation)
  | unusedCapture settings =>
      match Closure.ofNode? node with
      | some closure => UnusedCapture.check settings.severity program closure
      | none => pure []

end Rule

namespace Lint

def findings (rules : List Rule) (program : Program) (nodes : List Node) :
    Logged (List Violation) := do
  let found ← nodes.mapM fun node => do
    let found ← rules.mapM (·.check program node)
    pure found.flatten
  pure found.flatten

def reportSuppressions (source : Source) (table : Suppression.Table) : Logged Unit := do
  if 0 < table.size then
    .log .debug .lint s!"{source.displayPath}: {table.size} suppression(s)"
  table.unclosed.forM fun block =>
    .log .warn .lint <| s!"{source.displayPath}:{block.startLine}: " ++
      "caplint:ignore-start without matching caplint:ignore-end"

def source (rules : List Rule) (source : Source) : Logged (List Violation) := do
  let program := Program.ofSource source
  let table := Suppression.Table.ofSource source program.tokens
  reportSuppressions source table
  let found ← findings rules program (Node.visit program.forest)
  let kept := found.filter fun violation =>
    !table.suppresses violation.location.line violation.ruleId
  pure (kept.mergeSort fun first second => first.offset ≤ second.offset)

end Lint

end CaptureLint
