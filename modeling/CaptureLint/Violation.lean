import CaptureLint.Source.Location

/-!
# Violations

A violation is a finding of a rule at one character of a source text.  How serious it is follows from
the settings of the rule.  Each severity has one written form, read in any case of ASCII letters.
-/

namespace CaptureLint

/-! ## Severities -/

inductive Severity where
  | warning
  | error
deriving DecidableEq, Repr

namespace Severity

def name : Severity → String
  | warning => "warning"
  | error => "error"

def ofName? (name : String) : Option Severity :=
  if name = "warning" then some warning else if name = "error" then some error else none

/-- Reads a severity in any case; a text that names none is given back in lower case. -/
def read (text : String) : Except String Severity :=
  match ofName? text.toLower with
  | some severity => .ok severity
  | none => .error text.toLower

def unknownMessage (text : String) : String :=
  s!"unknown severity '{text}' (expected 'warning' or 'error')"

@[simp] theorem ofName?_name (severity : Severity) : ofName? severity.name = some severity := by
  cases severity <;> rfl

end Severity

structure RuleSettings where
  enabled : Bool
  severity : Severity
deriving DecidableEq, Repr

def RuleSettings.default : RuleSettings := ⟨true, .warning⟩

/-! ## Findings -/

structure Violation where
  ruleId : String
  /-- The name that is captured and not used. -/
  reference : String
  file : Option String
  /-- The character offset of the name in the source. -/
  offset : Nat
  location : Location
  severity : Severity
  message : String
deriving DecidableEq, Repr

namespace Violation

/-- The file as it is shown; a source without a path is shown as input. -/
def displayFile (violation : Violation) : String := violation.file.getD "<input>"

def render (violation : Violation) : String :=
  s!"{violation.displayFile}:{violation.location.render}: {violation.severity.name}: " ++
    s!"{violation.message} ({violation.ruleId})"

end Violation

end CaptureLint
