import CaptureLint.Report.Json
import CaptureLint.Report.Terminal

/-!
# Formats of reports
-/

namespace CaptureLint

inductive ReportFormat where
  | json
  | terminal
deriving DecidableEq, Repr

namespace ReportFormat

def name : ReportFormat → String
  | json => "json"
  | terminal => "terminal"

def ofName? (name : String) : Option ReportFormat :=
  if name = "json" then some json else if name = "terminal" then some terminal else none

def read (text : String) : Except String ReportFormat :=
  match ofName? text.toLower with
  | some format => .ok format
  | none => .error text.toLower

def unknownMessage (text : String) : String :=
  s!"unknown output format '{text}' (expected 'terminal' or 'json')"

end ReportFormat

def Report.render (format : ReportFormat) (colour : Bool) (report : Report) : String :=
  match format with
  | .json => report.renderJson
  | .terminal => report.renderTerminal colour

end CaptureLint
