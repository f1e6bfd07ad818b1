import CaptureLint.Json.Printer
import CaptureLint.Json.Reader
import CaptureLint.Report.Basic

/-!
# Reports as JSON

Each record is an object with its fields in a fixed order; the file of a violation is left out if
there is none.  Reading takes the fields by name, whatever else is there, or as an array in their
order.
-/

namespace CaptureLint

open Json (Value)

/-! ## Writing -/

def Location.toJson (place : Location) : Value :=
  .object [("line", .natural place.line), ("column", .natural place.column)]

def Violation.toJson (violation : Violation) : Value :=
  .object <|
    [("rule_id", .string violation.ruleId), ("reference_name", .string violation.reference)] ++
    (violation.file.map fun file => ("file", .string file)).toList ++
    [ ("character_offset", .natural violation.offset), ("location", violation.location.toJson),
      ("severity", .string violation.severity.name), ("message", .string violation.message) ]

def FileReport.toJson (file : FileReport) : Value :=
  .object [("path", .string file.path), ("violations", .array (file.violations.map (·.toJson)))]

def Report.toJson (report : Report) : Value :=
  .object
    [ ("files", .array (report.files.map (·.toJson))), ("files_checked", .natural report.checked),
      ("failed_files", .array (report.failed.map .string)) ]

/-- The report as an indented JSON text with a newline at its end. -/
def Report.renderJson (report : Report) : String :=
  String.ofList (Json.render 0 report.toJson ++ ['\n'])

/-! ## Reading -/

namespace Json.Value

def natural? : Value → Option Nat
  | natural value => some value
  | _ => none

def string? : Value → Option String
  | string value => some value
  | _ => none

def array? : Value → Option (List Value)
  | array items => some items
  | _ => none

def optionalString? : Value → Option (Option String)
  | null => some none
  | string value => some (some value)
  | _ => none

/-- The values of the named fields of a record, `none` for a field that an object does not have.  An
array must have exactly these fields. -/
def fields? (names : List String) : Value → Option (List (Option Value))
  | object members => some (names.map (member? members))
  | array items => if items.length = names.length then some (items.map some) else none
  | _ => none

end Json.Value

def Severity.ofJson? : Value → Option Severity
  | .string name => Severity.ofName? name
  | .object [(name, .null)] => Severity.ofName? name
  | _ => none

def Location.ofJson? (value : Value) : Option Location := do
  match ← value.fields? ["line", "column"] with
  | [some line, some column] => some ⟨← line.natural?, ← column.natural?⟩
  | _ => none

def Violation.ofJson? (value : Value) : Option Violation := do
  let names :=
    [ "rule_id", "reference_name", "file", "character_offset", "location", "severity", "message" ]
  match ← value.fields? names with
  | [some ruleId, some reference, file, some offset, some location, some severity, some message] =>
      some
        { ruleId := ← ruleId.string?
          reference := ← reference.string?
          file := ← (file.getD .null).optionalString?
          offset := ← offset.natural?
          location := ← Location.ofJson? location
          severity := ← Severity.ofJson? severity
          message := ← message.string? }
  | _ => none

def FileReport.ofJson? (value : Value) : Option FileReport := do
  match ← value.fields? ["path", "violations"] with
  | [some path, some violations] =>
      some ⟨← path.string?, ← (← violations.array?).mapM Violation.ofJson?⟩
  | _ => none

def Report.ofJson? (value : Value) : Option Report := do
  match ← value.fields? ["files", "files_checked", "failed_files"] with
  | [some files, some checked, some failed] =>
      some
        { files := ← (← files.array?).mapM FileReport.ofJson?
          checked := ← checked.natural?
          failed := ← (← failed.array?).mapM (·.string?) }
  | _ => none

def Report.readJson? (text : String) : Option Report := do
  Report.ofJson? (← Json.read? text.toList)

end CaptureLint
