import CaptureLint.Config.Basic
import CaptureLint.Glob.Pattern
import CaptureLint.Toml.Reader

/-!
# Reading configuration files

A configuration file is a TOML document.  Keys and sections that are not known are passed over.  A
section may also be written as an array of its values in their order; a date in the place of a
section is a section in which nothing is known.
-/

namespace CaptureLint

open Toml (Value)

def Config.fileName : String := ".caplint.toml"

namespace Toml.Value

def orDefault {α : Type} (read? : Value → Option α) (absent : α) : Option Value → Option α
  | none => some absent
  | some value => read? value

def boolean? : Value → Option Bool
  | boolean value => some value
  | _ => none

def string? : Value → Option String
  | string value => some value
  | _ => none

def strings? : Value → Option (List String)
  | array items => items.mapM string?
  | _ => none

end Toml.Value

/-- A severity by name, or as a table with the name as its only key and nothing under it. -/
def Severity.ofToml? : Value → Option Severity
  | .string name => Severity.ofName? name
  | .table [(name, .table [])] => Severity.ofName? name
  | .table [(name, .array [])] => Severity.ofName? name
  | _ => none

/-- The settings of a rule; what is not said of them has a default. -/
def RuleSettings.ofToml? (value : Value) : Option RuleSettings := do
  let (enabled, severity) ←
    match value with
    | .table members => some (members.lookup "enabled", members.lookup "severity")
    | .array items => some (items[0]?, items[1]?)
    | .datetime => some (none, none)
    | _ => none
  some
    { enabled := ← Value.orDefault Value.boolean? RuleSettings.default.enabled enabled
      severity := ← Value.orDefault Severity.ofToml? RuleSettings.default.severity severity }

def Config.ignoreOfToml? : Value → Option (List String)
  | .table members => members.lookup "patterns" >>= Value.strings?
  | .array items => items[0]? >>= Value.strings?
  | _ => none

def OutputSettings.ofToml? (value : Value) : Option OutputSettings := do
  let (format, colour) ←
    match value with
    | .table members => some (members.lookup "default_format", members.lookup "use_color")
    | .array (format :: rest) => some (some format, rest.head?)
    | .datetime => some (none, none)
    | _ => none
  some
    { defaultFormat := ← Value.orDefault (fun value => value.string?.map some) none format
      useColour := ← Value.orDefault (fun value => value.boolean?.map some) none colour }

namespace Config

def ofToml? (document : List (String × Value)) : Option Config := do
  let section? {α : Type} (name : String) (read? : Value → Option α) : Option (Option α) :=
    Value.orDefault (fun value => (read? value).map some) none (document.lookup name)
  some
    { unusedCapture := ← section? "unused_capture_list" RuleSettings.ofToml?
      ignorePatterns := ← section? "ignore" ignoreOfToml?
      output := ← section? "output" OutputSettings.ofToml? }

def unreadable : Failure := .configuration s!"Failed to parse {fileName}"

def invalidPattern (pattern : String) (fault : GlobFault) : Failure :=
  .configuration s!"Invalid ignore pattern '{pattern}': {fault.message}"

def checkPatterns : List String → Except Failure Unit
  | [] => .ok ()
  | pattern :: patterns =>
      match Glob.Pattern.read pattern with
      | .error fault => .error (invalidPattern pattern fault)
      | .ok _ => checkPatterns patterns

def read (text : String) : Except Failure Config :=
  match Toml.read? text >>= ofToml? with
  | none => .error unreadable
  | some config => do
      checkPatterns config.patterns
      .ok config

def initialText : String :=
  "\n".intercalate
    [ "# caplint configuration", "", "[unused_capture_list]", "enabled = true",
      "severity = \"warning\"", "", "[ignore]", "patterns = [", "    \"Pods/**\",",
      "    \"Carthage/**\",", "    \".build/**\",", "    \"DerivedData/**\",", "]", "", "[output]",
      "default_format = \"terminal\"", "" ]

end Config

end CaptureLint
