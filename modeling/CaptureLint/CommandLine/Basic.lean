import CaptureLint.CommandLine.Form
import CaptureLint.Report.Format

/-!
# The command line

The commands `check` and `init` with their options.
-/

namespace CaptureLint.CommandLine

structure CheckArguments where
  paths : List String
  config : Option String
  format : Option ReportFormat
  output : Option String
  severity : Option Severity
  strict : Bool
  noParallel : Bool
  noColour : Bool
  verbosity : Nat
deriving DecidableEq, Repr

inductive Command where
  | check (arguments : CheckArguments)
  | init (force : Bool)
deriving DecidableEq, Repr

/-! ## Values -/

def single : List String → Except UsageError String
  | [value] => .ok value
  | _ => .error .invalidValue

def readPath (value : String) : Except UsageError String :=
  if value.isEmpty then .error .invalidValue else .ok value

def readName {α : Type} (ofName? : String → Option α) (value : String) : Except UsageError α :=
  match ofName? value with
  | some found => .ok found
  | none => .error .invalidValue

def setOnce {α : Type} (read : String → Except UsageError α) (values : List String)
    (found : Option α) : Except UsageError (Option α) := do
  let value ← single values
  if found.isSome then .error .argumentConflict else .ok (some (← read value))

def raiseOnce (raised : Bool) : Except UsageError Bool :=
  if raised then .error .argumentConflict else .ok true

/-! ## The command `check` -/

inductive CheckKey where
  | paths
  | config
  | format
  | output
  | severity
  | strict
  | noParallel
  | noColour
  | verbosity
  | help
deriving DecidableEq, Repr

namespace CheckKey

def ofLong? (name : String) : Option CheckKey :=
  [ ("config", config), ("format", format), ("output", output), ("severity", severity),
    ("strict", strict), ("no-parallel", noParallel), ("no-color", noColour),
    ("verbose", verbosity), ("help", help) ].lookup name

def ofShort? (letter : Char) : Option CheckKey :=
  [('c', config), ('f', format), ('o', output), ('v', verbosity), ('h', help)].lookup letter

def takesValue : CheckKey → Bool
  | paths | config | format | output | severity => true
  | strict | noParallel | noColour | verbosity | help => false

/-- The highest verbosity; asking for more changes nothing. -/
def maxVerbosity : Nat := 255

def assign (key : CheckKey) (values : List String) (arguments : CheckArguments) :
    Except UsageError CheckArguments := do
  match key with
  | paths => .ok { arguments with paths := arguments.paths ++ (← values.mapM readPath) }
  | config => .ok { arguments with config := ← setOnce readPath values arguments.config }
  | format =>
      .ok { arguments with format := ← setOnce (readName ReportFormat.ofName?) values arguments.format }
  | output => .ok { arguments with output := ← setOnce readPath values arguments.output }
  | severity =>
      .ok { arguments with severity := ← setOnce (readName Severity.ofName?) values arguments.severity }
  | strict => .ok { arguments with strict := ← raiseOnce arguments.strict }
  | noParallel => .ok { arguments with noParallel := ← raiseOnce arguments.noParallel }
  | noColour => .ok { arguments with noColour := ← raiseOnce arguments.noColour }
  | verbosity => .ok { arguments with verbosity := min maxVerbosity (arguments.verbosity + 1) }
  | help => .error .helpRequested

end CheckKey

def checkForm : Form CheckKey CheckArguments where
  long? := CheckKey.ofLong?
  short? := CheckKey.ofShort?
  takesValue := CheckKey.takesValue
  words? := some .paths
  assign := CheckKey.assign

/-- The arguments of a `check` with nothing after it; without paths the current directory is checked. -/
def noArguments : CheckArguments := ⟨[], none, none, none, none, false, false, false, 0⟩

def readCheck (words : List String) : Except UsageError CheckArguments := do
  let arguments ← checkForm.read noArguments words
  .ok (if arguments.paths.isEmpty then { arguments with paths := ["."] } else arguments)

/-! ## The command `init` -/

inductive InitKey where
  | force
  | help
deriving DecidableEq, Repr

def initForm : Form InitKey Bool where
  long? name := [("force", .force), ("help", .help)].lookup name
  short? letter := [('f', .force), ('h', .help)].lookup letter
  takesValue _ := false
  words? := none
  assign key _ force :=
    match key with
    | .force => raiseOnce force
    | .help => .error .helpRequested

/-! ## Commands -/

def readHelp : List String → UsageError
  | [] | ["check"] | ["init"] | ["help"] => .helpRequested
  | _ => .invalidSubcommand

def readTopLong (body : List Char) : UsageError :=
  match Form.splitLong body with
  | ("help", none) => .helpRequested
  | ("version", none) => .versionRequested
  | ("help", some _) | ("version", some _) => .tooManyValues
  | _ => .unknownArgument

def readTopShort (letter : Char) : UsageError :=
  if letter = 'h' then .helpRequested
  else if letter = 'V' then .versionRequested
  else .unknownArgument

def read : List String → Except UsageError Command
  | [] => .error .missingSubcommand
  | "check" :: words => do .ok (.check (← readCheck words))
  | "init" :: words => do .ok (.init (← initForm.read false words))
  | "help" :: words => .error (readHelp words)
  | word :: words =>
      match word.toList with
      | ['-', '-'] =>
          match words with
          | [] => .error .missingSubcommand
          | "check" :: _ | "init" :: _ | "help" :: _ => .error .unknownArgument
          | _ => .error .invalidSubcommand
      | '-' :: '-' :: body => .error (readTopLong body)
      | '-' :: letter :: _ => .error (readTopShort letter)
      | _ => .error .invalidSubcommand

end CaptureLint.CommandLine
