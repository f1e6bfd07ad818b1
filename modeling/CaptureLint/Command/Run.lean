import CaptureLint.Command.Check
import CaptureLint.Command.Init
import CaptureLint.CommandLine.Basic
import CaptureLint.CommandLine.Help
import CaptureLint.Log.Filter
import CaptureLint.Log.Render

/-!
# Running the program

One run takes the arguments, the environment and the workspace, and gives what is written, the exit
status, and what the workspace is then.
-/

namespace CaptureLint

abbrev Environment := List (String × String)

namespace Environment

variable (environment : Environment)

/-- Whether a terminal report is coloured although standard output is no terminal. -/
def forcesColour : Bool := (environment.lookup "CLICOLOR_FORCE").any (· != "0")

/-- Whether log lines are coloured although standard error is no terminal. -/
def coloursLog : Bool :=
  match environment.lookup "RUST_LOG_STYLE" with
  | some "always" => true
  | some "never" => false
  | _ => !(environment.lookup "NO_COLOR").any (· != "") && environment.forcesColour

end Environment

structure RunResult where
  status : Nat
  stdout : String
  stderr : String
  workspace : Workspace
deriving Repr

namespace Run

def succeeded : Nat := 0

def violationsFound : Nat := 1

def fatal : Nat := 2

def versionLine : String := "caplint 0.3.1\n"

def logText (environment : Environment) (verbosity : Nat) (lines : List LogLine) : String :=
  let spec := (environment.lookup "RUST_LOG").getD (Log.specFor verbosity)
  let (filter, complaints) := Log.Filter.read spec
  let written := (lines.filter filter.passes).map (Log.render environment.coloursLog)
  String.join (complaints ++ written)

/-- The result of performing a task whose value is the status and what is shown.  A task that fails
leaves the workspace as it is by then. -/
def resultOf (environment : Environment) (workspace : Workspace) (verbosity : Nat)
    (task : Task (Nat × String)) : RunResult :=
  let logged := task.runIn workspace
  let log := logText environment verbosity logged.lines
  match logged.value with
  | (.error failure, workspace) => ⟨fatal, "", log ++ s!"Error: {failure.detail}\n", workspace⟩
  | (.ok (status, stdout), workspace) => ⟨status, stdout, log, workspace⟩

def requestOf (arguments : CommandLine.CheckArguments) : CheckRequest where
  paths := arguments.paths
  config := arguments.config
  format := arguments.format
  output := arguments.output
  severity := arguments.severity
  strict := arguments.strict
  parallel := !arguments.noParallel
  colour := !arguments.noColour

/-- The arguments with the configuration file that the environment names, unless they name one. -/
def completeArguments (environment : Environment) (arguments : CommandLine.CheckArguments) :
    Except CommandLine.UsageError CommandLine.CheckArguments :=
  match arguments.config, environment.lookup "CAPLINT_CONFIG" with
  | none, some path => do .ok { arguments with config := some (← CommandLine.readPath path) }
  | _, _ => .ok arguments

def commandOf (environment : Environment) (words : List String) :
    Except CommandLine.UsageError CommandLine.Command := do
  match ← CommandLine.read words with
  | .check arguments => .ok (.check (← completeArguments environment arguments))
  | .init force => .ok (.init force)

def execute (environment : Environment) (workspace : Workspace) :
    CommandLine.Command → RunResult
  | .check arguments =>
      resultOf environment workspace arguments.verbosity do
        let verdict ← (requestOf arguments).perform environment.forcesColour
        pure (if verdict.failed then violationsFound else succeeded, verdict.shown)
  | .init force =>
      resultOf environment workspace 0 do
        let path ← Init.perform "." force
        pure (succeeded, s!"Created {path} configuration file\n")

def run (environment : Environment) (workspace : Workspace) (words : List String) :
    Except CommandLine.UsageError RunResult :=
  match commandOf environment words with
  | .ok command => .ok (execute environment workspace command)
  | .error .versionRequested => .ok ⟨succeeded, versionLine, "", workspace⟩
  | .error .helpRequested => .ok ⟨succeeded, CommandLine.helpFor words, "", workspace⟩
  | .error failure => .error failure

end Run

end CaptureLint
