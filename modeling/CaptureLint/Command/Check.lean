import CaptureLint.Command.Task
import CaptureLint.Config.Lookup
import CaptureLint.Lint.Files
import CaptureLint.Walk

/-!
# The command that checks files

Finds the configuration and the files, lints them and writes the report, to a file or for the
terminal.  Nothing is written unless everything before has succeeded.  What a workspace does not show
can still get in the way: entries that cannot be looked at, and reports that cannot be printed.
-/

namespace CaptureLint

structure CheckRequest where
  paths : List String
  /-- A configuration file to use instead of the one that is found. -/
  config : Option String
  format : Option ReportFormat
  /-- A file to write the report to instead of the terminal. -/
  output : Option String
  severity : Option Severity
  strict : Bool
  parallel : Bool
  colour : Bool
deriving DecidableEq, Repr

structure CheckVerdict where
  /-- Whether there are violations that make the run fail. -/
  failed : Bool
  shown : String
deriving Repr

structure CheckOutcome extends CheckVerdict where
  workspace : Workspace
deriving Repr

/-- What gets in the way of a check, other than its workspace. -/
structure Obstacles where
  entries : Walk.EntryFaults
  /-- What is said of a report that cannot be printed in JSON, as one that names a path which is no
  text. -/
  printing : Report → Option String

namespace Obstacles

def none : Obstacles := ⟨fun _ => .none, fun _ => .none⟩

def print (obstacles : Obstacles) (report : Report) (format : ReportFormat) (coloured : Bool) :
    Except Failure String :=
  match format, obstacles.printing report with
  | .json, some text => .error (.printing text)
  | _, _ => .ok (report.render format coloured)

theorem print_none (report : Report) (format : ReportFormat) (coloured : Bool) :
    none.print report format coloured = .ok (report.render format coloured) := by
  cases format <;> rfl

end Obstacles

namespace CheckRequest

variable (request : CheckRequest) (obstacles : Obstacles)

def resolveConfig (workspace : Workspace) : Logged (Except Failure Config) := do
  let config ←
    match request.config with
    | some path => Config.load workspace path
    | none => do pure (.ok (← Config.forWorkspace workspace))
  pure (config.map (·.withSeverity request.severity))

/-- The format to use: the one of the request, else the one of the configuration, which is passed over
with a warning if there is no such format. -/
def resolveFormat (config : Config) : Logged ReportFormat := do
  match request.format, config.defaultFormat? with
  | some format, _ => pure format
  | none, none => pure .terminal
  | none, some name =>
      match ReportFormat.read name with
      | .ok format => pure format
      | .error unknown => do
          .log .warn .check <|
            s!"ignoring [output] default_format: {ReportFormat.unknownMessage unknown}"
          pure .terminal

def targetsAmid (workspace : Workspace) (config : Config) :
    Logged (Except Failure (List String)) := do
  match Walk.readPatterns config.patterns with
  | .error failure => pure (.error failure)
  | .ok patterns => Walk.filesAmid obstacles.entries workspace patterns request.paths

def targets (workspace : Workspace) (config : Config) : Logged (Except Failure (List String)) :=
  request.targetsAmid .none workspace config

def lintAmid (workspace : Workspace) : Logged (Except Failure (Config × Report)) := do
  match ← request.resolveConfig workspace with
  | .error failure => pure (.error failure)
  | .ok config => do
      match ← request.targetsAmid obstacles workspace config with
      | .error failure => pure (.error failure)
      | .ok paths => do
          pure (.ok (config, ← Lint.files workspace config.rules paths request.parallel))

def lint (workspace : Workspace) : Logged (Except Failure (Config × Report)) :=
  request.lintAmid .none workspace

/-- Whether a terminal report is coloured: colours are for terminals that show them (`coloured`), if
neither the request nor the configuration is against them. -/
def usesColour (coloured : Bool) (config : Config) : Bool :=
  coloured && request.colour && config.useColour?.getD true

/-- Writes the report where the request asks for it; the result is what is shown of it.  A file is
opened before the report is printed. -/
def writeAmid (coloured : Bool) (config : Config) (format : ReportFormat) (report : Report) :
    Task String :=
  match request.output with
  | none => .ofExcept (obstacles.print report format (request.usesColour coloured config))
  | some path => do
      let place ← Task.create (some s!"Failed to create {path}") path
      let text ← Task.ofExcept (obstacles.print report format false)
      Task.fill place text
      pure ""

def performAmid (coloured : Bool) : Task CheckVerdict := do
  let (config, report) ← .reading (request.lintAmid obstacles)
  let format ← request.resolveFormat config
  let shown ← request.writeAmid obstacles coloured config format report
  pure ⟨report.fails request.strict, shown⟩

def perform (coloured : Bool) : Task CheckVerdict := request.performAmid .none coloured

def run (workspace : Workspace) (coloured : Bool) : Logged (Except Failure CheckOutcome) := do
  let (ended, workspace) ← (request.perform coloured).runIn workspace
  pure (ended.map fun verdict => { verdict with workspace })

end CheckRequest

end CaptureLint
