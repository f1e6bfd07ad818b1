import CaptureLint.Failure
import CaptureLint.Lint.Source
import CaptureLint.Report.Basic

/-!
# Linting files

Every file is linted on its own.  Files that cannot be read are listed in the report and logged; they
change nothing in what is reported of the others.
-/

namespace CaptureLint.Lint

def readSource (workspace : Workspace) (path : String) : Except Failure Source :=
  match workspace.readText path with
  | .error fault => .error (.fileSystem s!"failed to read {path}" (some fault))
  | .ok text => .ok ⟨some path, text.toList⟩

def file (workspace : Workspace) (rules : List Rule) (path : String) :
    Logged (Except Failure FileReport) := do
  match readSource workspace path with
  | .error failure => pure (.error failure)
  | .ok text => do
      let violations ← source rules text
      .log .debug .lint s!"{path}: {violations.length} violation(s)"
      pure (.ok ⟨path, violations⟩)

abbrev Outcomes := List (String × Except Failure FileReport)

namespace Outcomes

def readFiles (outcomes : Outcomes) : List FileReport :=
  outcomes.filterMap fun (_, outcome) => outcome.toOption

def failures (outcomes : Outcomes) : List (String × Failure) :=
  outcomes.filterMap fun (path, outcome) =>
    match outcome with
    | .ok _ => none
    | .error failure => some (path, failure)

def report (outcomes : Outcomes) : Report :=
  let found := outcomes.readFiles.filter fun file => !file.violations.isEmpty
  { files := found.mergeSort fun first second => Path.le first.path second.path
    checked := outcomes.readFiles.length
    failed := outcomes.failures.map (·.1) }

end Outcomes

/-- Lints some files; whether this is done in parallel changes nothing but what the log says. -/
def files (workspace : Workspace) (rules : List Rule) (paths : List String) (parallel : Bool) :
    Logged Report := do
  let manner := if parallel then " in parallel" else ""
  .log .info .lint s!"linting {paths.length} file(s) with {rules.length} rule(s){manner}"
  let outcomes : Outcomes ← paths.mapM fun path => do pure (path, ← file workspace rules path)
  outcomes.failures.forM fun (path, failure) =>
    .log .warn .lint s!"skipping {path}: {failure.message}"
  pure outcomes.report

end CaptureLint.Lint
