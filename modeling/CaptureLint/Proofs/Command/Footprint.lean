import CaptureLint.Command.Check
import CaptureLint.Command.Init
import CaptureLint.Proofs.Config.Discovery
import CaptureLint.Proofs.FileSystem.Writing
import CaptureLint.Proofs.Walk.Selection

/-!
# What commands write

A command looks at the workspace, and only after everything before has succeeded does it open the one
file that it writes.  If it fails, nothing has changed, and if it succeeds, the one file holds what
it should: the report on the workspace as it was before, or the usual settings.
-/

namespace CaptureLint

variable {workspace : Workspace}

/-! ## Writing one file -/

theorem Task.value_create (context : Option String) (path : String) (workspace : Workspace) :
    ((create context path).runIn workspace).value =
      match workspace.writable path with
      | .error fault => (.error (.system context fault), workspace)
      | .ok place => (.ok place, workspace.fill place "") := by
  have hvalue : ((create context path).runIn workspace).value =
      (match workspace.writable path with
        | .error fault => pure (.error (.system context fault), workspace)
        | .ok place => pure (.ok place, workspace.fill place "") :
          Logged (Except Failure Place × Workspace)).value := rfl
  rw [hvalue]
  cases workspace.writable path <;> rfl

theorem Task.value_write (context : Option String) (path text : String) (workspace : Workspace) :
    ((write context path text).runIn workspace).value =
      match workspace.writable path with
      | .error fault => (.error (.system context fault), workspace)
      | .ok place => (.ok (), workspace.fill place text) := by
  rw [write, value_bind, value_create]
  cases workspace.writable path with
  | error fault => rfl
  | ok place =>
      dsimp only
      rw [value_fill, Workspace.fill_fill]

namespace CheckRequest

section

variable (request : CheckRequest) (obstacles : Obstacles)

def reportFormat (config : Config) : ReportFormat := (request.resolveFormat config).value

theorem value_targetsAmid (workspace : Workspace) (config : Config) :
    (request.targetsAmid obstacles workspace config).value =
      (Walk.readPatterns config.patterns).bind fun patterns =>
        (Walk.filesAmid obstacles.entries workspace patterns request.paths).value := by
  rw [targetsAmid]
  cases Walk.readPatterns config.patterns <;> rfl

theorem value_lintAmid (workspace : Workspace) :
    (request.lintAmid obstacles workspace).value =
      (request.resolveConfig workspace).value.bind fun config =>
        (request.targetsAmid obstacles workspace config).value.map fun paths =>
          (config, (Lint.files workspace config.rules paths request.parallel).value) := by
  rw [lintAmid, Logged.value_bind]
  cases (request.resolveConfig workspace).value with
  | error failure => rfl
  | ok config =>
      dsimp only [Except.bind]
      rw [Logged.value_bind]
      cases (request.targetsAmid obstacles workspace config).value <;> rfl

/-- All that a check can do: it fails before it writes, or when it opens the file to write to, or when
it prints the report, or it is finished, with the report written where the request asks for it. -/
theorem value_performAmid (coloured : Bool) (workspace : Workspace) :
    ((request.performAmid obstacles coloured).runIn workspace).value =
      match (request.lintAmid obstacles workspace).value with
      | .error failure => (.error failure, workspace)
      | .ok (config, report) =>
          let format := request.reportFormat config
          match request.output with
          | none =>
              match obstacles.print report format (request.usesColour coloured config) with
              | .error failure => (.error failure, workspace)
              | .ok text => (.ok ⟨report.fails request.strict, text⟩, workspace)
          | some path =>
              match workspace.writable path with
              | .error fault => (.error (.system (some s!"Failed to create {path}") fault), workspace)
              | .ok place =>
                  match obstacles.print report format false with
                  | .error failure => (.error failure, workspace.fill place "")
                  | .ok text => (.ok ⟨report.fails request.strict, ""⟩, workspace.fill place text) := by
  rw [performAmid, Task.value_bind, Task.value_reading]
  cases (request.lintAmid obstacles workspace).value with
  | error failure => rfl
  | ok found =>
      obtain ⟨config, report⟩ := found
      dsimp only
      rw [Task.value_bind, Task.value_lift]
      dsimp only
      rw [← reportFormat, Task.value_bind, writeAmid]
      cases request.output with
      | none =>
          dsimp only
          rw [Task.value_ofExcept]
          cases obstacles.print report (request.reportFormat config)
            (request.usesColour coloured config) <;> rfl
      | some path =>
          dsimp only
          rw [Task.value_bind, Task.value_create]
          cases workspace.writable path with
          | error fault => rfl
          | ok place =>
              dsimp only
              rw [Task.value_bind, Task.value_ofExcept]
              cases obstacles.print report (request.reportFormat config) false with
              | error failure => rfl
              | ok text =>
                  dsimp only
                  rw [Task.value_bind, Task.value_fill, Workspace.fill_fill]
                  rfl

theorem value_perform (coloured : Bool) (workspace : Workspace) :
    ((request.perform coloured).runIn workspace).value =
      match (request.lint workspace).value with
      | .error failure => (.error failure, workspace)
      | .ok (config, report) =>
          match request.output with
          | none =>
              (.ok ⟨report.fails request.strict,
                report.render (request.reportFormat config) (request.usesColour coloured config)⟩,
                workspace)
          | some path =>
              match workspace.writable path with
              | .error fault => (.error (.system (some s!"Failed to create {path}") fault), workspace)
              | .ok place =>
                  (.ok ⟨report.fails request.strict, ""⟩,
                    workspace.fill place (report.render (request.reportFormat config) false)) := by
  rw [perform, value_performAmid, lint]
  simp only [Obstacles.print_none]

end

variable {request : CheckRequest} {obstacles : Obstacles} {coloured : Bool} {after : Workspace}
  {ended : Except Failure CheckVerdict}

end CheckRequest

/-! ## The command that starts a configuration -/

def Config.initial : Config where
  unusedCapture := some ⟨true, .warning⟩
  ignorePatterns := some ["Pods/**", "Carthage/**", ".build/**", "DerivedData/**"]
  output := some ⟨some "terminal", none⟩

namespace Init

/-- All that the command can do: it is refused, it fails when it opens the file, or the file holds the
usual settings. -/
theorem value_perform (directory : String) (force : Bool) (workspace : Workspace) :
    ((perform directory force).runIn workspace).value =
      let path := Path.join directory Config.fileName
      if workspace.isFile path && !force then (.error alreadyThere, workspace)
      else
        match workspace.writable path with
        | .error fault => (.error (.system none fault), workspace)
        | .ok place => (.ok path, workspace.fill place Config.initialText) := by
  rw [perform, Task.value_bind, Task.value_reading]
  dsimp only [Logged.value_pure]
  cases workspace.isFile (Path.join directory Config.fileName) && !force with
  | true => rfl
  | false =>
      rw [if_neg Bool.false_ne_true, if_neg Bool.false_ne_true, Task.value_bind, Task.value_write]
      cases workspace.writable (Path.join directory Config.fileName) <;> rfl

variable {directory : String} {force : Bool} {after : Workspace}

theorem refused (hfile : workspace.isFile (Path.join directory Config.fileName) = true)
    (hforce : force = false) :
    ((perform directory force).runIn workspace).value = (.error alreadyThere, workspace) := by
  rw [value_perform]
  dsimp only
  rw [hfile, hforce]
  rfl

end Init

/-! ## Every command -/

end CaptureLint
