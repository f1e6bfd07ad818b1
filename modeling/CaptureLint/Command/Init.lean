import CaptureLint.Command.Task
import CaptureLint.Config.Reader

/-!
# The command that starts a configuration

Writes a configuration file with the usual settings into a directory.  A file that is there is only
replaced on demand.
-/

namespace CaptureLint.Init

def alreadyThere : Failure :=
  .refused "Configuration file already exists. Use --force to overwrite."

/-- Writes the file; the result is its path. -/
def perform (directory : String) (force : Bool) : Task String := do
  let path := Path.join directory Config.fileName
  if ← .reading fun workspace => pure (.ok (workspace.isFile path && !force)) then
    throw alreadyThere
  else
    Task.write none path Config.initialText
    Logged.log .debug .init s!"wrote {path}"
    pure path

def run (workspace : Workspace) (directory : String) (force : Bool) :
    Logged (Except Failure (String × Workspace)) := do
  let (ended, workspace) ← (perform directory force).runIn workspace
  pure (ended.map (·, workspace))

end CaptureLint.Init
