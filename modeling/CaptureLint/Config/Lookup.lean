import CaptureLint.Config.Reader

/-!
# Finding the configuration

A configuration file that the user names must be there and be readable.  Otherwise the file is looked
for in a directory and its parents.  A file that is found and cannot be used is passed over with a
warning, and the search goes on.
-/

namespace CaptureLint.Config

def maxDirectories : Nat := 10

def load (workspace : Workspace) (path : String) : Logged (Except Failure Config) := do
  match workspace.readText path with
  | .error fault =>
      pure (.error (.fileSystem s!"failed to read config file {path}" (some fault)))
  | .ok text =>
      match read text with
      | .error failure => pure (.error failure)
      | .ok config => do
          .log .debug .configuration s!"Loaded config from {path}"
          pure (.ok config)

/-- The configuration in a file that may be there; what is wrong with it is logged. -/
def tryLoad (workspace : Workspace) (path : String) : Logged (Option Config) := do
  match workspace.readText path with
  | .error .notFound => pure none
  | .error fault => do
      .log .warn .configuration s!"Failed to read config file {path}: {fault.message}"
      pure none
  | .ok text =>
      match read text with
      | .error failure => do
          .log .warn .configuration s!"{failure.message}. Using defaults."
          pure none
      | .ok config => do
          .log .debug .configuration s!"Loaded config from {path}"
          pure (some config)

def firstIn (workspace : Workspace) : List String → Logged Config
  | [] => do
      .log .debug .configuration <|
        s!"No config found after checking {maxDirectories} directories. Using default config."
      pure .default
  | directory :: directories => do
      match ← tryLoad workspace (Path.join directory fileName) with
      | some config => pure config
      | none => firstIn workspace directories

def forDirectory (workspace : Workspace) (directory : String) : Logged Config :=
  firstIn workspace (Path.ancestors maxDirectories directory)

def forWorkspace (workspace : Workspace) : Logged Config :=
  forDirectory workspace (Workspace.absolute workspace.current)

end CaptureLint.Config
