import CaptureLint.Glob.Pattern
import CaptureLint.Ignore.Exclusion
import CaptureLint.Log.Basic

/-!
# Finding the files to lint

Files are looked for at and below some roots.  A root that is a file is kept as it is; below a
directory the files with the extension `swift` are kept, less those that ignore files or the glob
patterns of the configuration exclude.  The paths found are in order and no path comes twice.
-/

namespace CaptureLint.Walk

def extension : String := "swift"

def matchesAny (patterns : List Glob.Pattern) (relative path : String) : Bool :=
  patterns.any fun pattern => pattern.accepts relative || pattern.accepts path

/-- The paths of the files to lint below a root that is the directory at a place.  The root `-` stands
for standard input, which has no files below it. -/
def filesBelow (files : FileSystem) (patterns : List Glob.Pattern) (root : String)
    (place : Place) : List String :=
  if root = "-" then []
  else
    (files.below place).filterMap fun (names, entry) =>
      let path := Path.descend root names
      if !entry.isDirectory && !Ignore.excluded files entry.isDirectory place names &&
          Path.hasExtension path extension &&
          !matchesAny patterns ("/".intercalate names) path then
        some path
      else none

/-- What is said of an entry below a root that cannot be looked at, if there is one. -/
abbrev EntryFaults := String → Option String

/-- The paths to lint at or below one root, unless there is something wrong with an entry. -/
def filesAtAmid (faults : EntryFaults) (workspace : Workspace) (patterns : List Glob.Pattern)
    (root : String) : Except Failure (List String) :=
  match workspace.locate root with
  | .ok (_, .file _) => .ok [root]
  | .ok (place, .directory) =>
      match faults root with
      | some text => .error (.walk text)
      | none => .ok (filesBelow workspace.files patterns root place)
  | .error _ => .error (.fileSystem s!"{root} does not exist" none)

def filesAt (workspace : Workspace) (patterns : List Glob.Pattern) (root : String) :
    Except Failure (List String) :=
  filesAtAmid (fun _ => none) workspace patterns root

/-- Leaves out what is the same path as the one before it. -/
def dropRepeats : List String → List String
  | first :: second :: paths =>
      if Path.same first second then dropRepeats (first :: paths)
      else first :: dropRepeats (second :: paths)
  | paths => paths
termination_by paths => paths.length

def filesAmid (faults : EntryFaults) (workspace : Workspace) (patterns : List Glob.Pattern)
    (roots : List String) : Logged (Except Failure (List String)) := do
  match roots.mapM (filesAtAmid faults workspace patterns) with
  | .error failure => pure (.error failure)
  | .ok found =>
      let paths := dropRepeats (found.flatten.mergeSort Path.le)
      .log .debug .walk s!"found {paths.length} Swift file(s)"
      pure (.ok paths)

def files (workspace : Workspace) (patterns : List Glob.Pattern) (roots : List String) :
    Logged (Except Failure (List String)) :=
  filesAmid (fun _ => none) workspace patterns roots

def readPatterns (patterns : List String) : Except Failure (List Glob.Pattern) :=
  patterns.mapM fun pattern => (Glob.Pattern.read pattern).mapError .pattern

end CaptureLint.Walk
