import CaptureLint.Ignore.Rules

/-!
# What ignore files exclude

The ignore files in a directory speak about everything below it.  The `.ignore` files of all
directories above an entry come first, nearest directory first; then, inside a repository, the
`.gitignore` files from there up to the root of the repository, and last the exclude list of the
repository.  The first of these that says anything decides.
-/

namespace CaptureLint.Ignore

def rulesAt (files : FileSystem) (place : Place) : Rules :=
  match files.entry? place with
  | some (.file content) => .ofContent content
  | _ => []

/-- The places that a list of names leads to, from `here` on, last first. -/
def placesAlong (here : Place) : List String → List Place
  | [] => [here]
  | name :: names => placesAlong (here ++ [name]) names ++ [here]

def directoriesAbove (place : Place) : List Place := placesAlong [] place.dropLast

def isRepository (files : FileSystem) (directory : Place) : Bool :=
  (files.entry? (directory ++ [".git"])).isSome || (files.entry? (directory ++ [".jj"])).isSome

/-- The directories of a list up to and with the first root of a repository, none if there is no such
root. -/
def insideRepository (files : FileSystem) : List Place → List Place
  | [] => []
  | directory :: above =>
      if isRepository files directory then [directory]
      else
        match insideRepository files above with
        | [] => []
        | inside => directory :: inside

/-- What the first of some files, each with the directory that it speaks about, says about a place. -/
def firstVerdict? (files : FileSystem) (place : Place) (isDirectory : Bool)
    (sources : List (Place × List String)) : Option Bool :=
  sources.findSome? fun (directory, name) =>
    (rulesAt files (directory ++ name)).verdict? (place.drop directory.length) isDirectory

def leavesOut (files : FileSystem) (place : Place) (isDirectory : Bool) : Bool :=
  let above := directoriesAbove place
  let inside := insideRepository files above
  let sources :=
    above.map (·, [".ignore"]) ++ inside.map (·, [".gitignore"]) ++
      inside.map (·, [".git", "info", "exclude"])
  firstVerdict? files place isDirectory sources == some false

/-- Whether an entry below a directory is left out, or a directory on the way to it: `names` leads on
from `here`, and `isDirectory` is about the last of them. -/
def excluded (files : FileSystem) (isDirectory : Bool) : Place → List String → Bool
  | _, [] => false
  | here, name :: names =>
      let place := here ++ [name]
      leavesOut files place (isDirectory || !names.isEmpty) || excluded files isDirectory place names

end CaptureLint.Ignore
