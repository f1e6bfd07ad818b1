import CaptureLint.FileSystem.Path

/-!
# File systems

A file system is a finite map from places to files and directories; a place is the list of names
that lead to it from the root directory.  Reading and writing go through paths, which are followed
name by name from a current directory and may fail on the way.  Names are texts, and there are neither
links nor permissions.
-/

namespace CaptureLint

inductive PathFault where
  | notFound
  | isDirectory
  | notDirectory
  | notText
  | nameTooLong
  | holdsNul
deriving DecidableEq, Repr

def PathFault.message : PathFault → String
  | notFound => "No such file or directory (os error 2)"
  | isDirectory => "Is a directory (os error 21)"
  | notDirectory => "Not a directory (os error 20)"
  | notText => "stream did not contain valid UTF-8"
  | nameTooLong => "File name too long (os error 36)"
  | holdsNul => "file name contained an unexpected NUL byte"

/-- What a file holds: a text, or bytes that are no UTF-8 text. -/
inductive Content where
  | text (value : String)
  | bytes (value : List UInt8)
deriving DecidableEq, Repr

namespace Content

def ofBytes (value : List UInt8) : Content :=
  match String.fromUTF8? ⟨value.toArray⟩ with
  | some decoded => .text decoded
  | none => .bytes value

def firstLine (value : List UInt8) : List UInt8 × List UInt8 :=
  (value.takeWhile (· != 10), (value.dropWhile (· != 10)).drop 1)

/-- The lines up to the first one that is no text; the first argument bounds their number. -/
def textLines : Nat → List UInt8 → List (List Char)
  | 0, _ => []
  | limit + 1, value =>
      if value.isEmpty then []
      else
        let (line, rest) := firstLine value
        match String.fromUTF8? ⟨line.toArray⟩ with
        | none => []
        | some line => Text.lines (line.toList ++ ['\n']) ++ textLines limit rest

def lines : Content → List (List Char)
  | .text value => Text.lines value.toList
  | .bytes value => textLines value.length value

end Content

abbrev Place := List String

inductive Entry where
  | directory
  | file (content : Content)
deriving DecidableEq, Repr

namespace Entry

def isDirectory : Entry → Bool
  | directory => true
  | file _ => false

end Entry

/-- The files and directories below the root directory, which is always there. -/
structure FileSystem where
  entries : List (Place × Entry)
deriving Repr

namespace FileSystem

def empty : FileSystem := ⟨[]⟩

def entry? (files : FileSystem) (place : Place) : Option Entry :=
  if place = [] then some .directory else files.entries.lookup place

def put (files : FileSystem) (place : Place) (entry : Entry) : FileSystem :=
  if (files.entries.lookup place).isSome then
    ⟨files.entries.map fun found => if found.1 = place then (place, entry) else found⟩
  else ⟨files.entries ++ [(place, entry)]⟩

def erase (files : FileSystem) (place : Place) : FileSystem :=
  ⟨files.entries.filter fun found => found.1 ≠ place⟩

/-- Makes the directories that lead from one place to another where they are missing. -/
def makeDirectoriesFrom (files : FileSystem) (here : Place) : List String → FileSystem
  | [] => files
  | name :: names =>
      let place := here ++ [name]
      let files := if (files.entry? place).isSome then files else files.put place .directory
      makeDirectoriesFrom files place names

def makeDirectories (files : FileSystem) (place : Place) : FileSystem :=
  files.makeDirectoriesFrom [] place

def below (files : FileSystem) (directory : Place) : List (List String × Entry) :=
  files.entries.filterMap fun (place, entry) =>
    if directory.isPrefixOf place && directory.length < place.length then
      some (place.drop directory.length, entry)
    else none

end FileSystem

structure Workspace where
  files : FileSystem
  current : Place
deriving Repr

namespace Workspace

def absolute (place : Place) : String := "/" ++ "/".intercalate place

def maxNameBytes : Nat := 255

def follow (files : FileSystem) : Place → List String → Except PathFault Place
  | here, [] => .ok here
  | here, part :: parts =>
      match files.entry? here with
      | none => .error .notFound
      | some (.file _) => .error .notDirectory
      | some .directory =>
          if part = "" ∨ part = "." then follow files here parts
          else if part = ".." then follow files here.dropLast parts
          else if maxNameBytes < part.utf8ByteSize then .error .nameTooLong
          else if (files.entry? (here ++ [part])).isNone then .error .notFound
          else follow files (here ++ [part]) parts

/-- The parts of a path between slashes, and the place that it starts from. -/
def start (workspace : Workspace) (path : String) : Except PathFault (Place × List String) :=
  if path.isEmpty then .error .notFound
  else if path.toList.contains '\x00' then .error .holdsNul
  else
    let origin := if Path.isAbsolute path then [] else workspace.current
    .ok (origin, (Path.parts path).map String.ofList)

def locate (workspace : Workspace) (path : String) : Except PathFault (Place × Entry) := do
  let (origin, parts) ← workspace.start path
  let place ← follow workspace.files origin parts
  match workspace.files.entry? place with
  | some entry => .ok (place, entry)
  | none => .error .notFound

def isFile (workspace : Workspace) (path : String) : Bool :=
  match workspace.locate path with
  | .ok (_, .file _) => true
  | _ => false

def readText (workspace : Workspace) (path : String) : Except PathFault String := do
  match ← workspace.locate path with
  | (_, .directory) => .error .isDirectory
  | (_, .file (.text text)) => .ok text
  | (_, .file (.bytes _)) => .error .notText

/-- The place at which writing to a path creates a file or replaces the content of one. -/
def writable (workspace : Workspace) (path : String) : Except PathFault Place := do
  let (origin, parts) ← workspace.start path
  match parts.reverse.dropWhile (·.isEmpty) with
  | [] => .error .isDirectory
  | last :: front =>
      let directory ← follow workspace.files origin front.reverse
      match workspace.files.entry? directory with
      | some .directory =>
          if last = "." ∨ last = ".." ∨ parts.getLast? = some "" then .error .isDirectory
          else if maxNameBytes < last.utf8ByteSize then .error .nameTooLong
          else if (workspace.files.entry? (directory ++ [last])) = some .directory then
            .error .isDirectory
          else .ok (directory ++ [last])
      | some (.file _) => .error .notDirectory
      | none => .error .notFound

def fill (workspace : Workspace) (place : Place) (text : String) : Workspace :=
  { workspace with files := workspace.files.put place (.file (.text text)) }

end Workspace

end CaptureLint
