import CaptureLint.Text.Split

/-!
# Paths

A path is a text; what it names is decided by its components.  Repeated and trailing slashes, and
`.` anywhere but at the start of a relative path, are no components, so different texts can be the
same path.  Paths are ordered by their components.
-/

namespace CaptureLint.Path

inductive Component where
  | root
  | current
  | parent
  | name (text : List Char)
deriving DecidableEq, Repr

def Component.rank : Component → Nat
  | root => 0
  | current => 1
  | parent => 2
  | name _ => 3

/-- The strict order of components; names are ordered by their characters. -/
def Component.before : Component → Component → Bool
  | name first, name second => decide (first < second)
  | first, second => first.rank < second.rank

/-- The component that a part between slashes makes, other than at the start of a path. -/
def componentOf? (part : List Char) : Option Component :=
  if part = [] ∨ part = ['.'] then none
  else if part = ['.', '.'] then some .parent
  else some (.name part)

def parts (path : String) : List (List Char) := Text.split '/' path.toList

def components (path : String) : List Component :=
  match parts path with
  | [] :: rest =>
      if rest.isEmpty then [] else .root :: rest.filterMap componentOf?
  | ['.'] :: rest => .current :: rest.filterMap componentOf?
  | rest => rest.filterMap componentOf?

def same (first second : String) : Bool := components first == components second

def componentsLe : List Component → List Component → Bool
  | [], _ => true
  | _ :: _, [] => false
  | first :: firsts, second :: seconds =>
      if first = second then componentsLe firsts seconds else first.before second

def le (first second : String) : Bool := componentsLe (components first) (components second)

def isAbsolute (path : String) : Bool := path.toList.head? == some '/'

/-- The path of a file in a directory; an absolute path stays as it is. -/
def join (directory path : String) : String :=
  if isAbsolute path || directory.isEmpty then path
  else if directory.toList.getLast? == some '/' then directory ++ path
  else directory ++ "/" ++ path

def descend (directory : String) (names : List String) : String := names.foldl join directory

/-! ## Parents -/

/-- The parts of a path from its end, each with whether it is a component other than the root. -/
def markedParts (path : String) : List (List Char × Bool) :=
  let marks :=
    match parts path with
    | ['.'] :: rest => (['.'], true) :: rest.map fun part => (part, (componentOf? part).isSome)
    | rest => rest.map fun part => (part, (componentOf? part).isSome)
  marks.reverse

/-- The path without its last component; a path without one, or only a root, has no parent. -/
def parent? (path : String) : Option String :=
  match (markedParts path).dropWhile (!·.2) with
  | [] => none
  | _ :: rest =>
      match rest.dropWhile (!·.2) with
      | [] => some (if isAbsolute path then "/" else "")
      | kept => some (String.ofList (Text.join '/' (kept.reverse.map (·.1))))

def ancestors : Nat → String → List String
  | 0, _ => []
  | limit + 1, directory =>
      directory ::
        match parent? directory with
        | some parent => ancestors limit parent
        | none => []

/-! ## Names of files -/

def fileName? (path : String) : Option (List Char) :=
  match (components path).getLast? with
  | some (.name text) => some text
  | _ => none

def extension? (path : String) : Option (List Char) := do
  let name ← fileName? path
  let extension := (name.reverse.takeWhile (· != '.')).reverse
  if extension.length + 1 < name.length then some extension else none

def hasExtension (path extension : String) : Bool :=
  (extension? path).any fun found => found.map Char.toLower == extension.toList.map Char.toLower

end CaptureLint.Path
