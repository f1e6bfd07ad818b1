import CaptureLint.FileSystem.Basic
import CaptureLint.Ignore.Glob
import CaptureLint.Text.Blank

/-!
# Rules of ignore files

Each line of an ignore file is a rule on paths relative to the directory of the file.  The last rule
that matches decides; a rule that starts with `!` keeps what an earlier one leaves out.  Lines that
cannot be read are no rules.
-/

namespace CaptureLint.Ignore

structure Rule where
  /-- Whether what matches is kept rather than left out. -/
  keeps : Bool
  directoriesOnly : Bool
  expression : Expression
deriving DecidableEq, Repr

abbrev Rules := List Rule

def startsAnywhere (glob : List Char) : Bool :=
  "**/".toList.isPrefixOf glob || glob == "**".toList

/-- The glob of a rule written as `body`, after marks at its ends have been taken off: without a slash it
matches in every directory, and `/**` at its end matches what is inside only. -/
def completeGlob (anchored : Bool) (body : List Char) : List Char :=
  let glob :=
    if anchored || body.contains '/' || startsAnywhere body then body else "**/".toList ++ body
  if "/**".toList.isSuffixOf glob then glob ++ "/*".toList else glob

def readRule? (line : List Char) : Option Rule :=
  let escaped := "\\!".toList.isPrefixOf line || "\\#".toList.isPrefixOf line
  let keeps := !escaped && line.head? == some '!'
  let body := if escaped || keeps then line.drop 1 else line
  let anchored := body.head? == some '/'
  let body := if anchored && !escaped then body.drop 1 else body
  let directoriesOnly := body.getLast? == some '/'
  let body := if directoriesOnly then body.dropLast else body
  let body := if directoriesOnly && body.getLast? == some '\\' then body.dropLast else body
  (globExpression? (completeGlob anchored body)).map fun expression =>
    ⟨keeps, directoriesOnly, expression⟩

def ruleOfLine? (line : List Char) : Option Rule :=
  if line.head? == some '#' then none
  else
    let line := if "\\ ".toList.isSuffixOf line then line else Text.trimEnd line
    if line.isEmpty then none else readRule? line

/-- The rules of a file; a byte order mark at its start is no part of the first rule. -/
def Rules.ofContent (content : Content) : Rules :=
  match content.lines with
  | [] => []
  | first :: rest => ((first.dropWhile (· == '\ufeff')) :: rest).filterMap ruleOfLine?

/-- What the rules say about a path relative to their directory: whether it is kept (`true`) or left
out (`false`), if they say anything. -/
def Rules.verdict? (rules : Rules) (path : List String) (isDirectory : Bool) : Option Bool :=
  let bytes := ("/".intercalate path).toUTF8.toList
  let decides (rule : Rule) : Bool :=
    (!rule.directoriesOnly || isDirectory) && rule.expression.accepts bytes
  (rules.reverse.find? decides).map (·.keeps)

end CaptureLint.Ignore
