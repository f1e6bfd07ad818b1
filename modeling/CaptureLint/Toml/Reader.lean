import CaptureLint.Toml.Document
import CaptureLint.Toml.Number
import CaptureLint.Toml.Text

/-!
# Reading TOML documents

A document is a list of statements, each on lines of its own.  `read?` gives the table that they
define, if the text is a document and the statements fit together.
-/

namespace CaptureLint.Toml

/-! ## Keys -/

def isBareKeyChar (c : Char) : Bool := c.isAlphanum || c == '_' || c == '-'

def readKey? (text : List Char) : Option (String × List Char) :=
  match text with
  | '"' :: rest => readBasic [] rest
  | '\'' :: rest => readLiteral [] rest
  | _ =>
      let key := text.takeWhile isBareKeyChar
      if key.isEmpty then none else some (String.ofList key, text.drop key.length)

def readKeys? : Nat → List Char → Option (List String × List Char)
  | 0, _ => none
  | bound + 1, text => do
      let (key, rest) ← readKey? (skipSpace text)
      match skipSpace rest with
      | '.' :: rest => do
          let (keys, rest) ← readKeys? bound rest
          some (key :: keys, rest)
      | rest => some ([key], rest)

/-! ## Values -/

/-- The text after a comment, if it starts with one and the comment holds no forbidden character. -/
def skipComment? : List Char → Option (List Char)
  | '#' :: text =>
      let comment := text.takeWhile (· != '\n')
      let rest := text.drop comment.length
      let comment :=
        if !rest.isEmpty && comment.getLast? == some '\r' then comment.dropLast else comment
      if comment.any isForbidden then none
      else if rest.isEmpty then some [] else some rest
  | text => some text

/-- The text after blanks, newlines and comments; the first argument bounds the number of lines. -/
def skipLines? : Nat → List Char → Option (List Char)
  | 0, text => some text
  | bound + 1, text => do
      let rest ← skipComment? (skipSpace text)
      let next := dropNewline rest
      if next.length < rest.length then skipLines? bound next else some rest

mutual

/-- Reads a value inside of which arrays and tables may be nested `depth` deep; the first argument bounds
the number of values and items. -/
def readValue? : Nat → Nat → List Char → Option (Value × List Char)
  | 0, _, _ => none
  | bound + 1, depth, text =>
      match text, depth with
      | '[' :: rest, depth + 1 => readItems? bound depth [] rest
      | '{' :: rest, depth + 1 => readMembers? bound depth [] rest
      | '[' :: _, 0 | '{' :: _, 0 => none
      | '"' :: _, _ | '\'' :: _, _ => do
          let (value, rest) ← readString? text
          some (.string value, rest)
      | _, _ => readWord? text

def readItems? : Nat → Nat → List Value → List Char → Option (Value × List Char)
  | 0, _, _, _ => none
  | bound + 1, depth, items, text => do
      match ← skipLines? text.length text with
      | ']' :: rest => some (.array items.reverse, rest)
      | text => do
          let (item, rest) ← readValue? bound depth text
          match ← skipLines? rest.length rest with
          | ',' :: rest => readItems? bound depth (item :: items) rest
          | ']' :: rest => some (.array (item :: items).reverse, rest)
          | _ => none

def readMembers? : Nat → Nat → List (List String × Value) → List Char → Option (Value × List Char)
  | 0, _, _, _ => none
  | bound + 1, depth, read, text => do
      match ← skipLines? text.length text with
      | '}' :: rest => some (.table (← inlineTable? read.reverse), rest)
      | text => do
          let (keys, rest) ← readKeys? text.length text
          match rest with
          | '=' :: rest => do
              let (value, rest) ← readValue? bound depth (skipSpace rest)
              let read := (keys, value) :: read
              match ← skipLines? rest.length rest with
              | ',' :: rest => readMembers? bound depth read rest
              | '}' :: rest => some (.table (← inlineTable? read.reverse), rest)
              | _ => none
          | _ => none

end

def maxDepth : Nat := 80

/-! ## Statements -/

def readStatement? : List Char → Option (Statement × List Char)
  | '[' :: '[' :: text => do
      match ← readKeys? text.length text with
      | (keys, ']' :: ']' :: rest) => some (.tables keys, rest)
      | _ => none
  | '[' :: text => do
      match ← readKeys? text.length text with
      | (keys, ']' :: rest) => some (.table keys, rest)
      | _ => none
  | text => do
      match ← readKeys? text.length text with
      | (keys, '=' :: rest) => do
          let (value, rest) ← readValue? (rest.length + 1) maxDepth (skipSpace rest)
          some (.assign keys value, rest)
      | _ => none

def readStatements? : Nat → List Char → Option (List Statement)
  | 0, text => if text.isEmpty then some [] else none
  | bound + 1, text => do
      match ← skipLines? text.length text with
      | [] => some []
      | text => do
          let (statement, rest) ← readStatement? text
          -- Only a comment may stand between a statement and the end of its line.
          let rest ← skipComment? (skipSpace rest)
          let next := dropNewline rest
          if rest.isEmpty then some [statement]
          else if next.length < rest.length then
            some (statement :: (← readStatements? bound next))
          else none

/-- The table that a document defines.  A byte order mark at its start is left out. -/
def read? (text : String) : Option (List (String × Value)) := do
  let chars := text.toList
  let chars := if chars.head? = some '\ufeff' then chars.drop 1 else chars
  some (membersToValues (← defineAll? [] [] (← readStatements? (chars.length + 1) chars)))

end CaptureLint.Toml
