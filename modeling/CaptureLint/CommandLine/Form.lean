/-!
# Reading arguments by a form

A form says which options and flags a command has, long (`--name`) and short (`-n`), and what its
other words are.  The value of an option is written after `=`, for short options also right after the
letter, or is the next word, unless that looks like an option itself.  Short options can be written in
one word.  After `--` every word is taken as it is.

A value that is a word of its own is held back and used when the next known argument or the end comes,
so an unknown argument is reported before an unfit value that stands before it.
-/

namespace CaptureLint.CommandLine

inductive UsageError where
  | unknownArgument
  | invalidValue
  | argumentConflict
  | tooManyValues
  | invalidSubcommand
  | missingSubcommand
  | helpRequested
  | versionRequested
deriving DecidableEq, Repr

/-- The options and flags of a command with settings of type `α`, named by keys of type `κ`. -/
structure Form (κ α : Type) where
  long? : String → Option κ
  short? : Char → Option κ
  takesValue : κ → Bool
  /-- What words that are neither options nor values are for, if they are for anything. -/
  words? : Option κ
  /-- Sets what a key stands for, with the values that are given. -/
  assign : κ → List String → α → Except UsageError α

namespace Form

variable {κ α : Type} [DecidableEq κ]

/-- The settings so far, and values that are held back. -/
structure Reading (κ α : Type) where
  settings : α
  held : Option (κ × List String)

namespace Reading

def settle (form : Form κ α) (reading : Reading κ α) : Except UsageError (Reading κ α) :=
  match reading.held with
  | none => .ok reading
  | some (key, values) => do .ok ⟨← form.assign key values reading.settings, none⟩

def assign (form : Form κ α) (reading : Reading κ α) (key : κ) (values : List String) :
    Except UsageError (Reading κ α) := do
  let reading ← reading.settle form
  .ok ⟨← form.assign key values reading.settings, none⟩

def hold (form : Form κ α) (reading : Reading κ α) (key : κ) (values : List String) :
    Except UsageError (Reading κ α) := do
  let reading ← reading.settle form
  .ok ⟨reading.settings, some (key, values)⟩

/-- The option whose value has to be the next word. -/
def awaiting? (form : Form κ α) (reading : Reading κ α) : Option κ :=
  match reading.held with
  | some (key, []) => if form.takesValue key then some key else none
  | _ => none

end Reading

def readWord (form : Form κ α) (reading : Reading κ α) (word : String) :
    Except UsageError (Reading κ α) :=
  match form.words?, reading.held with
  | none, _ => .error .unknownArgument
  | some key, some (held, values) =>
      if held = key then .ok { reading with held := some (key, values ++ [word]) }
      else reading.hold form key [word]
  | some key, none => reading.hold form key [word]

def splitLong (body : List Char) : String × Option String :=
  let name := body.takeWhile (· != '=')
  let value := if name.length < body.length then some (body.drop (name.length + 1)) else none
  (String.ofList name, value.map String.ofList)

def readLong (form : Form κ α) (reading : Reading κ α) (body : List Char) :
    Except UsageError (Reading κ α) :=
  let (name, value) := splitLong body
  match form.long? name with
  | none => .error .unknownArgument
  | some key =>
      match value with
      | none =>
          if form.takesValue key then reading.hold form key [] else reading.assign form key []
      | some value =>
          if form.takesValue key then reading.assign form key [value] else .error .tooManyValues

def readShort (form : Form κ α) (reading : Reading κ α) :
    List Char → Except UsageError (Reading κ α)
  | [] => .ok reading
  | c :: rest =>
      match form.short? c with
      | none => .error .unknownArgument
      | some key =>
          if form.takesValue key then
            match rest with
            | [] => reading.hold form key []
            | '=' :: value => reading.assign form key [String.ofList value]
            | value => reading.assign form key [String.ofList value]
          else do readShort form (← reading.assign form key []) rest

/-- Reads words; `literally` tells whether `--` has come. -/
def readWords (form : Form κ α) (literally : Bool) (reading : Reading κ α) :
    List String → Except UsageError (Reading κ α)
  | [] => reading.settle form
  | word :: words => do
      if literally then
        readWords form true (← readWord form reading word) words
      else
        match word.toList with
        | ['-', '-'] => readWords form true reading words
        | '-' :: '-' :: body => readWords form false (← readLong form reading body) words
        | ['-'] | [] => readWords form false (← readValueOrWord reading word) words
        | '-' :: letters => readWords form false (← readShort form reading letters) words
        | _ => readWords form false (← readValueOrWord reading word) words
where
  /-- A word that does not look like an option. -/
  readValueOrWord (reading : Reading κ α) (word : String) : Except UsageError (Reading κ α) :=
    match reading.awaiting? form with
    | some key => .ok { reading with held := some (key, [word]) }
    | none => readWord form reading word

def read (form : Form κ α) (settings : α) (words : List String) : Except UsageError α := do
  .ok (← readWords form false ⟨settings, none⟩ words).settings

end Form

end CaptureLint.CommandLine
