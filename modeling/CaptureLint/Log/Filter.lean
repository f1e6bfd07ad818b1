import CaptureLint.Log.Basic
import CaptureLint.Text.Blank
import CaptureLint.Text.Split

/-!
# Log filters

A filter is a list of directives `channel=level`, with a comma between them; of those whose name the
name of a channel starts with, the longest decides.  A directive without a name is for all channels.
After a slash a filter may name a text that lines must contain.
-/

namespace CaptureLint.Log

/-- Lets through lines of channels whose name starts with `name` up to a level; `none` lets nothing
through. -/
structure Directive where
  name : List Char
  level : Option LogLevel
deriving DecidableEq, Repr

structure Filter where
  directives : List Directive
  /-- A text that lines must contain. -/
  text : Option (List Char)
deriving DecidableEq, Repr

/-- A level by its name in any case, with `off` for none at all. -/
def readLevel? (word : List Char) : Option (Option LogLevel) :=
  let lower := String.ofList (word.map Char.toLower)
  [ ("off", none), ("error", some .error), ("warn", some .warn), ("info", some .info),
    ("debug", some .debug), ("trace", some .trace) ].lookup lower

/-- The directive that a part of a filter writes; a part that writes none is given back as the text to
complain about. -/
def readDirective (part : List Char) : Except (List Char) Directive :=
  match Text.split '=' part with
  | [word] =>
      match readLevel? word with
      | some level => .ok ⟨[], level⟩
      | none => .ok ⟨word, some .trace⟩
  | [name, level] =>
      let level := Text.trim level
      if level.isEmpty then .ok ⟨name, some .trace⟩
      else
        match readLevel? level with
        | some level => .ok ⟨name, level⟩
        | none => .error level
  | _ => .error part

/-- Adds a directive in the place of one with the same name. -/
def putDirective (directive : Directive) (directives : List Directive) : List Directive :=
  if directives.any (·.name == directive.name) then
    directives.map fun other => if other.name = directive.name then directive else other
  else directives ++ [directive]

def Filter.read (spec : String) : Filter × List String :=
  let ignored (part : List Char) : String :=
    s!"warning: invalid logging spec '{String.ofList part}', ignoring it\n"
  match Text.split '/' spec.toList with
  | directives :: rest =>
      if 1 < rest.length then
        (⟨[], none⟩, [s!"warning: invalid logging spec '{spec}' (too many '/'s), ignoring it\n"])
      else
        let parts := ((Text.split ',' directives).map Text.trim).filter (!·.isEmpty)
        let (directives, complaints) :=
          parts.foldl
            (fun (directives, complaints) part =>
              match readDirective part with
              | .ok directive => (putDirective directive directives, complaints)
              | .error part => (directives, complaints ++ [ignored part]))
            (([], []) : List Directive × List String)
        (⟨directives, rest.head?⟩, complaints)
  | [] => (⟨[], none⟩, [])

def contains (text part : List Char) : Bool :=
  part.isPrefixOf text ||
    match text with
    | [] => false
    | _ :: rest => contains rest part

def Filter.levelFor (filter : Filter) (channel : String) : Option LogLevel :=
  let fitting := filter.directives.filter fun directive => directive.name.isPrefixOf channel.toList
  if filter.directives.isEmpty then some .error
  else
    let longest := fitting.foldl
      (fun best directive =>
        match best with
        | none => some directive
        | some other =>
            if other.name.length ≤ directive.name.length then some directive else some other)
      (none : Option Directive)
    longest.bind (·.level)

def Filter.passes (filter : Filter) (line : LogLine) : Bool :=
  ((filter.levelFor line.channel.name).any fun level => line.level.verbosity ≤ level.verbosity) &&
    filter.text.all (contains line.text.toList)

def specFor (verbosity : Nat) : String :=
  let level :=
    match verbosity with
    | 0 => "warn"
    | 1 => "info"
    | 2 => "debug"
    | _ => "trace"
  s!"warn,caplint={level}"

end CaptureLint.Log
