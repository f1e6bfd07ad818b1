/-!
# Log lines

What a computation reports beside its result: lines with a level and the channel they come from, in
the order in which they are written.  `Logged` collects them.
-/

namespace CaptureLint

inductive LogLevel where
  | error
  | warn
  | info
  | debug
  | trace
deriving DecidableEq, Repr

namespace LogLevel

def name : LogLevel → String
  | error => "ERROR"
  | warn => "WARN"
  | info => "INFO"
  | debug => "DEBUG"
  | trace => "TRACE"

/-- How much is written when this is the least urgent level let through. -/
def verbosity : LogLevel → Nat
  | error => 1
  | warn => 2
  | info => 3
  | debug => 4
  | trace => 5

end LogLevel

inductive LogChannel where
  | lint
  | rule
  | walk
  | configuration
  | check
  | init
deriving DecidableEq, Repr

def LogChannel.name : LogChannel → String
  | lint => "caplint::driver"
  | rule => "caplint::rules::unused_capture_list"
  | walk => "caplint::io::walker"
  | configuration => "caplint::config::loader"
  | check => "caplint::commands::check"
  | init => "caplint::commands::init"

structure LogLine where
  level : LogLevel
  channel : LogChannel
  text : String
deriving DecidableEq, Repr

def LogLine.render (line : LogLine) : String := s!"{line.level.name}: {line.text}"

/-- A value with the lines that were logged on the way to it. -/
structure Logged (α : Type) where
  value : α
  lines : List LogLine
deriving Repr

namespace Logged

instance : Monad Logged where
  pure value := ⟨value, []⟩
  bind first next :=
    let second := next first.value
    ⟨second.value, first.lines ++ second.lines⟩

def log (level : LogLevel) (channel : LogChannel) (text : String) : Logged Unit :=
  ⟨(), [⟨level, channel, text⟩]⟩

@[simp] theorem value_pure {α : Type} (value : α) : (pure value : Logged α).value = value := rfl

@[simp] theorem value_bind {α β : Type} (first : Logged α) (next : α → Logged β) :
    (first >>= next).value = (next first.value).value := rfl

@[simp] theorem lines_pure {α : Type} (value : α) : (pure value : Logged α).lines = [] := rfl

@[simp] theorem lines_bind {α β : Type} (first : Logged α) (next : α → Logged β) :
    (first >>= next).lines = first.lines ++ (next first.value).lines := rfl

end Logged

end CaptureLint
