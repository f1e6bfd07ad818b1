import CaptureLint.FileSystem.Basic

/-!
# Failures

The causes for which a command gives up, each with one wording.  `message` is the short form;
`detail` also names what a failure was caused by.
-/

namespace CaptureLint

/-- Why a glob pattern cannot be read, with the position of the fault in characters. -/
structure GlobFault where
  position : Nat
  reason : String
deriving DecidableEq, Repr

def GlobFault.message (fault : GlobFault) : String :=
  s!"Pattern syntax error near position {fault.position}: {fault.reason}"

inductive Failure where
  /-- A file or directory that could not be used, with what the system said if it was asked. -/
  | fileSystem (text : String) (cause : Option PathFault)
  | configuration (text : String)
  /-- Another failure, by its message, in a wider context. -/
  | within (context : String) (text : String)
  | pattern (fault : GlobFault)
  /-- What was said of an entry that could not be looked at. -/
  | walk (text : String)
  /-- What was said of a report that could not be printed. -/
  | printing (text : String)
  /-- What the system said, in a wider context if one is given. -/
  | system (context : Option String) (fault : PathFault)
  /-- A request that is refused. -/
  | refused (text : String)
deriving DecidableEq, Repr

namespace Failure

def message : Failure → String
  | fileSystem text _ => s!"File system error: {text}"
  | configuration text => s!"Configuration error: {text}"
  | within context text => s!"{context}: {text}"
  | pattern fault => fault.message
  | walk text | printing text => text
  | system none fault => fault.message
  | system (some context) _ => context
  | refused text => text

def detail (failure : Failure) : String :=
  match failure with
  | fileSystem _ (some cause) => s!"{failure.message}: {cause.message}"
  | system (some _) cause => s!"{failure.message}: {cause.message}"
  | _ => failure.message

def inContext (context : String) (failure : Failure) : Failure := .within context failure.message

end Failure

end CaptureLint
