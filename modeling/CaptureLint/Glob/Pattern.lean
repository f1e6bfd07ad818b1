import CaptureLint.Failure

/-!
# Glob patterns

The patterns of the configuration that exclude files.  `?` stands for one character and `*` for any
text, slashes included; `[…]` and `[!…]` are classes of characters; `**` must be a whole component
of the pattern and stands for any number of directories, or at the end for everything below.
-/

namespace CaptureLint.Glob

inductive Specifier where
  | single (c : Char)
  | range (first last : Char)
deriving DecidableEq, Repr

inductive Token where
  | char (c : Char)
  | anyChar
  | anySequence
  /-- Any number of whole directories. -/
  | anyDirectories
  | within (specifiers : List Specifier)
  | except (specifiers : List Specifier)
deriving DecidableEq, Repr

structure Pattern where
  tokens : List Token
deriving DecidableEq, Repr

/-! ## Reading -/

def starsReason : String := "wildcards are either regular `*` or recursive `**`"

def componentReason : String := "recursive wildcards must form a single path component"

def classReason : String := "invalid range pattern"

def specifiers : List Char → List Specifier
  | first :: '-' :: last :: text => .range first last :: specifiers text
  | c :: text => .single c :: specifiers text
  | [] => []

/-- The class that `[` opens before `text`, with the number of characters after `[` that it takes.  The
first character of a class never closes it. -/
def class? (text : List Char) : Option (Token × Nat) :=
  match text with
  | '!' :: first :: rest =>
      let inside := rest.takeWhile (· != ']')
      if inside.length < rest.length then
        some (.except (specifiers (first :: inside)), inside.length + 3)
      else none
  | '!' :: [] => none
  | first :: rest =>
      let inside := rest.takeWhile (· != ']')
      if inside.length < rest.length then
        some (.within (specifiers (first :: inside)), inside.length + 2)
      else none
  | [] => none

/-- Adds `**`, which right after another one adds nothing unless it is only the second token. -/
def pushDirectories (read : List Token) : List Token :=
  if 1 < read.length ∧ read.head? = some .anyDirectories then read else .anyDirectories :: read

/-- Reads a pattern from `position` on; `previous` is the character before and `read` the tokens so
far, newest first. -/
def readFrom (position : Nat) (previous : Option Char) (read : List Token) (text : List Char) :
    Except GlobFault (List Token) :=
  match text with
  | [] => .ok read.reverse
  | '?' :: rest => readFrom (position + 1) (some '?') (.anyChar :: read) rest
  | '*' :: '*' :: '*' :: _ => .error ⟨position + 2, starsReason⟩
  | ['*', '*'] =>
      if previous.all (· == '/') then .ok (pushDirectories read).reverse
      else .error ⟨position - 1, componentReason⟩
  | '*' :: '*' :: next :: rest =>
      if !previous.all (· == '/') then .error ⟨position - 1, componentReason⟩
      else if next = '/' then readFrom (position + 3) (some '/') (pushDirectories read) rest
      else .error ⟨position + 2, componentReason⟩
  | '*' :: rest => readFrom (position + 1) (some '*') (.anySequence :: read) rest
  | '[' :: rest =>
      match class? rest with
      | some (token, length) =>
          readFrom (position + 1 + length) (some ']') (token :: read) (rest.drop length)
      | none => .error ⟨position, classReason⟩
  | c :: rest => readFrom (position + 1) (some c) (.char c :: read) rest
termination_by text.length
decreasing_by
  all_goals simp only [List.length_cons, List.length_drop]
  all_goals omega

def Pattern.read (text : String) : Except GlobFault Pattern := do
  .ok ⟨← readFrom 0 none [] text.toList⟩

/-! ## Matching -/

namespace Specifier

def holds (c : Char) : Specifier → Bool
  | single expected => c == expected
  | range first last => first ≤ c && c ≤ last

end Specifier

def Token.accepts (c : Char) : Token → Bool
  | char expected => c == expected
  | anyChar => true
  | within specifiers => specifiers.any (·.holds c)
  | except specifiers => !specifiers.any (·.holds c)
  | anySequence | anyDirectories => false

def tails : List Char → List (List Char)
  | [] => [[]]
  | c :: text => (c :: text) :: tails text

/-- The ends of a text at which directories can end: all of it, what follows each slash, and nothing. -/
def directoryTails : List Char → List (List Char)
  | text => text :: inner text
where
  /-- What follows each slash of a text, and nothing. -/
  inner : List Char → List (List Char)
    | [] => [[]]
    | c :: text => if c = '/' then text :: inner text else inner text

def matchTokens : List Token → List Char → Bool
  | [], text => text.isEmpty
  | .anySequence :: tokens, text => (tails text).any (matchTokens tokens)
  | .anyDirectories :: tokens, text => (directoryTails text).any (matchTokens tokens)
  | _ :: _, [] => false
  | token :: tokens, c :: text => token.accepts c && matchTokens tokens text

def Pattern.accepts (pattern : Pattern) (path : String) : Bool :=
  matchTokens pattern.tokens path.toList

end CaptureLint.Glob
