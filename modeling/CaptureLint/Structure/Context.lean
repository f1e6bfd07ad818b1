import CaptureLint.Token.Basic
import CaptureLint.Token.Keyword

/-!
# What stands around a bracket

The meaning of an opening bracket depends on the tokens around it: whether it follows something that
can be called or subscripted, whether a `[` starts a capture list or a dictionary.  Tokens before
the bracket are given newest first, tokens after it in source order; comments are left out of both.
-/

namespace CaptureLint

inductive Bracket where
  | round
  | square
  | curly
deriving DecidableEq, Repr

namespace Bracket

def opened? (token : Token) : Option Bracket :=
  if token.isPunctuation "(" then some round
  else if token.isPunctuation "[" then some square
  else if token.isPunctuation "\x7b" then some curly
  else none

def closed? (token : Token) : Option Bracket :=
  if token.isPunctuation ")" then some round
  else if token.isPunctuation "]" then some square
  else if token.isPunctuation "\x7d" then some curly
  else none

end Bracket

end CaptureLint

namespace CaptureLint.Structure

/-! ## Before a bracket -/

def isChainName (token : Token) : Bool :=
  match token.kind with
  | .identifier => true
  | .keyword => token.isAmong Keyword.callees
  | _ => false

/-- A `?` or `!` written right after the token before it. -/
def isSuffix (token : Token) (before : List Token) : Bool :=
  token.kind == .operator && (token.spells "?" || token.spells "!") &&
    before.head?.any fun previous => previous.stop == token.start

inductive Callee where
  /-- A chain of names whose first token starts here. -/
  | chain (start : Nat)
  /-- A chain that goes on from a group which ends at byte `stop`; `start` is where the chain after
  the group starts, if there is one. -/
  | group (stop : Nat) (start : Option Nat)
deriving DecidableEq, Repr

/-- Follows a chain such as `a?.b.c` backwards; `start` is where the part already seen starts. -/
def calleeFrom (start : Option Nat) : List Token → Option Callee
  | [] => start.map .chain
  | token :: before =>
      if isChainName token then
        match before with
        | dot :: before =>
            if dot.isSymbol "." then calleeFrom (some dot.start) before
            else some (.chain token.start)
        | [] => some (.chain token.start)
      else if isSuffix token before then calleeFrom (some token.start) before
      else if (Bracket.closed? token).isSome then some (.group token.stop start)
      else start.map .chain

def callee? (before : List Token) : Option Callee := calleeFrom none before

/-- Whether a `[` at byte `start` is a subscript: it follows a name or a suffix, or it is written
right after a closing bracket. -/
def followsCallee (before : List Token) (start : Nat) : Bool :=
  match before with
  | [] => false
  | token :: before =>
      isChainName token || isSuffix token before ||
        ((Bracket.closed? token).isSome && token.stop == start)

/-! ## After a bracket -/

/-- Whether a `:` stands directly between the brackets whose inside starts here; `depth` further
brackets are open. -/
def hasColon : Nat → List Token → Bool
  | _, [] => false
  | depth, token :: after =>
      if (Bracket.opened? token).isSome then hasColon (depth + 1) after
      else if (Bracket.closed? token).isSome then
        match depth with
        | 0 => false
        | depth + 1 => hasColon depth after
      else (depth == 0 && token.isPunctuation ":") || hasColon depth after

/-- The number of tokens up to and with the `]` that closes `depth` square brackets, unless a curly
bracket comes first. -/
def squareGroupLength? : Nat → List Token → Option Nat
  | _, [] => none
  | depth, token :: after =>
      if token.isPunctuation "[" then (squareGroupLength? (depth + 1) after).map (· + 1)
      else if token.isPunctuation "]" then
        if depth ≤ 1 then some 1 else (squareGroupLength? (depth - 1) after).map (· + 1)
      else if token.isPunctuation "\x7b" || token.isPunctuation "\x7d" then none
      else (squareGroupLength? depth after).map (· + 1)

/-- Whether the keyword `in` follows outside of round and square brackets, before a curly bracket, a
semicolon, or a closing bracket that was not opened. -/
def inFollows : Nat → List Token → Bool
  | _, [] => false
  | depth, token :: after =>
      if token.isKeyword "in" && depth == 0 then true
      else if token.isPunctuation "(" || token.isPunctuation "[" then inFollows (depth + 1) after
      else if token.isPunctuation ")" || token.isPunctuation "]" then
        match depth with
        | 0 => false
        | depth + 1 => inFollows depth after
      else if token.isPunctuation "\x7b" || token.isPunctuation "\x7d" || token.isPunctuation ";" then
        false
      else inFollows depth after

/-- The number of tokens of the capture list that a closure opens with, if it opens with one: a group
in square brackets that the `in` of a closure signature follows. -/
def captureListLength? (after : List Token) : Option Nat := do
  let first ← after.head?
  if first.isSymbol "[" then
    let length ← squareGroupLength? 0 after
    if inFollows 0 (after.drop length) then some length else none
  else none

end CaptureLint.Structure
