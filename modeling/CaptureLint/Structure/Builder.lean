import CaptureLint.Structure.Context
import CaptureLint.Structure.Node

/-!
# Building the structure

The tokens are read once from left to right.  Every opening bracket suspends the list of nodes it
stands in and starts a new one; the closing bracket puts the finished node, or for brackets that
leave no node the inner nodes themselves, into the suspended list.  A closing bracket that does not
fit ends every group up to the one it fits, or all of them and nothing else at file level; a group
that is never closed ends with the last token inside it.
-/

namespace CaptureLint.Structure

/-- What a `\x7b` further on would belong to. -/
inductive Pending where
  | nothing
  /-- A header such as `if …` or `func …` that waits for its body. -/
  | body
  /-- A `var` declaration on a line, which may turn out to have a computed value. -/
  | variable (line : Nat)
deriving DecidableEq, Repr

/-- The nodes found so far between two brackets, newest first. -/
structure Level where
  nodes : List Node
  pending : Pending

structure Group where
  bracket : Bracket
  /-- The kind and the start of the node that the group becomes; none for bodies of statements and
  for subscripts. -/
  becomes : Option (NodeKind × Nat)
  /-- The level in which the group stands. -/
  outer : Level

/-- The tokens read so far and what they have opened. -/
structure Builder where
  before : List Token
  /-- The number of tokens of a capture list that come next. -/
  captures : Nat
  level : Level
  /-- The open groups, innermost first. -/
  groups : List Group

namespace Level

def empty : Level := ⟨[], .nothing⟩

end Level

namespace Group

/-- The outer level after the group has ended at byte `stop` with `inner` inside it. -/
def finish (group : Group) (inner : List Node) (stop : Nat) : Level :=
  match group.becomes with
  | none => { group.outer with nodes := inner ++ group.outer.nodes }
  | some (kind, start) =>
      let node := Node.mk kind (.between start stop) inner.reverse
      { group.outer with nodes := node :: group.outer.nodes }

end Group

namespace Builder

def initial : Builder := ⟨[], 0, .empty, []⟩

def lastStop (builder : Builder) : Nat := (builder.before.head?.map Token.stop).getD 0

/-! ## Braces -/

/-- Signs after which a `\x7b` starts an expression, whatever is pending. -/
def forcesClosure (previous : Token) : Bool :=
  match previous.kind with
  | .punctuation =>
      ["(", "[", ",", ":", "\x7b", ";"].contains (String.ofList previous.text)
  | .operator => !(previous.spells "?" || previous.spells "!" || previous.spells ">")
  | .keyword => previous.isAmong Keyword.beforeExpression
  | _ => false

/-- Whether a `\x7b` at byte `start` opens the body of a statement or declaration rather than a
closure. -/
def opensBody (lineOf : Nat → Nat) (pending : Pending) (before : List Token) (start : Nat) : Bool :=
  match before with
  | [] => false
  | previous :: _ =>
      if previous.kind.isName && previous.isAmong Keyword.bodyOpeners then true
      else if forcesClosure previous then false
      else
        match pending with
        | .nothing => false
        | .body => true
        | .variable declared => lineOf start == declared

/-! ## Tokens that are no brackets -/

/-- Whether a token is a member name, `.name`, or the base of a member, `name.`. -/
def isMember (before after : List Token) : Bool :=
  before.head?.any (·.isSymbol ".") || after.head?.any (·.isSymbol ".")

def pendingAfter (lineOf : Nat → Nat) (pending : Pending) (before : List Token) (token : Token)
    (after : List Token) : Pending :=
  if token.isPunctuation ";" then .nothing
  else if token.kind == .keyword && !isMember before after && token.isAmong Keyword.headers then
    .body
  else if token.isKeyword "var" && !isMember before after && pending == .nothing then
    .variable (lineOf token.start)
  else
    match pending with
    | .variable _ => if token.isSymbol "=" then .nothing else pending
    | _ => pending

/-! ## Opening and closing -/

def openGroup (builder : Builder) (bracket : Bracket) (becomes : Option (NodeKind × Nat))
    (outer : Level) (inner : List Node) : Builder :=
  { builder with
    level := ⟨inner, .nothing⟩
    groups := ⟨bracket, becomes, outer⟩ :: builder.groups }

/-- Opens a `(` at byte `start`.  Arguments of a group that was the last node found adopt this node as
the first inside the call. -/
def openRound (builder : Builder) (start : Nat) : Builder :=
  let level := builder.level
  match callee? builder.before with
  | none => builder.openGroup .round (some (.tuple, start)) level []
  | some (.chain first) => builder.openGroup .round (some (.call, first)) level []
  | some (.group stop first) =>
      match level.nodes with
      | last :: older =>
          if last.stop = stop then
            builder.openGroup .round (some (.call, last.start)) { level with nodes := older } [last]
          else builder.openGroup .round (some (.call, first.getD start)) level []
      | [] => builder.openGroup .round (some (.call, first.getD start)) level []

def openSquare (builder : Builder) (start : Nat) (after : List Token) : Builder :=
  let becomes :=
    if followsCallee builder.before start then none
    else some (if hasColon 0 after then .dictionary else .array, start)
  builder.openGroup .square becomes builder.level []

/-- Opens a `\x7b` at byte `start`.  The tokens of a capture list are left to be passed over. -/
def openCurly (lineOf : Nat → Nat) (builder : Builder) (start : Nat) (after : List Token) : Builder :=
  let level := builder.level
  if opensBody lineOf level.pending builder.before start then
    builder.openGroup .curly none { level with pending := .nothing } []
  else
    { builder.openGroup .curly (some (.closure, start)) level [] with
      captures := (captureListLength? after).getD 0 }

/-- The levels after a closing bracket which ends at byte `stop`: groups that it does not fit end at
`lastStop`. -/
def closeGroups (bracket : Bracket) (lastStop stop : Nat) : Level → List Group → Level × List Group
  | level, [] => (level, [])
  | level, group :: groups =>
      if group.bracket = bracket then (group.finish level.nodes stop, groups)
      else closeGroups bracket lastStop stop (group.finish level.nodes lastStop) groups

def closeAll (lastStop : Nat) : Level → List Group → Level
  | level, [] => level
  | level, group :: groups => closeAll lastStop (group.finish level.nodes lastStop) groups

/-! ## Reading tokens -/

def act (lineOf : Nat → Nat) (builder : Builder) (token : Token) (after : List Token) : Builder :=
  match Bracket.opened? token, Bracket.closed? token with
  | some .round, _ => builder.openRound token.start
  | some .square, _ => builder.openSquare token.start after
  | some .curly, _ => builder.openCurly lineOf token.start after
  | none, some bracket =>
      let (level, groups) :=
        closeGroups bracket builder.lastStop token.stop builder.level builder.groups
      { builder with level, groups }
  | none, none =>
      let level := builder.level
      let pending := pendingAfter lineOf level.pending builder.before token after
      { builder with level := { level with pending } }

def step (lineOf : Nat → Nat) (builder : Builder) (token : Token) (after : List Token) : Builder :=
  let next :=
    match builder.captures with
    | 0 => builder.act lineOf token after
    | captures + 1 => { builder with captures }
  { next with before := token :: builder.before }

def run (lineOf : Nat → Nat) : Builder → List Token → Builder
  | builder, [] => builder
  | builder, token :: after => run lineOf (builder.step lineOf token after) after

/-- The forest when the text ends here. -/
def result (builder : Builder) : List Node :=
  (closeAll builder.lastStop builder.level builder.groups).nodes.reverse

end Builder

/-- The structure of a list of tokens; `lineOf` gives the line of a byte offset. -/
def ofTokens (lineOf : Nat → Nat) (tokens : List Token) : List Node :=
  (Builder.initial.run lineOf (tokens.filter (!·.kind.isTrivia))).result

end CaptureLint.Structure

namespace CaptureLint.Source

def structureOf (source : Source) (tokens : List Token) : List Node :=
  Structure.ofTokens source.lineOfByte tokens

end CaptureLint.Source
