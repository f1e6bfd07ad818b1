import CaptureLint.Suppression.Directive
import CaptureLint.Token.Lexer

/-!
# Which lines are suppressed

The directives of a source text are read in order.  An end matches the most recent block that is
still open; a block that is never closed goes on to the end of the text.
-/

namespace CaptureLint.Suppression

/-- A range of lines, both ends included, in which some rules are suppressed. -/
structure Block where
  startLine : Nat
  /-- `none` for a block that is never closed. -/
  endLine : Option Nat
  terms : Terms
deriving DecidableEq, Repr

structure LineMark where
  /-- The line of the directive itself. -/
  line : Nat
  nextLine : Bool
  terms : Terms
deriving DecidableEq, Repr

structure Table where
  /-- Closed blocks in the order of their ends, then unclosed ones in the order of their starts. -/
  blocks : List Block
  /-- At most one mark for each line, by line. -/
  marks : List LineMark
deriving DecidableEq, Repr

namespace Terms

def covers (terms : Terms) (ruleId : String) : Bool :=
  terms.ruleIds.isEmpty || terms.ruleIds.any fun id => id == "*" || id == ruleId

end Terms

namespace Block

def holds (block : Block) (line : Nat) : Bool :=
  block.startLine ≤ line && block.endLine.all (line ≤ ·)

end Block

namespace LineMark

/-- The line that is suppressed. -/
def target (mark : LineMark) : Nat := if mark.nextLine then mark.line + 1 else mark.line

/-- Adds a mark, in the place of one for the same line. -/
def insert (mark : LineMark) : List LineMark → List LineMark
  | [] => [mark]
  | other :: marks =>
      if other.line < mark.line then other :: insert mark marks
      else if other.line = mark.line then mark :: marks
      else mark :: other :: marks

end LineMark

/-! ## Reading the directives -/

/-- What has been read: open blocks, newest first, closed blocks, newest first, and marks. -/
structure Reading where
  opened : List Block
  closed : List Block
  marks : List LineMark

namespace Reading

def initial : Reading := ⟨[], [], []⟩

/-- Takes up a directive on a line. -/
def take (reading : Reading) (line : Nat) : Directive → Reading
  | .ignore .block terms => { reading with opened := ⟨line, none, terms⟩ :: reading.opened }
  | .ignore .sameLine terms =>
      { reading with marks := LineMark.insert ⟨line, false, terms⟩ reading.marks }
  | .ignore .nextLine terms =>
      { reading with marks := LineMark.insert ⟨line, true, terms⟩ reading.marks }
  | .endBlock =>
      match reading.opened with
      | [] => reading
      | block :: opened =>
          { reading with opened, closed := { block with endLine := some line } :: reading.closed }

def takeAll (reading : Reading) : List (Nat × Directive) → Reading
  | [] => reading
  | (line, directive) :: rest => (reading.take line directive).takeAll rest

def table (reading : Reading) : Table :=
  ⟨reading.closed.reverse ++ reading.opened.reverse, reading.marks⟩

end Reading

def directives (source : Source) (tokens : List Token) : List (Nat × Directive) :=
  tokens.filterMap fun token => do
    if token.kind = .comment then
      some (source.lineOfByte token.start, ← Directive.ofComment? token.text)
    else none

namespace Table

def ofDirectives (directives : List (Nat × Directive)) : Table :=
  (Reading.initial.takeAll directives).table

def ofSource (source : Source) (tokens : List Token) : Table :=
  ofDirectives (directives source tokens)

def suppresses (table : Table) (line : Nat) (ruleId : String) : Bool :=
  (table.blocks.any fun block => block.holds line && block.terms.covers ruleId) ||
    table.marks.any fun mark => mark.target == line && mark.terms.covers ruleId

/-- The blocks that are never closed, in the order of their starts. -/
def unclosed (table : Table) : List Block := table.blocks.filter (·.endLine.isNone)

def size (table : Table) : Nat := table.blocks.length + table.marks.length

end Table

end CaptureLint.Suppression
