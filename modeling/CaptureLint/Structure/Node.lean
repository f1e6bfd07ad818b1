import CaptureLint.Source.Range

/-!
# The structure of a program

A forest of the expressions that linting looks at: closures, calls, and array, dictionary and tuple
literals.  Statements leave no node; what they contain belongs to the expression around them.
`preorder` is the recursive traversal, parents before their children; `worklist` computes it with a
list of nodes still to be visited.
-/

namespace CaptureLint

inductive NodeKind where
  | closure
  | call
  | array
  | dictionary
  | tuple
deriving DecidableEq, Repr

namespace NodeKind

def name : NodeKind → String
  | closure => "closure"
  | call => "call"
  | array => "array"
  | dictionary => "dictionary"
  | tuple => "tuple"

end NodeKind

/-- An expression with the expressions inside it, in source order. -/
inductive Node where
  | mk (kind : NodeKind) (range : ByteRange) (children : List Node)

namespace Node

def kind : Node → NodeKind
  | mk kind _ _ => kind

def range : Node → ByteRange
  | mk _ range _ => range

def children : Node → List Node
  | mk _ _ children => children

def start (node : Node) : Nat := node.range.start

def stop (node : Node) : Nat := node.range.stop

mutual

def preorder : Node → List Node
  | mk kind range children => mk kind range children :: forestPreorder children

def forestPreorder : List Node → List Node
  | [] => []
  | node :: rest => node.preorder ++ forestPreorder rest

end

mutual

def size : Node → Nat
  | mk _ _ children => 1 + forestSize children

def forestSize : List Node → Nat
  | [] => 0
  | node :: rest => node.size + forestSize rest

end

mutual

def outline (depth : Nat) : Node → List (Nat × Node)
  | mk kind range children =>
      (depth, mk kind range children) :: forestOutline (depth + 1) children

def forestOutline (depth : Nat) : List Node → List (Nat × Node)
  | [] => []
  | node :: rest => node.outline depth ++ forestOutline depth rest

end

theorem size_eq (node : Node) : node.size = 1 + forestSize node.children := by
  cases node
  rfl

theorem forestSize_append (first second : List Node) :
    forestSize (first ++ second) = forestSize first + forestSize second := by
  induction first with
  | nil => simp [forestSize]
  | cons node first ih => simp [forestSize, ih, Nat.add_assoc]

/-- The nodes reached from a list of nodes to visit: the first of them, then its children before the
others. -/
def worklist : List Node → List Node
  | [] => []
  | node :: waiting => node :: worklist (node.children ++ waiting)
termination_by waiting => forestSize waiting
decreasing_by
  simp only [forestSize_append, forestSize, size_eq]
  omega

/-- The nodes of a structure in the order in which they are linted. -/
def visit (forest : List Node) : List Node := worklist forest

def closures (forest : List Node) : List Node := (visit forest).filter (·.kind == .closure)

end Node

end CaptureLint
