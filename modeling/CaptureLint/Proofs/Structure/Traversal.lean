import CaptureLint.Proofs.Structure.Adoption
import CaptureLint.Proofs.Structure.Nesting

/-!
# The order of the visit

The nodes of a forest are visited with a stack: a node is taken from its top, and the children of the
node are put there in reverse.  This ends for every forest and visits the nodes in the order of the
recursive traversal, which is the lexicographic order of their places.  In the forest of a source text
it is the order of their starts too; the only nodes that start where the node before them does are
those that a call has adopted.
-/

namespace CaptureLint.Node

/-! ## The stack -/

def pop? (stack : List Node) : Option (Node × List Node) :=
  stack.getLast?.map fun top => (top, stack.dropLast ++ top.children.reverse)

/-- The nodes that are taken from a stack, in order, until it is empty. -/
inductive Drains : List Node → List Node → Prop where
  | done {stack : List Node} (empty : pop? stack = none) : Drains stack []
  | next {stack left visited : List Node} {top : Node} (taken : pop? stack = some (top, left))
      (others : Drains left visited) : Drains stack (top :: visited)

theorem pop?_reverse_cons (node : Node) (waiting : List Node) :
    pop? (node :: waiting).reverse = some (node, (node.children ++ waiting).reverse) := by
  rw [pop?, List.reverse_cons, List.getLast?_concat, List.dropLast_concat, List.reverse_append]
  rfl

/-- The stack is the list of waiting nodes from its end. -/
theorem drains_worklist (waiting : List Node) : Drains waiting.reverse (worklist waiting) := by
  induction waiting using worklist.induct with
  | case1 =>
      rw [worklist]
      exact .done rfl
  | case2 node waiting ih =>
      rw [worklist]
      exact .next (pop?_reverse_cons node waiting) ih

theorem Drains.unique {stack first second : List Node} (h : Drains stack first)
    (h' : Drains stack second) : first = second := by
  induction h generalizing second with
  | done empty =>
      cases h' with
      | done => rfl
      | next taken => cases empty.symm.trans taken
  | next taken others ih =>
      cases h' with
      | done empty => cases empty.symm.trans taken
      | next taken' others' =>
          cases taken.symm.trans taken'
          rw [ih others']

theorem drains_iff {forest visited : List Node} :
    Drains forest.reverse visited ↔ visited = visit forest := by
  constructor
  · intro h
    exact h.unique (drains_worklist forest)
  · rintro rfl
    exact drains_worklist forest

/-! ## Places -/

theorem forest_induction {motive : List Node → Prop} (nil : motive [])
    (cons : ∀ node rest, motive node.children → motive rest → motive (node :: rest)) :
    (forest : List Node) → motive forest
  | [] => nil
  | mk kind range children :: rest =>
      cons (mk kind range children) rest (forest_induction nil cons children)
        (forest_induction nil cons rest)

/-- The node at a place below a node.  The place is the way there, an index among the children of each
node on it. -/
def below? (node : Node) : List Nat → Option Node
  | [] => some node
  | index :: place => node.children[index]?.bind (below? · place)

/-- The node at a place of a forest, which starts with an index among the roots. -/
def nodeAt? (forest : List Node) : List Nat → Option Node
  | [] => none
  | index :: place => forest[index]?.bind (below? · place)

def placeUnder (index : Nat) (found : List Nat × Node) : List Nat × Node :=
  (index :: found.1, found.2)

mutual

def placed : Node → List (List Nat × Node)
  | mk kind range children => ([], mk kind range children) :: forestPlaced 0 children

/-- The nodes of a forest with their places, where its first root has the given index. -/
def forestPlaced (index : Nat) : List Node → List (List Nat × Node)
  | [] => []
  | node :: rest => node.placed.map (placeUnder index) ++ forestPlaced (index + 1) rest

end

variable {index : Nat} {forest : List Node} {place : List Nat} {node root : Node}

theorem placed_eq (node : Node) : node.placed = ([], node) :: forestPlaced 0 node.children := by
  cases node
  rfl

theorem map_forestPlaced (index : Nat) (forest : List Node) :
    (forestPlaced index forest).map Prod.snd = forestPreorder forest := by
  induction forest using forest_induction generalizing index with
  | nil => rfl
  | cons node rest hchildren hrest =>
      have hsnd : Prod.snd ∘ placeUnder index = Prod.snd := rfl
      rw [forestPlaced, List.map_append, List.map_map, hsnd, hrest, placed_eq, List.map_cons,
        hchildren, forestPreorder_cons, preorder_eq]

theorem nodeAt?_eq_some_iff : nodeAt? forest place = some node ↔
    ∃ index inner, place = (0 + index) :: inner ∧ nodeAt? forest (index :: inner) = some node := by
  constructor
  · intro h
    cases place with
    | nil => cases h
    | cons index inner => exact ⟨index, inner, by rw [Nat.zero_add], h⟩
  · rintro ⟨index, inner, rfl, h⟩
    rwa [Nat.zero_add]

theorem mem_forestPlaced : (place, node) ∈ forestPlaced index forest ↔
    ∃ offset inner, place = (index + offset) :: inner ∧
      nodeAt? forest (offset :: inner) = some node := by
  induction forest using forest_induction generalizing index place with
  | nil => simp [forestPlaced, nodeAt?]
  | cons root rest hchildren hrest =>
      have hroot : ∀ {inner}, (inner, node) ∈ root.placed ↔ root.below? inner = some node := by
        intro inner
        rw [placed_eq, List.mem_cons, hchildren, ← nodeAt?_eq_some_iff]
        cases inner with
        | nil => simp [below?, nodeAt?, eq_comm]
        | cons index inner => simp [below?, nodeAt?]
      rw [forestPlaced, List.mem_append, List.mem_map, hrest]
      constructor
      · rintro (⟨⟨inner, found⟩, hfound, heq⟩ | ⟨offset, inner, rfl, hfound⟩)
        · obtain ⟨rfl, rfl⟩ := Prod.mk.inj heq
          exact ⟨0, inner, rfl, hroot.mp hfound⟩
        · exact ⟨offset + 1, inner, by rw [Nat.add_assoc, Nat.add_comm 1], hfound⟩
      · rintro ⟨offset, inner, rfl, hfound⟩
        cases offset with
        | zero => exact .inl ⟨(inner, node), hroot.mpr hfound, rfl⟩
        | succ offset => exact .inr ⟨offset, inner, by rw [Nat.add_assoc, Nat.add_comm 1], hfound⟩

/-- In the traversal the places increase, each before the places further down. -/
theorem pairwise_forestPlaced (index : Nat) (forest : List Node) :
    (forestPlaced index forest).Pairwise fun first second => first.1 < second.1 := by
  induction forest using forest_induction generalizing index with
  | nil => exact .nil
  | cons root rest hchildren hrest =>
      have hroot : root.placed.Pairwise fun first second => first.1 < second.1 := by
        rw [placed_eq, List.pairwise_cons]
        refine ⟨?_, hchildren 0⟩
        rintro ⟨place, node⟩ hmem
        obtain ⟨offset, inner, rfl, -⟩ := mem_forestPlaced.mp hmem
        exact List.nil_lt_cons _ _
      rw [forestPlaced, List.pairwise_append, List.pairwise_map]
      refine ⟨hroot.imp fun hlt => List.cons_lt_cons_iff.mpr (.inr ⟨rfl, hlt⟩), hrest _, ?_⟩
      rintro first hfirst ⟨place, node⟩ hsecond
      obtain ⟨inner, -, rfl⟩ := List.mem_map.mp hfirst
      obtain ⟨offset, below, rfl, -⟩ := mem_forestPlaced.mp hsecond
      exact List.cons_lt_cons_iff.mpr (.inl (by omega))

/-! ## Subtrees -/

/-- Wherever a node is visited, everything below it comes next. -/
theorem subtree_of_preorder {front rest : List Node}
    (h : forestPreorder forest = front ++ node :: rest) :
    ∃ back, rest = forestPreorder node.children ++ back := by
  induction forest using forest_induction generalizing front rest with
  | nil => simp [forestPreorder] at h
  | cons root others hchildren hothers =>
      rw [forestPreorder_cons, preorder_eq, List.cons_append] at h
      cases front with
      | nil =>
          obtain ⟨rfl, rfl⟩ := List.cons.inj h
          exact ⟨_, rfl⟩
      | cons first front =>
          rcases List.append_eq_append_iff.mp (List.cons.inj h).2 with
            ⟨middle, hfront, hrest⟩ | ⟨middle, hbelow, hrest⟩
          · exact hothers hrest
          · cases middle with
            | nil => exact hothers (hrest.symm.trans (List.nil_append _).symm)
            | cons next middle =>
                obtain ⟨rfl, rfl⟩ := List.cons.inj hrest
                obtain ⟨back, rfl⟩ := hchildren hbelow
                exact ⟨_, List.append_assoc _ _ _⟩

end CaptureLint.Node

namespace CaptureLint.Structure

open Node

/-! ## Starts -/

/-- Where two nodes of a structure that are visited one after the other start together, the first has
adopted the second. -/
theorem adopts_of_start_eq (lineOf : Nat → Nat) {tokens : List Token}
    (hordered : Token.Ordered tokens) {front back : List Node} {first second : Node}
    (h : forestPreorder (ofTokens lineOf tokens) = front ++ first :: second :: back)
    (hstart : first.start = second.start) :
    Adopts (tokens.filter (!·.kind.isTrivia)) first second := by
  have hfirst : first ∈ forestPreorder (ofTokens lineOf tokens) := by
    rw [h]
    exact List.mem_append_right _ List.mem_cons_self
  obtain ⟨later, hsubtree⟩ := subtree_of_preorder h
  cases hchildren : first.children with
  | nil =>
      -- without children the first node would end before the second one starts
      have hprecedes := pairwise_precedes_ofTokens lineOf hordered
      rw [h, List.pairwise_append, List.pairwise_cons] at hprecedes
      have hhead := (hprecedes.2.1.1 second List.mem_cons_self).1
      have hstop : first.headStop = first.stop := by rw [headStop, hchildren]; rfl
      have hlt := (nested_of_mem_ofTokens lineOf hordered hfirst).1.start_lt_stop
      omega
  | cons child children =>
      rw [hchildren, forestPreorder_cons, preorder_eq] at hsubtree
      obtain ⟨rfl, -⟩ := List.cons.inj hsubtree
      have hleads := leads_of_mem_ofTokens lineOf hordered hfirst second
        (by rw [hchildren]; exact List.mem_cons_self)
      exact hleads.resolve_left (by omega)

end CaptureLint.Structure

namespace CaptureLint.Source

open Node Structure

/-- The visit of a forest ends and is its recursive traversal: it comes to every place of the forest
once, in lexicographic order, and everything below a node comes right after the node.  The closures
are those of the nodes visited.  In the forest of a source no node starts before one that is visited
earlier, and of two nodes visited one after the other that start together, the first is a call that has
adopted the second. -/
theorem visit_in_order :
    (∀ forest : List Node,
      (∀ visited, Drains forest.reverse visited ↔ visited = visit forest) ∧
      visit forest = forestPreorder forest ∧
      (∃ found : List (List Nat × Node), visit forest = found.map Prod.snd ∧
        found.Pairwise (fun first second => first.1 < second.1) ∧
        ∀ place node, (place, node) ∈ found ↔ nodeAt? forest place = some node) ∧
      (∀ front node rest, visit forest = front ++ node :: rest →
        ∃ back, rest = visit node.children ++ back) ∧
      closures forest = (visit forest).filter (·.kind == .closure)) ∧
    ∀ source : Source,
      (visit (source.structureOf source.tokens)).Pairwise
        (fun first second => first.start ≤ second.start) ∧
      ∀ front first second back,
        visit (source.structureOf source.tokens) = front ++ first :: second :: back →
        first.start = second.start →
        Adopts (source.tokens.filter (!·.kind.isTrivia)) first second := by
  refine ⟨fun forest => ?_, fun source => ?_⟩
  · refine ⟨fun visited => drains_iff, visit_eq_forestPreorder forest,
      ⟨forestPlaced 0 forest, ?_, pairwise_forestPlaced 0 forest, fun place node => ?_⟩, ?_, rfl⟩
    · rw [map_forestPlaced, visit_eq_forestPreorder]
    · rw [mem_forestPlaced, ← nodeAt?_eq_some_iff]
    · intro front node rest h
      rw [visit_eq_forestPreorder] at h
      obtain ⟨back, hback⟩ := subtree_of_preorder h
      exact ⟨back, by rw [hback, visit_eq_forestPreorder]⟩
  · have hordered := source.ordered_tokens
    rw [visit_eq_forestPreorder]
    refine ⟨?_, fun front first second back h => adopts_of_start_eq _ hordered h⟩
    refine (pairwise_precedes_ofTokens _ hordered).imp_of_mem ?_
    intro first second hfirst _ hprecedes
    exact Nat.le_trans (start_le_headStop (nested_of_mem_ofTokens _ hordered hfirst).1) hprecedes.1

def calledTwice : Source := ⟨none, "f(a)(b)".toList⟩

/-- The call that is called starts together with its own call, and is visited after it. -/
theorem visit_in_order_of_calls : ∃ outer inner,
    visit (calledTwice.structureOf calledTwice.tokens) = [] ++ outer :: inner :: [] ∧
      outer.start = inner.start ∧
      Adopts (calledTwice.tokens.filter (!·.kind.isTrivia)) outer inner := by
  have hshape : (forestPreorder (calledTwice.structureOf calledTwice.tokens)).map
      (fun node => (node.kind, node.range)) = [(.call, ⟨0, 7⟩), (.call, ⟨0, 4⟩)] := by
    decide +kernel
  rw [← visit_eq_forestPreorder] at hshape
  obtain ⟨outer, rest, hvisit, houter, hrest⟩ := List.map_eq_cons_iff.mp hshape
  obtain ⟨inner, rest, rfl, hinner, hrest⟩ := List.map_eq_cons_iff.mp hrest
  obtain rfl := List.map_eq_nil_iff.mp hrest
  have hstart : outer.start = inner.start := by
    rw [Node.start, (Prod.mk.inj houter).2, Node.start, (Prod.mk.inj hinner).2]
  exact ⟨outer, inner, hvisit, hstart,
    (visit_in_order.2 calledTwice).2 [] outer inner [] hvisit hstart⟩

end CaptureLint.Source
