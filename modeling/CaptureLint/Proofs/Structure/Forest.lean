import CaptureLint.Structure.Node
import CaptureLint.Token.Basic

/-!
# Nested forests

What the nodes of a forest owe to their children and to their neighbours, and what follows for any
two nodes of the forest.  `Nested` and `Apart` speak of one node and of one row of siblings; the
traversal order turns them into `Precedes`, which holds of any two nodes in the order of the
traversal.
-/

namespace CaptureLint.Node

/-! ## Traversal -/

theorem preorder_eq (node : Node) : node.preorder = node :: forestPreorder node.children := by
  cases node
  rfl

theorem forestPreorder_cons (node : Node) (forest : List Node) :
    forestPreorder (node :: forest) = node.preorder ++ forestPreorder forest := rfl

theorem forestPreorder_append (first second : List Node) :
    forestPreorder (first ++ second) = forestPreorder first ++ forestPreorder second := by
  induction first with
  | nil => rfl
  | cons node first ih =>
      rw [List.cons_append, forestPreorder_cons, forestPreorder_cons, ih, List.append_assoc]

theorem forestPreorder_singleton (node : Node) : forestPreorder [node] = node.preorder := by
  rw [forestPreorder_cons, forestPreorder, List.append_nil]

theorem forall_mem_forestPreorder_append {holds : Node → Prop} {first second : List Node} :
    (∀ node ∈ forestPreorder (first ++ second), holds node) ↔
      (∀ node ∈ forestPreorder first, holds node) ∧ ∀ node ∈ forestPreorder second, holds node := by
  rw [forestPreorder_append, List.forall_mem_append]

theorem forall_mem_forestPreorder_cons {holds : Node → Prop} {node : Node} {rest : List Node} :
    (∀ other ∈ forestPreorder (node :: rest), holds other) ↔
      (holds node ∧ ∀ other ∈ forestPreorder node.children, holds other) ∧
        ∀ other ∈ forestPreorder rest, holds other := by
  rw [forestPreorder_cons, preorder_eq, List.forall_mem_append, List.forall_mem_cons]

theorem mem_forestPreorder {node : Node} {forest : List Node} :
    node ∈ forestPreorder forest ↔ ∃ root ∈ forest, node ∈ root.preorder := by
  induction forest with
  | nil => simp [forestPreorder]
  | cons root forest ih => simp [forestPreorder_cons, ih]

theorem mem_forestPreorder_reverse {node : Node} {forest : List Node} :
    node ∈ forestPreorder forest.reverse ↔ node ∈ forestPreorder forest := by
  simp [mem_forestPreorder]

/-- A node made from the nodes of a level, which are given newest first. -/
theorem forall_mem_forestPreorder_mk {holds : Node → Prop} {kind : NodeKind} {range : ByteRange}
    {nodes : List Node} :
    (∀ node ∈ forestPreorder [mk kind range nodes.reverse], holds node) ↔
      holds (mk kind range nodes.reverse) ∧ ∀ node ∈ forestPreorder nodes, holds node := by
  rw [forestPreorder_singleton, preorder_eq, List.forall_mem_cons]
  refine and_congr_right fun _ => forall_congr' fun node => ?_
  rw [← @mem_forestPreorder_reverse node nodes]
  rfl

/-- The work list visits the nodes in the order of the recursive traversal. -/
theorem worklist_eq_forestPreorder (forest : List Node) :
    worklist forest = forestPreorder forest := by
  induction forest using worklist.induct with
  | case1 => rw [worklist, forestPreorder]
  | case2 node waiting ih =>
      rw [worklist, ih, forestPreorder_append, forestPreorder_cons, preorder_eq, List.cons_append]

theorem visit_eq_forestPreorder (forest : List Node) : visit forest = forestPreorder forest :=
  worklist_eq_forestPreorder forest

theorem closures_eq_filter (forest : List Node) :
    closures forest = (forestPreorder forest).filter (·.kind == .closure) := by
  rw [closures, visit_eq_forestPreorder]

theorem closures_append (first second : List Node) :
    closures (first ++ second) = closures first ++ closures second := by
  rw [closures_eq_filter, closures_eq_filter, closures_eq_filter, forestPreorder_append,
    List.filter_append]

theorem mem_closures {node : Node} {forest : List Node} :
    node ∈ closures forest ↔ node ∈ forestPreorder forest ∧ node.kind = .closure := by
  rw [closures_eq_filter, List.mem_filter, beq_iff_eq]

theorem self_mem_preorder (node : Node) : node ∈ node.preorder := by
  rw [preorder_eq]
  exact List.mem_cons_self

theorem mem_preorder_of_below {root node : Node} (h : node ∈ forestPreorder root.children) :
    node ∈ root.preorder := by
  rw [preorder_eq]
  exact List.mem_cons_of_mem _ h

mutual

theorem preorder_of_mem {node inner : Node} (hinner : inner ∈ node.preorder) :
    (root : Node) → node ∈ root.preorder → inner ∈ root.preorder
  | mk kind range children => by
      intro hnode
      rw [preorder_eq, List.mem_cons] at hnode
      rcases hnode with rfl | hnode
      · exact hinner
      · exact mem_preorder_of_below (forestPreorder_of_mem hinner children hnode)

theorem forestPreorder_of_mem {node inner : Node} (hinner : inner ∈ node.preorder) :
    (forest : List Node) → node ∈ forestPreorder forest → inner ∈ forestPreorder forest
  | [] => by simp [forestPreorder]
  | root :: forest => by
      intro hnode
      rw [forestPreorder_cons, List.mem_append] at hnode ⊢
      exact hnode.imp (preorder_of_mem hinner root) (forestPreorder_of_mem hinner forest)

end

theorem forestPreorder_of_child {node child : Node} (hchild : child ∈ node.children)
    (forest : List Node) (hnode : node ∈ forestPreorder forest) : child ∈ forestPreorder forest :=
  forestPreorder_of_mem
    (mem_preorder_of_below (mem_forestPreorder.mpr ⟨child, hchild, child.self_mem_preorder⟩))
    forest hnode

/-! ## One node and one row -/

def Apart (siblings : List Node) : Prop :=
  siblings.Pairwise fun first second => first.stop ≤ second.start

def Within (inner outer : Node) : Prop :=
  outer.start ≤ inner.start ∧ inner.stop ≤ outer.stop ∧ inner.range ≠ outer.range

/-- A node that is not empty, with its children inside it and apart from each other. -/
structure Nested (node : Node) : Prop where
  start_lt_stop : node.start < node.stop
  within : ∀ child ∈ node.children, child.Within node
  apart : Apart node.children

/-- The byte offset before which nothing of a node belongs to an expression inside it. -/
def headStop (node : Node) : Nat := (node.children.head?.map start).getD node.stop

/-- What holds of two nodes of a forest that are visited in this order: the second one starts after
the head of the first, and it follows the first or lies inside it. -/
def Precedes (first second : Node) : Prop :=
  first.headStop ≤ second.start ∧ (first.stop ≤ second.start ∨ second.Within first)

theorem range_eq_iff {first second : Node} :
    first.range = second.range ↔ first.start = second.start ∧ first.stop = second.stop := by
  simp only [start, stop, ByteRange.stop]
  rcases first.range with ⟨s, l⟩
  rcases second.range with ⟨s', l'⟩
  simp only [ByteRange.mk.injEq]
  omega

theorem start_le_stop (node : Node) : node.start ≤ node.stop := Nat.le_add_right _ _

theorem within_iff {inner outer : Node} :
    inner.Within outer ↔ outer.start ≤ inner.start ∧ inner.stop ≤ outer.stop ∧
      (outer.start < inner.start ∨ inner.stop < outer.stop) := by
  rw [Within, ne_eq, range_eq_iff]
  omega

theorem start_le_headStop {node : Node} (h : node.Nested) : node.start ≤ node.headStop := by
  unfold headStop
  cases hchildren : node.children with
  | nil => exact node.start_le_stop
  | cons child children =>
      exact (h.within child (by rw [hchildren]; exact List.mem_cons_self)).1

theorem headStop_le_stop {node : Node} (h : node.Nested) : node.headStop ≤ node.stop := by
  unfold headStop
  cases hc : node.children with
  | nil => exact Nat.le_refl _
  | cons child children =>
      have hchild := within_iff.mp (h.within child (by rw [hc]; exact List.mem_cons_self))
      have hle := child.start_le_stop
      simp only [List.head?_cons, Option.map_some, Option.getD_some]
      omega

theorem headStop_le_start {node child : Node} (h : node.Nested) (hc : child ∈ node.children) :
    node.headStop ≤ child.start := by
  have hapart := h.apart
  unfold headStop
  cases hcs : node.children with
  | nil => simp [hcs] at hc
  | cons first children =>
      rw [hcs] at hc hapart
      simp only [List.head?_cons, Option.map_some, Option.getD_some]
      rcases List.mem_cons.mp hc with rfl | hmem
      · exact Nat.le_refl _
      · have hfirst := (List.pairwise_cons.mp hapart).1 child hmem
        have hle := first.start_le_stop
        omega

/-! ## The whole forest -/

mutual

theorem bounds_of_mem_preorder : (root : Node) → (∀ node ∈ root.preorder, node.Nested) →
    ∀ node ∈ root.preorder, root.start ≤ node.start ∧ node.stop ≤ root.stop
  | mk kind range children => by
      intro hnested node hnode
      rw [preorder_eq, List.mem_cons] at hnode
      rcases hnode with rfl | hnode
      · exact ⟨Nat.le_refl _, Nat.le_refl _⟩
      · have hroot := hnested _ (by rw [preorder_eq]; exact List.mem_cons_self)
        obtain ⟨child, hchild, hstart, hstop⟩ := bounds_of_mem_forestPreorder children
          (fun node hmem => hnested node (by rw [preorder_eq]; exact List.mem_cons_of_mem _ hmem))
          node hnode
        have hwithin := within_iff.mp (hroot.within child hchild)
        exact ⟨by omega, by omega⟩

theorem bounds_of_mem_forestPreorder : (forest : List Node) →
    (∀ node ∈ forestPreorder forest, node.Nested) →
    ∀ node ∈ forestPreorder forest, ∃ root ∈ forest, root.start ≤ node.start ∧ node.stop ≤ root.stop
  | [] => by
      intro _ node hnode
      simp [forestPreorder] at hnode
  | root :: forest => by
      intro hnested node hnode
      rw [forestPreorder_cons, List.mem_append] at hnode
      rcases hnode with hnode | hnode
      · exact ⟨root, List.mem_cons_self, bounds_of_mem_preorder root
          (fun node hmem => hnested node (by
            rw [forestPreorder_cons]; exact List.mem_append_left _ hmem)) node hnode⟩
      · obtain ⟨other, hother, hbounds⟩ := bounds_of_mem_forestPreorder forest
          (fun node hmem => hnested node (by
            rw [forestPreorder_cons]; exact List.mem_append_right _ hmem)) node hnode
        exact ⟨other, List.mem_cons_of_mem _ hother, hbounds⟩

end

theorem within_of_mem_below {root node : Node} (hroot : root.Nested)
    (hbelow : ∀ node ∈ forestPreorder root.children, node.Nested)
    (hnode : node ∈ forestPreorder root.children) : node.Within root := by
  obtain ⟨child, hchild, hstart, hstop⟩ :=
    bounds_of_mem_forestPreorder root.children hbelow node hnode
  have hwithin := within_iff.mp (hroot.within child hchild)
  exact within_iff.mpr (by omega)

theorem precedes_of_mem_below {root node : Node} (hroot : root.Nested)
    (hbelow : ∀ node ∈ forestPreorder root.children, node.Nested)
    (hnode : node ∈ forestPreorder root.children) : root.Precedes node := by
  obtain ⟨child, hchild, hstart, -⟩ :=
    bounds_of_mem_forestPreorder root.children hbelow node hnode
  have hhead := headStop_le_start hroot hchild
  exact ⟨by omega, .inr (within_of_mem_below hroot hbelow hnode)⟩

mutual

theorem pairwise_preorder : (root : Node) → (∀ node ∈ root.preorder, node.Nested) →
    root.preorder.Pairwise fun first second =>
      first.stop ≤ second.start ∨ second ∈ forestPreorder first.children
  | mk kind range children => by
      intro hnested
      have hbelow : ∀ node ∈ forestPreorder children, node.Nested := fun node hmem =>
        hnested node (mem_preorder_of_below hmem)
      rw [preorder_eq, List.pairwise_cons]
      exact ⟨fun node hmem => .inr hmem,
        pairwise_forestPreorder children hbelow (hnested _ (self_mem_preorder _)).apart⟩

/-- Any two nodes of a nested forest follow each other or stand below each other. -/
theorem pairwise_forestPreorder : (forest : List Node) →
    (∀ node ∈ forestPreorder forest, node.Nested) → Apart forest →
    (forestPreorder forest).Pairwise fun first second =>
      first.stop ≤ second.start ∨ second ∈ forestPreorder first.children
  | [] => fun _ _ => List.Pairwise.nil
  | root :: forest => by
      intro hnested hapart
      have hroot : ∀ node ∈ root.preorder, node.Nested := fun node hmem =>
        hnested node (by rw [forestPreorder_cons]; exact List.mem_append_left _ hmem)
      have hforest : ∀ node ∈ forestPreorder forest, node.Nested := fun node hmem =>
        hnested node (by rw [forestPreorder_cons]; exact List.mem_append_right _ hmem)
      obtain ⟨hsiblings, hrest⟩ := List.pairwise_cons.mp hapart
      rw [forestPreorder_cons, List.pairwise_append]
      refine ⟨pairwise_preorder root hroot, pairwise_forestPreorder forest hforest hrest, ?_⟩
      intro first hfirst second hsecond
      obtain ⟨other, hother, hstart, -⟩ :=
        bounds_of_mem_forestPreorder forest hforest second hsecond
      have hbounds := bounds_of_mem_preorder root hroot first hfirst
      have hle := hsiblings other hother
      exact .inl (by omega)

end

/-- Any two nodes of a nested forest have different ranges. -/
theorem pairwise_precedes {forest : List Node}
    (hnested : ∀ node ∈ forestPreorder forest, node.Nested) (hapart : Apart forest) :
    (forestPreorder forest).Pairwise Precedes := by
  refine (pairwise_forestPreorder forest hnested hapart).imp_of_mem ?_
  intro first second hfirst _ hrelated
  rcases hrelated with hle | hbelow
  · have hhead := headStop_le_stop (hnested first hfirst)
    exact ⟨by omega, .inl hle⟩
  · exact precedes_of_mem_below (hnested first hfirst)
      (fun node hnode => hnested node
        (forestPreorder_of_mem (mem_preorder_of_below hnode) forest hfirst)) hbelow

end CaptureLint.Node
