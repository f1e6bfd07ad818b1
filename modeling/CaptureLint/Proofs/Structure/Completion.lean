import CaptureLint.Proofs.Structure.Enclosure
import CaptureLint.Proofs.Structure.Nesting

/-!
# Completed nodes

In a run over balanced tokens a closing bracket ends the group it fits, and that is the only way in
which a node comes about.  `Opened` remembers of each open group how it was opened; when the group
ends, its brackets are a pair.
-/

namespace CaptureLint.Structure

open Node CaptureLint.Bracket

variable {lineOf : Nat → Nat} {tokens before after rest : List Token} {token : Token}
  {groups : List Group} {group : Group} {node : Node}

structure Matched (tokens : List Token) : Prop where
  ordered : Token.Ordered tokens
  squares : SquaresOpen tokens
  nests : nests [] tokens = true

/-! ## Nodes found so far -/

namespace Builder

variable {builder : Builder}

/-- The complete nodes of all levels that are inside no other complete node. -/
def roots (builder : Builder) : List Node :=
  builder.level.nodes ++ builder.groups.flatMap (·.outer.nodes)

inductive Completes (builder : Builder) (token : Token) : Node → Prop where
  | intro {group : Group} {groups : List Group} {kind : NodeKind} {start : Nat}
      (captures : builder.captures = 0) (closed : closed? token = some group.bracket)
      (hgroups : builder.groups = group :: groups) (becomes : group.becomes = some (kind, start)) :
      Completes builder token (.mk kind (.between start token.stop) builder.level.nodes.reverse)

theorem append_of_begins {body : Bool} {bracket : Bracket} {nodes outer inner : List Node}
    {becomes : Option (NodeKind × Nat)} {captures : Nat}
    (h : Begins body before token after bracket nodes becomes outer inner captures) :
    inner ++ outer = nodes := by
  cases h <;> rfl

theorem roots_of_opened (lineOf : Nat → Nat) (after : List Token) {bracket : Bracket}
    (hcaptures : builder.captures = 0) (hopened : opened? token = some bracket) :
    (builder.act lineOf token after).roots = builder.roots := by
  obtain ⟨becomes, outer, inner, captures, hact, hbegins⟩ := act_begins lineOf after hcaptures hopened
  rw [hact]
  simp only [roots, openGroup, List.flatMap_cons, ← List.append_assoc, append_of_begins hbegins]

theorem mem_roots_of_closed (lineOf : Nat → Nat) (after : List Token)
    (hcaptures : builder.captures = 0) (hgroups : builder.groups = group :: groups)
    (hclosed : closed? token = some group.bracket) :
    node ∈ forestPreorder (builder.act lineOf token after).roots ↔
      node ∈ forestPreorder builder.roots ∨ builder.Completes token node := by
  have hact : (builder.act lineOf token after).roots =
      (group.finish builder.level.nodes token.stop).nodes ++ groups.flatMap (·.outer.nodes) := by
    rw [act_of_closed hclosed, hgroups]
    simp [roots, closeGroups]
  have hroots : builder.roots =
      builder.level.nodes ++ (group.outer.nodes ++ groups.flatMap (·.outer.nodes)) := by
    rw [roots, hgroups, List.flatMap_cons]
  rw [hact, hroots, Group.finish]
  cases hbecomes : group.becomes with
  | none =>
      rw [List.append_assoc, or_iff_left]
      rintro ⟨-, -, hother, hsome⟩
      obtain ⟨rfl, -⟩ := List.cons.inj (hgroups.symm.trans hother)
      rw [hbecomes] at hsome
      cases hsome
  | some expression =>
      obtain ⟨kind, start⟩ := expression
      dsimp only
      rw [List.cons_append, forestPreorder_cons, preorder_eq, forestPreorder_append builder.level.nodes]
      have hchildren : forestPreorder (Node.mk kind (.between start token.stop)
          builder.level.nodes.reverse).children = forestPreorder builder.level.nodes.reverse := rfl
      rw [hchildren, List.mem_append, List.mem_append, List.mem_cons, mem_forestPreorder_reverse]
      have hnew : node = .mk kind (.between start token.stop) builder.level.nodes.reverse ↔
          builder.Completes token node := by
        constructor
        · rintro rfl
          exact ⟨hcaptures, hclosed, hgroups, hbecomes⟩
        · rintro ⟨-, -, hother, hsome⟩
          obtain ⟨rfl, -⟩ := List.cons.inj (hgroups.symm.trans hother)
          cases hbecomes.symm.trans hsome
          rfl
      rw [hnew, or_assoc, or_comm]

/-- A token keeps the nodes found and adds the one that it completes. -/
theorem mem_roots_step (lineOf : Nat → Nat) (h : Balanced builder (token :: after)) :
    node ∈ forestPreorder (builder.step lineOf token after).roots ↔
      node ∈ forestPreorder builder.roots ∨ builder.Completes token node := by
  unfold step
  cases hcaptures : builder.captures with
  | succ captures =>
      have hnone : ¬ builder.Completes token node := by
        rintro ⟨hzero, -, -, -⟩
        rw [hcaptures] at hzero
        cases hzero
      exact (or_iff_left hnone).symm
  | zero =>
      have hnests := h.nests
      rw [hcaptures, List.drop_zero] at hnests
      have hnone : closed? token = none → ¬ builder.Completes token node := by
        rintro hnot ⟨-, hclosed, -, -⟩
        rw [hnot] at hclosed
        cases hclosed
      rcases bracket_cases token with ⟨bracket, hopened⟩ | ⟨bracket, hclosed⟩ | hplain
      · have hroots := roots_of_opened lineOf after hcaptures hopened
        have hclosed : closed? token = none := by
          rw [Option.eq_none_iff_forall_ne_some]
          intro other hother
          rw [opened?_of_closed? hother] at hopened
          cases hopened
        rw [or_iff_left (hnone hclosed), ← hroots]
        rfl
      · obtain ⟨outer, hstack, -⟩ := nests_of_closed hclosed hnests
        obtain ⟨group, groups, hgroups, rfl, rfl⟩ := List.map_eq_cons_iff.mp hstack
        exact mem_roots_of_closed lineOf after hcaptures hgroups hclosed
      · obtain ⟨pending, hact⟩ := act_of_plain lineOf builder after hplain
        rw [isBracket_eq_false_iff] at hplain
        rw [or_iff_left (hnone hplain.2), hact]
        rfl

/-! ## Runs -/

namespace Reached

theorem squaresOpen (htokens : Matched tokens) (h : Reached lineOf tokens builder rest) :
    SquaresOpen rest := fun token htoken =>
  htokens.squares token (by
    rw [(h.reading htokens.ordered).split]
    exact List.mem_append_right _ htoken)

/-- At every moment the tokens to be read close what is open. -/
theorem balanced (htokens : Matched tokens) (h : Reached lineOf tokens builder rest) :
    Balanced builder rest := by
  induction h with
  | initial => exact ⟨Nat.zero_le _, htokens.nests⟩
  | @step builder token after reached ih =>
      have hstep := (step_append lineOf [] (reached.squaresOpen htokens) rfl ih).2
      exact hstep

theorem run_eq (h : Reached lineOf tokens builder rest) :
    builder.run lineOf rest = Builder.initial.run lineOf tokens := by
  induction h with
  | initial => rfl
  | step reached ih => exact ih

theorem mem_roots_run (htokens : Matched tokens) (h : Reached lineOf tokens builder rest)
    (hnode : node ∈ forestPreorder builder.roots) :
    node ∈ forestPreorder (builder.run lineOf rest).roots := by
  induction rest generalizing builder with
  | nil => exact hnode
  | cons token after ih =>
      exact ih h.step ((mem_roots_step lineOf (h.balanced htokens)).mpr (.inl hnode))

theorem completes_of_mem_roots_run (htokens : Matched tokens)
    (h : Reached lineOf tokens builder rest)
    (hnode : node ∈ forestPreorder (builder.run lineOf rest).roots) :
    node ∈ forestPreorder builder.roots ∨
      ∃ later token after, Reached lineOf tokens later (token :: after) ∧ token ∈ rest ∧
        later.Completes token node := by
  induction rest generalizing builder with
  | nil => exact .inl hnode
  | cons token after ih =>
      rcases ih h.step hnode with hfound | ⟨later, other, behind, hreached, hother, hcompletes⟩
      · rcases (mem_roots_step lineOf (h.balanced htokens)).mp hfound with hfound | hcompletes
        · exact .inl hfound
        · exact .inr ⟨builder, token, after, h, List.mem_cons_self, hcompletes⟩
      · exact .inr ⟨later, other, behind, hreached, List.mem_cons_of_mem _ hother, hcompletes⟩

/-- When balanced tokens have been read, the nodes found are the forest. -/
theorem mem_result_iff (htokens : Matched tokens) (h : Reached lineOf tokens builder rest) :
    node ∈ forestPreorder (Builder.initial.run lineOf tokens).result ↔
      node ∈ forestPreorder (builder.run lineOf rest).roots := by
  have hgroups := (h.run.balanced htokens).settled.2
  rw [← h.run_eq, result, roots, hgroups]
  simp [closeAll, mem_forestPreorder_reverse]

theorem mem_result (htokens : Matched tokens) (h : Reached lineOf tokens builder rest)
    (hnode : node ∈ forestPreorder builder.roots) :
    node ∈ forestPreorder (Builder.initial.run lineOf tokens).result :=
  (h.mem_result_iff htokens).mpr (h.mem_roots_run htokens hnode)

/-- Every node of the forest has been found or is completed by a token to be read. -/
theorem completes_of_mem_result (htokens : Matched tokens) (h : Reached lineOf tokens builder rest)
    (hnode : node ∈ forestPreorder (Builder.initial.run lineOf tokens).result) :
    node ∈ forestPreorder builder.roots ∨
      ∃ later token after, Reached lineOf tokens later (token :: after) ∧ token ∈ rest ∧
        later.Completes token node :=
  h.completes_of_mem_roots_run htokens ((h.mem_result_iff htokens).mp hnode)

end Reached

theorem Completes.stop_eq (hordered : Token.Ordered tokens)
    (hreached : Reached lineOf tokens builder (token :: after)) (h : builder.Completes token node) :
    node.stop = token.stop := by
  obtain ⟨-, -, hgroups, hbecomes⟩ := h
  have hreading := hreached.reading hordered
  have hstart := (hreached.framed hordered).start_lt _ (hgroups ▸ List.mem_cons_self) _ _ hbecomes
  have hseam := hreading.seam_le_start
  have hlt := hreading.start_lt_stop
  exact ByteRange.stop_between (by omega)

end Builder

/-! ## Open groups -/

/-- How the groups that are open after some tokens were opened: each by a bracket with balanced
tokens after it, read at a moment of the run. -/
inductive Opened (lineOf : Nat → Nat) (tokens : List Token) : List Token → List Group → Prop where
  | file (before : List Token) : Opened lineOf tokens before []
  | group {builder : Builder} {token : Token} {after inside : List Token} {group : Group}
      {outer inner : List Node} {captures : Nat}
      (reached : Builder.Reached lineOf tokens builder (token :: after))
      (opened : opened? token = some group.bracket)
      (begins : Begins (Builder.opensBody lineOf builder.level.pending builder.before token.start)
        builder.before token after group.bracket builder.level.nodes group.becomes outer inner
        captures)
      (nests : nests [] inside = true) (frame : Opened lineOf tokens builder.before builder.groups) :
      Opened lineOf tokens (inside.reverse ++ token :: builder.before) (group :: builder.groups)

namespace Opened

theorem extend {block : List Token} (h : Opened lineOf tokens before groups)
    (hblock : Bracket.nests [] block = true) :
    Opened lineOf tokens (block.reverse ++ before) groups := by
  cases h with
  | file => exact .file _
  | @group _ token _ inside _ _ _ _ reached opened begins nests frame =>
      have hinside : Bracket.nests [] (inside ++ block) = true := by
        rw [nests_pass [] nests]
        exact hblock
      have h := Opened.group reached opened begins hinside frame
      rw [List.reverse_append, List.append_assoc] at h
      exact h

theorem finish (h : Opened lineOf tokens before (group :: groups))
    (hclosed : closed? token = some group.bracket) :
    Opened lineOf tokens (token :: before) groups := by
  cases h with
  | @group builder opening _ inside _ _ _ _ reached opened begins nests frame =>
      have hblock : Bracket.nests [] (opening :: (inside ++ [token])) = true := by
        rw [nests_of_opened opened, nests_pass [group.bracket] nests]
        exact nests_closer hclosed
      have h := frame.extend hblock
      simp only [List.reverse_cons, List.reverse_append, List.reverse_nil, List.nil_append,
        List.append_assoc, List.cons_append] at h
      exact h

/-- The innermost group and a bracket that it fits are a pair. -/
theorem exists_enclosure (h : Opened lineOf tokens before (group :: groups))
    (hsplit : tokens = before.reverse ++ token :: after)
    (hclosed : closed? token = some group.bracket) :
    ∃ (pair : Enclosure tokens) (builder : Builder) (rest : List Token) (outer inner : List Node)
      (captures : Nat), pair.closing = token ∧ pair.bracket = group.bracket ∧
        pair.before.reverse = builder.before ∧
        Builder.Reached lineOf tokens builder (pair.opening :: rest) ∧
        Begins
          (Builder.opensBody lineOf builder.level.pending builder.before pair.opening.start)
          builder.before pair.opening rest group.bracket builder.level.nodes group.becomes outer
          inner captures := by
  cases h with
  | @group builder opening rest inside _ outer inner captures reached opened begins nests frame =>
      refine ⟨⟨builder.before.reverse, opening, inside, token, after, group.bracket, ?_, opened,
        hclosed, nests⟩, builder, rest, outer, inner, captures, rfl, rfl, List.reverse_reverse _,
        reached, begins⟩
      rw [hsplit]
      simp

end Opened

namespace Builder

variable {builder : Builder}

theorem captures_of_begins {body : Bool} {bracket : Bracket} {nodes outer inner : List Node}
    {becomes : Option (NodeKind × Nat)} {captures : Nat}
    (h : Begins body before token after bracket nodes becomes outer inner captures) :
    captures = 0 ∨
      bracket = .curly ∧ body = false ∧ captureListLength? after = some captures := by
  cases h with
  | closure _ hbody =>
      cases hlength : captureListLength? after with
      | none => exact .inl rfl
      | some length => exact .inr ⟨rfl, hbody, rfl⟩
  | subscript => exact .inl rfl
  | body => exact .inl rfl
  | literal => exact .inl rfl
  | chain => exact .inl rfl
  | group => exact .inl rfl
  | adoption => exact .inl rfl

theorem nests_captures {body : Bool} {bracket : Bracket} {stack : List Bracket}
    {nodes outer inner : List Node} {becomes : Option (NodeKind × Nat)} {captures : Nat}
    (hsquares : SquaresOpen after) (hnests : nests stack after = true)
    (h : Begins body before token after bracket nodes becomes outer inner captures) :
    nests [] (after.take captures) = true := by
  rcases captures_of_begins h with rfl | ⟨-, -, hlength⟩
  · rfl
  · exact (nests_take_captures hsquares hnests hlength).2

/-- At every moment it is known how the open groups were opened; the tokens of a capture list count
as read. -/
theorem Reached.opened (htokens : Matched tokens) (h : Reached lineOf tokens builder rest) :
    Opened lineOf tokens ((rest.take builder.captures).reverse ++ builder.before) builder.groups := by
  induction h with
  | initial => exact .file _
  | @step builder token after reached ih =>
      have hbalanced := reached.balanced htokens
      unfold Builder.step
      cases hcaptures : builder.captures with
      | succ captures =>
          rw [hcaptures] at ih
          simpa using ih
      | zero =>
          have hnests := hbalanced.nests
          rw [hcaptures, List.drop_zero] at hnests
          rw [hcaptures] at ih
          change Opened lineOf tokens builder.before builder.groups at ih
          dsimp only
          rcases bracket_cases token with ⟨bracket, hopened⟩ | ⟨bracket, hclosed⟩ | hplain
          · obtain ⟨becomes, outer, inner, captures, hact, hbegins⟩ :=
              act_begins lineOf after hcaptures hopened
            rw [nests_of_opened hopened] at hnests
            have hafter : SquaresOpen after := reached.step.squaresOpen htokens
            rw [hact]
            exact .group reached hopened hbegins (nests_captures hafter hnests hbegins) ih
          · obtain ⟨outer, hstack, -⟩ := nests_of_closed hclosed hnests
            obtain ⟨group, groups, hgroups, rfl, rfl⟩ := List.map_eq_cons_iff.mp hstack
            rw [hgroups] at ih
            rw [act_of_closed hclosed, hgroups, hcaptures]
            simpa [closeGroups] using ih.finish hclosed
          · obtain ⟨pending, hact⟩ := act_of_plain lineOf builder after hplain
            rw [hact, hcaptures]
            exact @Opened.extend _ _ _ _ [token] ih (nests_of_plain hplain)

end Builder

end CaptureLint.Structure
