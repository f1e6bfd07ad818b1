import CaptureLint.Proofs.Structure.Forest
import CaptureLint.Proofs.Structure.Steps

/-!
# The structure is a nested forest

The invariant of a run, `Framed`, gives every open group a floor, where its node would start, and an
inside, the byte offset after its opening bracket: what the group holds starts at the inside or is
the one node that the group has adopted, and everything outside of it ends at the floor.  Closing
brackets that fit nothing and groups that are never closed keep the invariant too, so the forest is
nested for every list of tokens.
-/

namespace CaptureLint.Structure

open Node

variable {tokens : List Token} {floor inside ceiling stop : Nat} {nodes inner outer : List Node}

/-! ## Rows of complete nodes -/

/-- A node that starts where a token starts and ends where a token ends. -/
structure Bounded (tokens : List Token) (node : Node) : Prop where
  starts : ∃ token ∈ tokens, token.start = node.start
  stops : ∃ token ∈ tokens, token.stop = node.stop

structure Row (tokens : List Token) (floor ceiling : Nat) (nodes : List Node) : Prop where
  nested : ∀ node ∈ forestPreorder nodes, node.Nested
  bounded : ∀ node ∈ forestPreorder nodes, Bounded tokens node
  apart : nodes.Pairwise fun later earlier => earlier.stop ≤ later.start
  within : ∀ node ∈ nodes, floor ≤ node.start ∧ node.stop ≤ ceiling

namespace Row

theorem nil : Row tokens floor ceiling [] :=
  ⟨by simp [forestPreorder], by simp [forestPreorder], .nil, by simp⟩

theorem mono {ceiling' : Nat} (h : Row tokens floor ceiling nodes) (hle : ceiling ≤ ceiling') :
    Row tokens floor ceiling' nodes :=
  { h with within := fun node hnode => ⟨(h.within node hnode).1,
      Nat.le_trans (h.within node hnode).2 hle⟩ }

theorem append {middle : Nat} (hi : Row tokens middle ceiling inner)
    (ho : Row tokens floor middle outer) (hf : floor ≤ middle) (hc : middle ≤ ceiling) :
    Row tokens floor ceiling (inner ++ outer) where
  nested := forall_mem_forestPreorder_append.mpr ⟨hi.nested, ho.nested⟩
  bounded := forall_mem_forestPreorder_append.mpr ⟨hi.bounded, ho.bounded⟩
  apart := by
    rw [List.pairwise_append]
    refine ⟨hi.apart, ho.apart, fun later hlater earlier hearlier => ?_⟩
    exact Nat.le_trans (ho.within earlier hearlier).2 (hi.within later hlater).1
  within := by
    intro node hnode
    rcases List.mem_append.mp hnode with hnode | hnode
    · exact ⟨Nat.le_trans hf (hi.within node hnode).1, (hi.within node hnode).2⟩
    · exact ⟨(ho.within node hnode).1, Nat.le_trans (ho.within node hnode).2 hc⟩

theorem uncons {last : Node} {older : List Node} (h : Row tokens floor ceiling (last :: older)) :
    Row tokens last.start ceiling [last] ∧ Row tokens floor last.start older := by
  obtain ⟨hlast, holder⟩ := List.pairwise_cons.mp h.apart
  obtain ⟨hnested, hnested'⟩ := List.forall_mem_append.mp h.nested
  obtain ⟨hbounded, hbounded'⟩ := List.forall_mem_append.mp h.bounded
  rw [← forestPreorder_singleton] at hnested hbounded
  refine ⟨⟨hnested, hbounded, List.pairwise_singleton _ _, ?_⟩,
    ⟨hnested', hbounded', holder, fun node hnode =>
      ⟨(h.within node (List.mem_cons_of_mem _ hnode)).1, hlast node hnode⟩⟩⟩
  intro node hnode
  rw [List.mem_singleton.mp hnode]
  exact ⟨Nat.le_refl _, (h.within last List.mem_cons_self).2⟩

/-- A row that starts at the inside of a group, or in which one node ends before it, makes up a node
that is longer than each of them. -/
theorem node (h : Row tokens floor ceiling nodes) (hfloor : floor < inside)
    (hinside : inside ≤ ceiling) (hceiling : ceiling ≤ stop)
    (hadopted : ∀ node ∈ nodes, inside ≤ node.start ∨ node.stop < inside)
    (hstart : ∃ token ∈ tokens, token.start = floor) (hstop : ∃ token ∈ tokens, token.stop = stop)
    (kind : NodeKind) :
    Row tokens floor stop [Node.mk kind (.between floor stop) nodes.reverse] := by
  have hstopEq : (Node.mk kind (.between floor stop) nodes.reverse).stop = stop :=
    ByteRange.stop_between (by omega)
  have hnested : (Node.mk kind (.between floor stop) nodes.reverse).Nested := by
    refine ⟨?_, ?_, ?_⟩
    · rw [hstopEq]
      show floor < stop
      omega
    · intro child hchild
      have hmem := List.mem_reverse.mp hchild
      have hwithin := h.within child hmem
      have hcases := hadopted child hmem
      rw [within_iff, hstopEq]
      show floor ≤ child.start ∧ child.stop ≤ stop ∧ (floor < child.start ∨ child.stop < stop)
      omega
    · exact List.pairwise_reverse.mpr h.apart
  have hbounded : Bounded tokens (.mk kind (.between floor stop) nodes.reverse) :=
    ⟨hstart, by rw [hstopEq]; exact hstop⟩
  refine ⟨forall_mem_forestPreorder_mk.mpr ⟨hnested, h.nested⟩,
    forall_mem_forestPreorder_mk.mpr ⟨hbounded, h.bounded⟩, List.pairwise_singleton _ _, ?_⟩
  intro other hother
  rw [List.mem_singleton.mp hother, hstopEq]
  exact ⟨Nat.le_refl _, Nat.le_refl _⟩

end Row

/-! ## Open groups -/

/-- The level with `nodes` in which everything complete ends at `ceiling`, inside open groups that
are given innermost first. -/
inductive Framed (tokens : List Token) : Nat → List Node → List Group → Prop where
  | file {ceiling : Nat} {nodes : List Node} (row : Row tokens 0 ceiling nodes) :
      Framed tokens ceiling nodes []
  | group {floor inside ceiling : Nat} {nodes : List Node} {group : Group} {groups : List Group}
      (becomes : ∀ kind start, group.becomes = some (kind, start) →
        start = floor ∧ ∃ token ∈ tokens, token.start = floor)
      (floor_lt : floor < inside) (inside_le : inside ≤ ceiling)
      (row : Row tokens floor ceiling nodes)
      (adopted : ∀ node ∈ nodes, inside ≤ node.start ∨ node.stop < inside)
      (frame : Framed tokens floor group.outer.nodes groups) :
      Framed tokens ceiling nodes (group :: groups)

namespace Framed

variable {groups : List Group} {group : Group}

theorem mono {ceiling' : Nat} (h : Framed tokens ceiling nodes groups) (hle : ceiling ≤ ceiling') :
    Framed tokens ceiling' nodes groups := by
  cases h with
  | file row => exact .file (row.mono hle)
  | group becomes floor_lt inside_le row adopted frame =>
      exact .group becomes floor_lt (Nat.le_trans inside_le hle) (row.mono hle) adopted frame

theorem extend (h : Framed tokens floor outer groups) (hrow : Row tokens floor ceiling inner)
    (hle : floor ≤ ceiling) : Framed tokens ceiling (inner ++ outer) groups := by
  cases h with
  | file row => exact .file (hrow.append row (Nat.zero_le _) hle)
  | group becomes floor_lt inside_le row adopted frame =>
      refine .group becomes floor_lt (Nat.le_trans inside_le hle)
        (hrow.append row (by omega) hle) ?_ frame
      intro node hnode
      rcases List.mem_append.mp hnode with hnode | hnode
      · exact .inl (Nat.le_trans inside_le (hrow.within node hnode).1)
      · exact adopted node hnode

theorem uncons {last : Node} {older : List Node} (h : Framed tokens ceiling (last :: older) groups)
    (hlast : last.stop = ceiling) :
    Row tokens last.start ceiling [last] ∧ Framed tokens last.start older groups := by
  cases h with
  | file row => exact ⟨row.uncons.1, .file row.uncons.2⟩
  | group becomes floor_lt inside_le row adopted frame =>
      have hinside := adopted last List.mem_cons_self
      exact ⟨row.uncons.1, .group becomes floor_lt (by omega) row.uncons.2
        (fun node hnode => adopted node (List.mem_cons_of_mem _ hnode)) frame⟩

theorem finish (h : Framed tokens ceiling nodes (group :: groups)) (hle : ceiling ≤ stop)
    (hstop : ∃ token ∈ tokens, token.stop = stop) :
    Framed tokens stop (group.finish nodes stop).nodes groups := by
  cases h with
  | @group floor inside _ _ _ _ becomes floor_lt inside_le row adopted frame =>
      unfold Group.finish
      split
      · exact frame.extend (row.mono hle) (by omega)
      · rename_i kind start hbecomes
        obtain ⟨rfl, hstart⟩ := becomes kind start hbecomes
        exact frame.extend (row.node floor_lt inside_le hle adopted hstart hstop kind) (by omega)

theorem start_lt (h : Framed tokens ceiling nodes groups) :
    ∀ group ∈ groups, ∀ kind start, group.becomes = some (kind, start) → start < ceiling := by
  induction h with
  | file row => simp
  | group becomes floor_lt inside_le row adopted frame ih =>
      intro other hother kind start hbecomes
      rcases List.mem_cons.mp hother with rfl | hother
      · have hfloor := (becomes kind start hbecomes).1
        omega
      · have hlt := ih other hother kind start hbecomes
        omega

end Framed

/-! ## Closing -/

/-- The last token read ends every group that is open. -/
theorem Framed.exists_stop {before rest : List Token} {group : Group} {groups : List Group}
    (hreading : Reading tokens before rest)
    (h : Framed tokens (seam before) nodes (group :: groups)) :
    ∃ token ∈ tokens, token.stop = lastStopOf before := by
  cases before with
  | nil =>
      cases h with
      | group becomes floor_lt inside_le row adopted frame =>
          rw [seam] at inside_le
          omega
  | cons token before => exact ⟨token, hreading.mem_before List.mem_cons_self, rfl⟩

theorem framed_keptByFinish :
    KeptByFinish (fun stop => ∃ token ∈ tokens, token.stop = stop) (Framed tokens) :=
  ⟨Framed.mono, Framed.finish⟩

/-! ## Opening -/

theorem Framed.opens {before after : List Token} {token : Token} {groups : List Group}
    {becomes : Option (NodeKind × Nat)} {bracket : Bracket} {outer : Level} {captures : Nat}
    (hreading : Reading tokens before (token :: after))
    (h : Framed tokens (seam before) nodes groups)
    (hopens : Opens before token after nodes becomes outer.nodes inner captures) :
    Framed tokens token.stop inner (⟨bracket, becomes, outer⟩ :: groups) := by
  have hseam := hreading.seam_le_start
  have hlt := hreading.start_lt_stop
  cases hopens with
  | transparent =>
      exact .group (by simp) hlt (Nat.le_refl _) .nil (by simp)
        (h.mono hseam)
  | @expression _ kind start hkind hstart hle hmem =>
      obtain ⟨other, hother, rfl⟩ := hmem
      have hmem : other ∈ tokens := by
        rcases List.mem_cons.mp hother with rfl | hother
        · exact hreading.mem_next
        · exact hreading.mem_before hother
      exact .group (by rintro _ _ ⟨⟩; exact ⟨rfl, other, hmem, rfl⟩)
        (Nat.lt_of_le_of_lt hle hlt) (Nat.le_refl _) .nil (by simp) (h.mono hstart)
  | closure =>
      exact .group
        (by rintro _ _ ⟨⟩; exact ⟨rfl, token, hreading.mem_next, rfl⟩) hlt (Nat.le_refl _) .nil
        (by simp) (h.mono hseam)
  | adoption last older hlast =>
      obtain ⟨hrow, hframe⟩ := h.uncons hlast
      have hmem : last ∈ forestPreorder [last] := by
        rw [forestPreorder_cons, preorder_eq]
        exact List.mem_cons_self
      have hbefore := (hrow.nested last hmem).start_lt_stop
      refine .group ?_ (by omega) (Nat.le_refl _) (hrow.mono (by omega)) ?_
        hframe
      · rintro _ _ ⟨⟩
        exact ⟨rfl, (hrow.bounded last hmem).starts⟩
      · -- the adopted node ends at the seam, before the bracket that adopts it
        intro node hnode
        rw [List.mem_singleton.mp hnode]
        omega

/-! ## Steps and runs -/

namespace Builder

variable {lineOf : Nat → Nat} {builder : Builder}

theorem framed_step {token : Token} {after : List Token}
    (hreading : Reading tokens builder.before (token :: after))
    (h : Framed tokens (seam builder.before) builder.level.nodes builder.groups) :
    Framed tokens (seam (token :: builder.before)) (builder.step lineOf token after).level.nodes
      (builder.step lineOf token after).groups := by
  refine framed_keptByFinish.step hreading h ⟨token, hreading.mem_next, rfl⟩ (fun hgroups => ?_) ?_
  · obtain ⟨group, groups, hgroups⟩ := List.exists_cons_of_ne_nil hgroups
    exact (hgroups ▸ h).exists_stop hreading
  · intro bracket becomes inner captures outer hopened hbegins
    exact h.opens hreading (opens_of_begins hreading hopened hbegins)

theorem Reached.framed {rest : List Token} (hordered : Token.Ordered tokens)
    (h : Reached lineOf tokens builder rest) :
    Framed tokens (seam builder.before) builder.level.nodes builder.groups := by
  induction h with
  | initial => exact .file .nil
  | step reached ih => exact framed_step (reached.reading hordered) ih

/-- When every token has been read, what is left open ends with the last of them. -/
theorem row_result (hreading : Reading tokens builder.before [])
    (h : Framed tokens (seam builder.before) builder.level.nodes builder.groups) :
    Row tokens 0 builder.lastStop builder.result.reverse := by
  have hframed : Framed tokens builder.lastStop
      (closeAll builder.lastStop builder.level builder.groups).nodes [] := by
    refine framed_keptByFinish.closeAll h hreading.seam_le_lastStop fun hgroups => ?_
    obtain ⟨group, groups, hgroups⟩ := List.exists_cons_of_ne_nil hgroups
    exact (hgroups ▸ h).exists_stop hreading
  rw [result, List.reverse_reverse]
  cases hframed with
  | file row => exact row

end Builder

/-! ## The forest -/

theorem row_ofTokens (lineOf : Nat → Nat) (hordered : Token.Ordered tokens) :
    ∃ ceiling,
      Row (tokens.filter (!·.kind.isTrivia)) 0 ceiling (ofTokens lineOf tokens).reverse := by
  have hfiltered := hordered.filter (!·.kind.isTrivia)
  have hreached := (@Builder.Reached.initial lineOf (tokens.filter (!·.kind.isTrivia))).run
  exact ⟨_, Builder.row_result (hreached.reading hfiltered) (hreached.framed hfiltered)⟩

theorem nested_of_mem_ofTokens (lineOf : Nat → Nat) (hordered : Token.Ordered tokens) {node : Node}
    (h : node ∈ forestPreorder (ofTokens lineOf tokens)) :
    node.Nested ∧ Bounded (tokens.filter (!·.kind.isTrivia)) node := by
  obtain ⟨ceiling, hrow⟩ := row_ofTokens lineOf hordered
  rw [← mem_forestPreorder_reverse] at h
  exact ⟨hrow.nested node h, hrow.bounded node h⟩

theorem apart_ofTokens (lineOf : Nat → Nat) (hordered : Token.Ordered tokens) :
    Apart (ofTokens lineOf tokens) := by
  obtain ⟨ceiling, hrow⟩ := row_ofTokens lineOf hordered
  exact List.pairwise_reverse.mp hrow.apart

theorem pairwise_precedes_ofTokens (lineOf : Nat → Nat) (hordered : Token.Ordered tokens) :
    (forestPreorder (ofTokens lineOf tokens)).Pairwise Precedes :=
  pairwise_precedes (fun _ hnode => (nested_of_mem_ofTokens lineOf hordered hnode).1)
    (apart_ofTokens lineOf hordered)

end CaptureLint.Structure

namespace CaptureLint.Source

open Node Structure

/-- The structure of a source text is a properly nested interval forest, however unbalanced the text
is.  The last part is why no node gets a length below zero: at every moment of the run the open groups
start before the end of the last token read, and no group ends before that. -/
theorem structureOf_nested_forest (source : Source) :
    (∀ node ∈ forestPreorder (source.structureOf source.tokens),
      0 < node.range.length ∧
      (∃ token ∈ source.tokens, token.kind ≠ .comment ∧ token.start = node.start) ∧
      (∃ token ∈ source.tokens, token.kind ≠ .comment ∧ token.stop = node.stop) ∧
      (∀ child ∈ node.children, node.start ≤ child.start ∧ child.stop ≤ node.stop) ∧
      Apart node.children) ∧
    Apart (source.structureOf source.tokens) ∧
    (forestPreorder (source.structureOf source.tokens)).Pairwise (fun first second =>
      (first.stop ≤ second.start ∨
        (first.start ≤ second.start ∧ second.stop ≤ first.stop)) ∧
      first.range ≠ second.range) ∧
    ∀ builder rest, Builder.Reached source.lineOfByte
        (source.tokens.filter (!·.kind.isTrivia)) builder rest →
      ∀ group ∈ builder.groups, ∀ kind start, group.becomes = some (kind, start) →
        start < builder.lastStop := by
  have hordered := source.ordered_tokens
  have hcode : ∀ {token}, token ∈ source.tokens.filter (!·.kind.isTrivia) →
      token ∈ source.tokens ∧ token.kind ≠ .comment := by
    intro token htoken
    obtain ⟨hmem, hkind⟩ := List.mem_filter.mp htoken
    exact ⟨hmem, by rintro hcomment; simp [hcomment, TokenKind.isTrivia] at hkind⟩
  refine ⟨?_, apart_ofTokens _ hordered, ?_, ?_⟩
  · intro node hnode
    obtain ⟨hnested, ⟨first, hfirst, hstart⟩, ⟨last, hlast, hstop⟩⟩ :=
      nested_of_mem_ofTokens _ hordered hnode
    have hlength : node.start < node.start + node.range.length := hnested.start_lt_stop
    refine ⟨by omega, ⟨first, (hcode hfirst).1, (hcode hfirst).2, hstart⟩,
      ⟨last, (hcode hlast).1, (hcode hlast).2, hstop⟩, ?_, hnested.apart⟩
    intro child hchild
    exact ⟨(hnested.within child hchild).1, (hnested.within child hchild).2.1⟩
  · refine (pairwise_precedes_ofTokens _ hordered).imp_of_mem ?_
    intro first second hfirst _ hprecedes
    rcases hprecedes.2 with hafter | ⟨hstart, hstop, hrange⟩
    · have hlt := (nested_of_mem_ofTokens _ hordered hfirst).1.start_lt_stop
      refine ⟨.inl hafter, fun hrange => ?_⟩
      have hsame := (range_eq_iff.mp hrange).1
      omega
    · exact ⟨.inr ⟨hstart, hstop⟩, fun heq => hrange heq.symm⟩
  · intro builder rest hreached group hgroup kind start hbecomes
    have hfiltered := hordered.filter (!·.kind.isTrivia)
    have hlt := (hreached.framed hfiltered).start_lt group hgroup kind start hbecomes
    exact Nat.lt_of_lt_of_le hlt (hreached.reading hfiltered).seam_le_lastStop

end CaptureLint.Source
