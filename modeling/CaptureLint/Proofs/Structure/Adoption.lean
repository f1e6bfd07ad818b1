import CaptureLint.Proofs.Structure.Forest
import CaptureLint.Proofs.Structure.Steps

/-!
# Where the nodes inside a node start

A node starts before everything inside it, with one exception: a call whose callee goes on from a group
starts where the node of this group starts, which it has adopted as its first child.  The invariant of
a run, `Leading`, follows the brackets of the open groups: what a group holds starts after its
opening bracket, but for the node that the bracket has adopted.  It asks for no balance, so the main
statement, `leads_of_mem_ofTokens`, holds for every list of tokens.
-/

namespace CaptureLint.Structure

open Node

variable {tokens before after rest : List Token} {opening token : Token} {limit stop : Nat}
  {nodes inner outer : List Node} {group : Group} {groups : List Group} {node : Node}

/-! ## Adopted nodes -/

/-- A `(` among the tokens whose callee goes on from the group that is closed at byte `stop`. -/
def CallsGroup (tokens : List Token) (opening : Token) (stop : Nat) : Prop :=
  ∃ before after first?, tokens = before.reverse ++ opening :: after ∧
    Bracket.opened? opening = some .round ∧ callee? before = some (.group stop first?)

/-- A call and the node that it has adopted: the node of the group from which the callee of the call
goes on.  All other nodes inside the call start after its bracket. -/
structure Adopts (tokens : List Token) (call adopted : Node) : Prop where
  kind : call.kind = .call
  called : ∃ opening arguments, CallsGroup tokens opening adopted.stop ∧ opening.stop ≤ call.stop ∧
    call.children = adopted :: arguments ∧ ∀ argument ∈ arguments, opening.stop ≤ argument.start

/-- The nodes inside a node start after it does, unless it has adopted them. -/
def Leads (tokens : List Token) (node : Node) : Prop :=
  ∀ child ∈ node.children, node.start < child.start ∨ Adopts tokens node child

/-! ## The inside of an open group -/

inductive Inside (tokens : List Token) (opening : Token) (becomes : Option (NodeKind × Nat)) :
    List Node → Prop where
  | own {nodes : List Node} (starts : ∀ node ∈ nodes, opening.stop ≤ node.start) :
      Inside tokens opening becomes nodes
  /-- Below the nodes of the group itself lies the one that its bracket has adopted. -/
  | adopted {nodes : List Node} {last : Node} (starts : ∀ node ∈ nodes, opening.stop ≤ node.start)
      (becomes_call : becomes = some (.call, last.start)) (stop_lt : last.stop < opening.stop)
      (calls : CallsGroup tokens opening last.stop) :
      Inside tokens opening becomes (nodes ++ [last])

namespace Inside

variable {becomes : Option (NodeKind × Nat)}

theorem append (h : Inside tokens opening becomes outer)
    (hinner : ∀ node ∈ inner, opening.stop ≤ node.start) :
    Inside tokens opening becomes (inner ++ outer) := by
  cases h with
  | own houter =>
      refine .own fun node hnode => ?_
      exact (List.mem_append.mp hnode).elim (hinner node) (houter node)
  | @adopted nodes last houter hbecomes hstop hcalls =>
      have hboth : ∀ node ∈ inner ++ nodes, opening.stop ≤ node.start := fun node hnode =>
        (List.mem_append.mp hnode).elim (hinner node) (houter node)
      have hall := Inside.adopted hboth hbecomes hstop hcalls
      rwa [List.append_assoc] at hall

theorem uncons {last : Node} {older : List Node} (h : Inside tokens opening becomes (last :: older))
    (hlast : opening.stop ≤ last.stop) :
    opening.stop ≤ last.start ∧ Inside tokens opening becomes older := by
  generalize hnodes : last :: older = nodes at h
  cases h with
  | own starts =>
      subst hnodes
      obtain ⟨hstart, holder⟩ := List.forall_mem_cons.mp starts
      exact ⟨hstart, .own holder⟩
  | @adopted nodes adopted starts hbecomes hstop hcalls =>
      cases nodes with
      | nil =>
          obtain ⟨rfl, -⟩ := List.cons.inj hnodes
          omega
      | cons newest nodes =>
          obtain ⟨rfl, rfl⟩ := List.cons.inj hnodes
          obtain ⟨hstart, holder⟩ := List.forall_mem_cons.mp starts
          exact ⟨hstart, .adopted holder hbecomes hstop hcalls⟩

theorem starts_of_transparent (h : Inside tokens opening none nodes) :
    ∀ node ∈ nodes, opening.stop ≤ node.start := by
  cases h with
  | own starts => exact starts
  | adopted _ hbecomes => cases hbecomes

/-- The node that a group becomes leads what is inside it. -/
theorem leads {kind : NodeKind} {start : Nat} (h : Inside tokens opening (some (kind, start)) nodes)
    (hstart : start < opening.stop) (hstop : opening.stop ≤ stop) :
    Leads tokens (.mk kind (.between start stop) nodes.reverse) := by
  intro child hchild
  have hmem : child ∈ nodes := List.mem_reverse.mp hchild
  cases h with
  | own starts => exact .inl (Nat.lt_of_lt_of_le hstart (starts child hmem))
  | @adopted nodes last starts hbecomes _ hcalls =>
      rcases List.mem_append.mp hmem with hmem | hlast
      · exact .inl (Nat.lt_of_lt_of_le hstart (starts child hmem))
      · obtain rfl := List.mem_singleton.mp hlast
        obtain ⟨rfl, -⟩ := Prod.mk.inj (Option.some.inj hbecomes)
        have hend : (ByteRange.between start stop).stop = stop :=
          ByteRange.stop_between (Nat.le_of_lt (Nat.lt_of_lt_of_le hstart hstop))
        refine .inr ⟨rfl, opening, nodes.reverse, hcalls, ?_, ?_, fun argument hargument => ?_⟩
        · exact Nat.le_trans hstop (Nat.le_of_eq hend.symm)
        · exact List.reverse_concat
        · exact starts argument (List.mem_reverse.mp hargument)

end Inside

/-! ## Open groups -/

/-- The level with `nodes` inside open groups, innermost first, in which everything that is added
starts at or after `limit`. -/
inductive Leading (tokens : List Token) : Nat → List Node → List Group → Prop where
  | file {limit : Nat} {nodes : List Node}
      (complete : ∀ node ∈ forestPreorder nodes, Leads tokens node) : Leading tokens limit nodes []
  | group {opening : Token} {floor limit : Nat} {nodes : List Node} {group : Group}
      {groups : List Group} (complete : ∀ node ∈ forestPreorder nodes, Leads tokens node)
      (inside : Inside tokens opening group.becomes nodes)
      (becomes : ∀ kind start, group.becomes = some (kind, start) →
        floor ≤ start ∧ start < opening.stop)
      (floor_le : floor ≤ opening.stop) (stop_le : opening.stop ≤ limit)
      (frame : Leading tokens floor group.outer.nodes groups) :
      Leading tokens limit nodes (group :: groups)

namespace Leading

theorem complete (h : Leading tokens limit nodes groups) :
    ∀ node ∈ forestPreorder nodes, Leads tokens node := by
  cases h with
  | file complete => exact complete
  | group complete => exact complete

theorem mono {limit' : Nat} (h : Leading tokens limit nodes groups) (hle : limit ≤ limit') :
    Leading tokens limit' nodes groups := by
  cases h with
  | file complete => exact .file complete
  | group complete inside becomes floor_le stop_le frame =>
      exact .group complete inside becomes floor_le (Nat.le_trans stop_le hle) frame

theorem extend {limit' : Nat} (h : Leading tokens limit outer groups) (hle : limit ≤ limit')
    (hcomplete : ∀ node ∈ forestPreorder inner, Leads tokens node)
    (hstarts : ∀ node ∈ inner, limit ≤ node.start) :
    Leading tokens limit' (inner ++ outer) groups := by
  have hall : ∀ node ∈ forestPreorder (inner ++ outer), Leads tokens node :=
    forall_mem_forestPreorder_append.mpr ⟨hcomplete, h.complete⟩
  cases h with
  | file => exact .file hall
  | group complete inside becomes floor_le stop_le frame =>
      refine .group hall (inside.append fun node hnode => ?_) becomes floor_le
        (Nat.le_trans stop_le hle) frame
      exact Nat.le_trans stop_le (hstarts node hnode)

theorem uncons {last : Node} {older : List Node} (h : Leading tokens limit (last :: older) groups)
    (hlast : limit ≤ last.stop) : Leading tokens last.start older groups := by
  have holder := (forall_mem_forestPreorder_cons.mp h.complete).2
  cases h with
  | file => exact .file holder
  | group complete inside becomes floor_le stop_le frame =>
      obtain ⟨hstart, hinside⟩ := inside.uncons (Nat.le_trans stop_le hlast)
      exact .group holder hinside becomes floor_le hstart frame

theorem finish (h : Leading tokens limit nodes (group :: groups)) (hle : limit ≤ stop) :
    Leading tokens stop (group.finish nodes stop).nodes groups := by
  cases h with
  | group complete inside becomes floor_le stop_le frame =>
      have hfloor := Nat.le_trans floor_le (Nat.le_trans stop_le hle)
      unfold Group.finish
      split
      · rename_i hnone
        rw [hnone] at inside
        refine frame.extend hfloor complete fun node hnode => ?_
        exact Nat.le_trans floor_le (inside.starts_of_transparent node hnode)
      · rename_i kind start hbecomes
        obtain ⟨hstart, hlt⟩ := becomes kind start hbecomes
        rw [hbecomes] at inside
        have hleads := inside.leads hlt (Nat.le_trans stop_le hle)
        have hall := forall_mem_forestPreorder_mk.mpr ⟨hleads, complete⟩
        exact frame.extend hfloor hall (List.forall_mem_singleton.mpr hstart)

end Leading

theorem leading_keptByFinish : KeptByFinish (fun _ => True) (Leading tokens) :=
  ⟨Leading.mono, fun h hle _ => h.finish hle⟩

/-! ## Opening -/

/-- A bracket opens a group that is empty and starts at or after the seam, or adopts the node that
the last bracket has closed. -/
theorem cases_of_begins {body : Bool} {bracket : Bracket} {becomes : Option (NodeKind × Nat)}
    {captures : Nat} (hreading : Reading tokens before (token :: after))
    (hopened : Bracket.opened? token = some bracket)
    (h : Begins body before token after bracket nodes becomes outer inner captures) :
    (inner = [] ∧ outer = nodes ∧ ∀ kind start, becomes = some (kind, start) →
      seam before ≤ start ∧ start ≤ token.start) ∨
    ∃ last, nodes = last :: outer ∧ inner = [last] ∧ becomes = some (.call, last.start) ∧
      last.stop = seam before ∧ CallsGroup tokens token last.stop := by
  have hcalls : ∀ last, inner = [last] → CallsGroup tokens token last.stop := by
    rintro last rfl
    cases h with
    | adoption _ _ hcallee => exact ⟨before, after, _, hreading.split, hopened, hcallee⟩
  cases Builder.opens_of_begins hreading hopened h with
  | transparent => exact .inl ⟨rfl, rfl, by simp⟩
  | expression _ _ hseam hle =>
      refine .inl ⟨rfl, rfl, ?_⟩
      rintro _ _ ⟨⟩
      exact ⟨hseam, hle⟩
  | closure =>
      refine .inl ⟨rfl, rfl, ?_⟩
      rintro _ _ ⟨⟩
      exact ⟨hreading.seam_le_start, Nat.le_refl _⟩
  | adoption last _ hlast =>
      exact .inr ⟨last, rfl, rfl, rfl, hlast, hcalls last rfl⟩

theorem Leading.opens {body : Bool} {bracket : Bracket} {becomes : Option (NodeKind × Nat)}
    {captures : Nat} {outer : Level} (hreading : Reading tokens before (token :: after))
    (hopened : Bracket.opened? token = some bracket)
    (h : Leading tokens (seam before) nodes groups)
    (hbegins : Begins body before token after bracket nodes becomes outer.nodes inner captures) :
    Leading tokens token.stop inner (⟨bracket, becomes, outer⟩ :: groups) := by
  have hseam := hreading.seam_le_start
  have hlt := hreading.start_lt_stop
  rcases cases_of_begins hreading hopened hbegins with
    ⟨rfl, houter, hbecomes⟩ | ⟨last, rfl, rfl, rfl, hstop, hcalls⟩
  · rw [← houter] at h
    refine .group (by simp [forestPreorder]) (.own (by simp)) ?_ (by omega) (Nat.le_refl _) h
    intro kind start heq
    obtain ⟨hle, hstart⟩ := hbecomes kind start heq
    exact ⟨hle, by omega⟩
  · have hstart := last.start_le_stop
    have hinside : Inside tokens token (some (.call, last.start)) ([] ++ [last]) :=
      .adopted (by simp) rfl (by omega) hcalls
    refine .group ?_ hinside ?_ (by omega) (Nat.le_refl _) (h.uncons (Nat.le_of_eq hstop.symm))
    · rw [forestPreorder_singleton]
      exact (List.forall_mem_append.mp h.complete).1
    · rintro _ _ ⟨⟩
      exact ⟨Nat.le_refl _, by omega⟩

/-! ## Steps and runs -/

namespace Builder

variable {lineOf : Nat → Nat} {builder : Builder}

theorem leading_step (hreading : Reading tokens builder.before (token :: after))
    (h : Leading tokens (seam builder.before) builder.level.nodes builder.groups) :
    Leading tokens (seam (token :: builder.before)) (builder.step lineOf token after).level.nodes
      (builder.step lineOf token after).groups := by
  refine leading_keptByFinish.step hreading h trivial (fun _ => trivial) ?_
  intro bracket becomes inner captures outer hopened hbegins
  exact h.opens hreading hopened hbegins

theorem Reached.leading (hordered : Token.Ordered tokens) (h : Reached lineOf tokens builder rest) :
    Leading tokens (seam builder.before) builder.level.nodes builder.groups := by
  induction h with
  | initial => exact .file fun node hnode => (List.not_mem_nil hnode).elim
  | step reached ih => exact leading_step (reached.reading hordered) ih

end Builder

/-- Every node of a structure leads what is inside it. -/
theorem leads_of_mem_ofTokens (lineOf : Nat → Nat) (hordered : Token.Ordered tokens)
    (h : node ∈ forestPreorder (ofTokens lineOf tokens)) :
    Leads (tokens.filter (!·.kind.isTrivia)) node := by
  have hfiltered := hordered.filter (!·.kind.isTrivia)
  have hreached :=
    (@Builder.Reached.initial lineOf (tokens.filter (!·.kind.isTrivia))).run
  have hleading := leading_keptByFinish.closeAll (hreached.leading hfiltered)
    (hreached.reading hfiltered).seam_le_lastStop fun _ => trivial
  exact hleading.complete node (mem_forestPreorder_reverse.mp h)

end CaptureLint.Structure
