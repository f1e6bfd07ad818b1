import CaptureLint.Proofs.Structure.Balance
import CaptureLint.Proofs.Structure.Forest

/-!
# Pairs of brackets

An `Enclosure` is a pair of brackets that belong together.  Of two pairs one stands inside the other
or ends before it starts.  `Makes` says which pair a node of a forest stands for; where every node
has a pair, the pairs decide which nodes are below which.
-/

namespace CaptureLint.Bracket

variable {bracket : Bracket} {stack : List Bracket} {token : Token}
  {left after tokens right : List Token}

/-- Tokens compared with a pair of brackets that is opened before the first of them: when they leave
nothing open they end inside the pair, and otherwise behind it. -/
theorem nests_cases (hleft : nests [] left = true) (hclosed : closed? token = some bracket)
    (h : nests stack tokens = true) (heq : tokens ++ right = left ++ token :: after) :
    (stack = [] ∧ tokens <+: left) ∨ (stack ≠ [] ∧ ∃ rest, tokens = left ++ token :: rest) := by
  have hinside : tokens <+: left → stack = [] ∧ tokens <+: left := by
    rintro ⟨rest, rfl⟩
    obtain ⟨outer, houter, -⟩ := exists_append_of_nests h hleft
    exact ⟨(List.append_eq_nil_iff.mp houter.symm).1, List.prefix_append _ _⟩
  rcases List.append_eq_append_iff.mp heq with ⟨rest, hrest, -⟩ | ⟨rest, hrest, hafter⟩
  · exact .inl (hinside ⟨rest, hrest.symm⟩)
  · cases rest with
    | nil => exact .inl (hinside ⟨[], by rw [hrest, List.append_nil, List.append_nil]⟩)
    | cons next rest =>
        obtain rfl : token = next := (List.cons.inj hafter).1
        subst hrest
        obtain ⟨outer, hstack, hnests⟩ := exists_append_of_nests hleft h
        obtain ⟨others, hothers, -⟩ := nests_of_closed hclosed hnests
        exact .inr ⟨by simp [hstack, hothers], rest, rfl⟩

end CaptureLint.Bracket

namespace CaptureLint.Structure

open Node CaptureLint.Bracket

/-- A pair of brackets that belong together, among tokens. -/
structure Enclosure (tokens : List Token) where
  before : List Token
  opening : Token
  inside : List Token
  closing : Token
  after : List Token
  bracket : Bracket
  split : tokens = before ++ opening :: (inside ++ closing :: after)
  opened : opened? opening = some bracket
  closed : closed? closing = some bracket
  nests : nests [] inside = true

namespace Enclosure

variable {tokens : List Token} {pair other : Enclosure tokens} {token : Token}

def Holds (pair other : Enclosure tokens) : Prop :=
  pair.opening.start < other.opening.start ∧ other.opening.start < pair.closing.start

/-! ## Places -/

theorem reading (hordered : Token.Ordered tokens) (pair : Enclosure tokens) :
    Reading tokens pair.before.reverse
      (pair.opening :: (pair.inside ++ pair.closing :: pair.after)) :=
  ⟨by rw [List.reverse_reverse]; exact pair.split, hordered⟩

theorem reading_closing (hordered : Token.Ordered tokens) (pair : Enclosure tokens) :
    Reading tokens (pair.inside.reverse ++ pair.opening :: pair.before.reverse)
      (pair.closing :: pair.after) :=
  ⟨pair.split.trans (by simp), hordered⟩

theorem stop_le_opening (hordered : Token.Ordered tokens) (h : token ∈ pair.before) :
    token.stop ≤ pair.opening.start :=
  (pair.reading hordered).stop_le_start (List.mem_reverse.mpr h)

theorem stop_le_closing (hordered : Token.Ordered tokens) (h : token ∈ pair.inside) :
    token.stop ≤ pair.closing.start :=
  (pair.reading_closing hordered).stop_le_start
    (List.mem_append_left _ (List.mem_reverse.mpr h))

theorem bounds (hordered : Token.Ordered tokens) (pair : Enclosure tokens) :
    pair.opening.start < pair.opening.stop ∧ pair.opening.stop ≤ pair.closing.start ∧
      pair.closing.start < pair.closing.stop :=
  ⟨(pair.reading hordered).start_lt_stop,
    (pair.reading_closing hordered).stop_le_start (List.mem_append_right _ List.mem_cons_self),
    (pair.reading_closing hordered).start_lt_stop⟩

theorem opening_le_start (hordered : Token.Ordered tokens) (h : token ∈ pair.inside) :
    pair.opening.stop ≤ token.start := by
  have hapart := hordered.apart
  rw [pair.split, List.pairwise_append, List.pairwise_cons] at hapart
  exact hapart.2.1.1 token (List.mem_append_left _ h)

/-! ## Two pairs -/

theorem eq_of_inside (hbefore : other.before = pair.before) (hinside : other.inside = pair.inside) :
    other = pair := by
  have hsplit := other.split.symm.trans pair.split
  rw [hbefore] at hsplit
  obtain ⟨hopening, hrest⟩ := List.cons.inj (List.append_cancel_left hsplit)
  rw [hinside] at hrest
  obtain ⟨hclosing, hafter⟩ := List.cons.inj (List.append_cancel_left hrest)
  have hbracket : some other.bracket = some pair.bracket := by
    rw [← other.opened, ← pair.opened, hopening]
  cases pair
  cases other
  simp_all

/-- Of two pairs, the one that is opened first is closed before the other one or holds it. -/
theorem cases_of_le (h : pair.before.length ≤ other.before.length) :
    other = pair ∨ pair.closing ∈ other.before ∨
      other.opening ∈ pair.inside ∧ other.closing ∈ pair.inside := by
  have hsplit := pair.split.symm.trans other.split
  obtain ⟨gap, hgap⟩ : pair.before <+: other.before :=
    List.prefix_of_prefix_length_le ⟨_, hsplit⟩ ⟨_, rfl⟩ h
  rw [← hgap, List.append_assoc] at hsplit
  have hrest := List.append_cancel_left hsplit
  cases gap with
  | nil =>
      have hinside := (List.cons.inj hrest).2
      refine .inl (eq_of_inside (by rw [← hgap, List.append_nil]) ?_)
      -- each inside is the beginning of the other one
      rcases nests_cases pair.nests pair.closed other.nests hinside.symm with ⟨-, hle⟩ | ⟨hne, -⟩
      · rcases nests_cases other.nests other.closed pair.nests hinside with ⟨-, hge⟩ | ⟨hne, -⟩
        · exact hle.eq_of_length (Nat.le_antisymm hle.length_le hge.length_le)
        · exact absurd rfl hne
      · exact absurd rfl hne
  | cons first gap =>
      obtain ⟨rfl, hinside⟩ := List.cons.inj hrest
      have hne : other.opening ≠ pair.closing := by
        intro heq
        have hopened := other.opened
        rw [heq, opened?_of_closed? pair.closed] at hopened
        cases hopened
      rcases List.append_eq_append_iff.mp hinside with ⟨rest, hrest, hafter⟩ | ⟨rest, hrest, hafter⟩
      · cases rest with
        | nil => exact absurd (List.cons.inj hafter).1.symm hne
        | cons next rest =>
            obtain rfl := (List.cons.inj hafter).1
            exact .inr (.inl (by rw [← hgap, hrest]; simp))
      · cases rest with
        | nil => exact absurd (List.cons.inj hafter).1 hne
        | cons next rest =>
            obtain ⟨rfl, hbehind⟩ := List.cons.inj hafter
            -- the opening bracket inside the pair is closed there
            obtain ⟨stack, hstack⟩ := exists_nests_right (hrest ▸ pair.nests)
            rw [nests_of_opened other.opened] at hstack
            rcases nests_cases other.nests other.closed hstack hbehind.symm with
              ⟨hnil, -⟩ | ⟨-, right, hright⟩
            · cases hnil
            · exact .inr (.inr (by simp [hrest, hright]))

/-- Of two pairs, the one that is closed first is closed before the other one or is held by it. -/
theorem cases_of_closing_le (hordered : Token.Ordered tokens)
    (h : other.closing.stop ≤ pair.closing.stop) :
    other = pair ∨ other.closing ∈ pair.before ∨ pair.Holds other := by
  have hpair := pair.bounds hordered
  have hother := other.bounds hordered
  rcases Nat.le_total pair.before.length other.before.length with hle | hle
  · rcases cases_of_le hle with rfl | hbefore | ⟨hinside, -⟩
    · exact .inl rfl
    · have hstop := stop_le_opening hordered hbefore
      omega
    · have hstart := opening_le_start hordered hinside
      have hstop := stop_le_closing hordered hinside
      exact .inr (.inr ⟨by omega, by omega⟩)
  · rcases cases_of_le hle with rfl | hbefore | ⟨-, hinside⟩
    · exact .inl rfl
    · exact .inr (.inl hbefore)
    · have hstop := stop_le_closing hordered hinside
      omega

theorem eq_of_closing (hordered : Token.Ordered tokens)
    (h : other.closing.stop = pair.closing.stop) : other = pair := by
  have hpair := pair.bounds hordered
  have hother := other.bounds hordered
  rcases cases_of_closing_le hordered (Nat.le_of_eq h) with heq | hbefore | hholds
  · exact heq
  · have hstop := stop_le_opening hordered hbefore
    omega
  · rcases cases_of_closing_le hordered (Nat.le_of_eq h.symm) with heq | hbefore | hholds'
    · exact heq.symm
    · have hstop := stop_le_opening hordered hbefore
      omega
    · have hlt := hholds.1
      have hgt := hholds'.1
      omega

/-! ## Nodes -/

def callee? (pair : Enclosure tokens) : Option Callee := Structure.callee? pair.before.reverse

/-- The callee of the pair goes on from the node. -/
def Adopts (pair : Enclosure tokens) (node : Node) : Prop :=
  ∃ first?, pair.callee? = some (.group node.stop first?)

/-- A call with its bracket at byte `opening` starts where its callee does: at the first name of a
chain, at the start of the node that the chain goes on from, or, where no node ends there, at the
chain after the group or else at the bracket. -/
def StartsCall (forest : List Node) (opening start : Nat) : Callee → Prop
  | .chain first => start = first
  | .group stop first? =>
      (∃ node ∈ forestPreorder forest, node.stop = stop ∧ start = node.start) ∨
        (∀ node ∈ forestPreorder forest, node.stop ≠ stop) ∧ start = first?.getD opening

/-- The pair is the one that the node was made from. -/
structure Makes (forest : List Node) (pair : Enclosure tokens) (node : Node) : Prop where
  bracket : node.kind.bracket = pair.bracket
  stop : node.stop = pair.closing.stop
  literal : node.kind ≠ .call → node.start = pair.opening.start
  tuple : node.kind = .tuple → pair.callee? = none
  call : node.kind = .call → ∃ callee, pair.callee? = some callee ∧
    StartsCall forest pair.opening.start node.start callee

variable {forest : List Node} {node : Node}

theorem calleeSince (hordered : Token.Ordered tokens) {callee : Callee}
    (h : pair.callee? = some callee) : CalleeSince none pair.before.reverse callee :=
  calleeSince_calleeFrom (pair.reading hordered).pairwise_before h

theorem Adopts.stop_eq (hordered : Token.Ordered tokens) (h : pair.Adopts node) :
    node.stop = seam pair.before.reverse := by
  obtain ⟨first?, hcallee⟩ := h
  exact (calleeSince hordered hcallee).1

theorem Adopts.stop_le (hordered : Token.Ordered tokens) (h : pair.Adopts node) :
    node.stop ≤ pair.opening.start := by
  rw [h.stop_eq hordered]
  exact (pair.reading hordered).seam_le_start

namespace Makes

theorem of_literal (hcall : node.kind ≠ .call) (hbracket : node.kind.bracket = pair.bracket)
    (hstop : node.stop = pair.closing.stop) (hstart : node.start = pair.opening.start)
    (htuple : node.kind = .tuple → pair.callee? = none) : pair.Makes forest node :=
  ⟨hbracket, hstop, fun _ => hstart, htuple, fun hkind => absurd hkind hcall⟩

theorem of_call {callee : Callee} (hcall : node.kind = .call) (hround : pair.bracket = .round)
    (hstop : node.stop = pair.closing.stop) (hcallee : pair.callee? = some callee)
    (hstart : StartsCall forest pair.opening.start node.start callee) : pair.Makes forest node := by
  refine ⟨by rw [hcall, hround]; rfl, hstop, fun hne => absurd hcall hne, fun htuple => ?_,
    fun _ => ⟨callee, hcallee, hstart⟩⟩
  rw [hcall] at htuple
  cases htuple

/-- A call starts after the last bracket before its own, unless it starts with a node that ends with
this bracket. -/
theorem start_cases (hordered : Token.Ordered tokens) (h : pair.Makes forest node) :
    (seam pair.before.reverse ≤ node.start ∧ node.start ≤ pair.opening.start) ∨
      node.kind = .call ∧
        ∃ callee ∈ forestPreorder forest, pair.Adopts callee ∧ node.start = callee.start := by
  have hreading := pair.reading hordered
  have hopening : seam pair.before.reverse ≤ pair.opening.start := hreading.seam_le_start
  by_cases hcall : node.kind = .call
  · have hsince : ∀ {first}, none = some first ∨ StartsSince pair.before.reverse first →
        seam pair.before.reverse ≤ first ∧ first ≤ pair.opening.start := by
      rintro first (hnone | ⟨hseam, token, htoken, rfl⟩)
      · cases hnone
      · have hstop := hreading.stop_le_start htoken
        have hle : token.start ≤ token.stop := Nat.le_add_right _ _
        exact ⟨hseam, by omega⟩
    obtain ⟨callee, hcallee, hstart⟩ := h.call hcall
    have hfound := calleeSince hordered hcallee
    cases callee with
    | chain first =>
        rw [show node.start = first from hstart]
        exact .inl (hsince hfound)
    | group stop first? =>
        rcases hstart with ⟨first, hmem, rfl, hstart⟩ | ⟨-, hstart⟩
        · exact .inr ⟨hcall, first, hmem, ⟨first?, hcallee⟩, hstart⟩
        · rw [hstart]
          cases first? with
          | none => exact .inl ⟨hopening, Nat.le_refl _⟩
          | some first => exact .inl (hsince (hfound.2 first rfl))
  · rw [h.literal hcall]
    exact .inl ⟨hopening, Nat.le_refl _⟩

theorem start_le (hordered : Token.Ordered tokens) (h : pair.Makes forest node) :
    node.start ≤ pair.opening.start := by
  rcases h.start_cases hordered with ⟨-, hle⟩ | ⟨-, callee, -, hadopts, hstart⟩
  · exact hle
  · have hstop := hadopts.stop_le hordered
    have hle := callee.start_le_stop
    omega

theorem kind_eq_call_iff {node' : Node} (h : pair.Makes forest node)
    (h' : pair.Makes forest node') : node.kind = .call ↔ node'.kind = .call := by
  have hround : ∀ {call literal}, pair.Makes forest call → pair.Makes forest literal →
      call.kind = .call → literal.kind = .call := by
    intro call literal hcall hliteral hkind
    obtain ⟨callee, hcallee, -⟩ := hcall.call hkind
    have hbracket := hliteral.bracket.trans hcall.bracket.symm
    have htuple := hliteral.tuple
    rw [hkind] at hbracket
    rw [hcallee] at htuple
    cases hliteral : literal.kind <;> simp [hliteral, NodeKind.bracket] at hbracket htuple ⊢
  exact ⟨hround h h', hround h' h⟩

theorem start_unique {node' : Node} (h : pair.Makes forest node) (h' : pair.Makes forest node')
    (hunique : ∀ first ∈ forestPreorder forest, pair.Adopts first →
      ∀ second ∈ forestPreorder forest, first.stop = second.stop → first = second) :
    node.start = node'.start := by
  by_cases hcall : node.kind = .call
  · obtain ⟨callee, hcallee, hstart⟩ := h.call hcall
    obtain ⟨callee', hcallee', hstart'⟩ := h'.call ((kind_eq_call_iff h h').mp hcall)
    obtain rfl := Option.some.inj (hcallee.symm.trans hcallee')
    cases callee with
    | chain first => exact hstart.trans hstart'.symm
    | group stop first? =>
        rcases hstart with ⟨first, hmem, rfl, hstart⟩ | ⟨habsent, hstart⟩
        · rcases hstart' with ⟨second, hmem', hstop, hstart'⟩ | ⟨habsent, -⟩
          · rw [hstart, hstart', hunique first hmem ⟨first?, hcallee⟩ second hmem' hstop.symm]
          · exact absurd rfl (habsent first hmem)
        · rcases hstart' with ⟨second, hmem', hstop, -⟩ | ⟨-, hstart'⟩
          · exact absurd hstop (habsent second hmem')
          · exact hstart.trans hstart'.symm
  · rw [h.literal hcall, h'.literal fun hcall' => hcall ((kind_eq_call_iff h h').mpr hcall')]

end Makes

end Enclosure

/-! ## Forests of pairs -/

/-- A nested forest each node of which is made from a pair of brackets. -/
structure Paired (tokens : List Token) (forest : List Node) : Prop where
  ordered : Token.Ordered tokens
  nested : ∀ node ∈ forestPreorder forest, node.Nested
  apart : Apart forest
  made : ∀ node ∈ forestPreorder forest, ∃ pair : Enclosure tokens, pair.Makes forest node

namespace Paired

variable {tokens : List Token} {forest : List Node} {outer inner : Node}
  {pair other : Enclosure tokens}

theorem cases_of_mem (h : Paired tokens forest) (houter : outer ∈ forestPreorder forest)
    (hinner : inner ∈ forestPreorder forest) :
    outer = inner ∨ inner ∈ forestPreorder outer.children ∨ outer ∈ forestPreorder inner.children ∨
      outer.stop ≤ inner.start ∨ inner.stop ≤ outer.start := by
  rcases Token.related_of_pairwise (pairwise_forestPreorder forest h.nested h.apart) houter hinner
    with heq | (hle | hbelow) | (hle | hbelow)
  · exact .inl heq
  · exact .inr (.inr (.inr (.inl hle)))
  · exact .inr (.inl hbelow)
  · exact .inr (.inr (.inr (.inr hle)))
  · exact .inr (.inr (.inl hbelow))

theorem within (h : Paired tokens forest) (houter : outer ∈ forestPreorder forest)
    (hbelow : inner ∈ forestPreorder outer.children) : inner.Within outer :=
  within_of_mem_below (h.nested outer houter) (fun node hnode => h.nested node
    (forestPreorder_of_mem (mem_preorder_of_below hnode) forest houter)) hbelow

theorem stop_le (h : Paired tokens forest) (houter : outer ∈ forestPreorder forest)
    (hinner : inner ∈ outer.preorder) : inner.stop ≤ outer.stop :=
  (bounds_of_mem_preorder outer (fun node hnode => h.nested node
    (forestPreorder_of_mem hnode forest houter)) inner hinner).2

theorem eq_of_range (h : Paired tokens forest) (houter : outer ∈ forestPreorder forest)
    (hinner : inner ∈ forestPreorder forest) (hrange : outer.range = inner.range) :
    outer = inner := by
  obtain ⟨hstart, hstop⟩ := range_eq_iff.mp hrange
  have hlt := (h.nested inner hinner).start_lt_stop
  rcases h.cases_of_mem houter hinner with heq | hbelow | hbelow | hle | hle
  · exact heq
  · exact absurd hrange.symm (h.within houter hbelow).2.2
  · exact absurd hrange (h.within hinner hbelow).2.2
  · omega
  · omega

theorem eq_of_stop (h : Paired tokens forest) (houter : outer ∈ forestPreorder forest)
    (hinner : inner ∈ forestPreorder forest) (hstop : outer.stop = inner.stop) : outer = inner := by
  obtain ⟨bound, hbound⟩ : ∃ bound, outer.stop ≤ bound := ⟨_, Nat.le_refl _⟩
  induction bound generalizing outer inner with
  | zero =>
      have hlt := (h.nested outer houter).start_lt_stop
      omega
  | succ bound ih =>
      obtain ⟨pair, hpair⟩ := h.made outer houter
      obtain ⟨other, hother⟩ := h.made inner hinner
      obtain rfl : other = pair :=
        Enclosure.eq_of_closing h.ordered (by rw [← hpair.stop, ← hother.stop, hstop])
      -- nodes that can be adopted end before the node does
      have hstart := hpair.start_unique hother fun first hfirst hadopts second hsecond heq => by
        have hle := hadopts.stop_le h.ordered
        have hbounds := other.bounds h.ordered
        have hend := hpair.stop
        exact ih hfirst hsecond heq (by omega)
      exact h.eq_of_range houter hinner (range_eq_iff.mpr ⟨hstart, hstop⟩)

/-- What is below a node is held by its pair, or has been adopted with the callee. -/
theorem cases_of_below (h : Paired tokens forest) (houter : outer ∈ forestPreorder forest)
    (hpair : pair.Makes forest outer) (hother : other.Makes forest inner)
    (hbelow : inner ∈ forestPreorder outer.children) :
    pair.Holds other ∨ outer.kind = .call ∧
      ∃ callee ∈ forestPreorder forest, pair.Adopts callee ∧ inner ∈ callee.preorder := by
  have hinner := forestPreorder_of_mem (mem_preorder_of_below hbelow) forest houter
  have hwithin := h.within houter hbelow
  obtain ⟨hstart, hstop, hrange⟩ := within_iff.mp hwithin
  rw [hpair.stop, hother.stop] at hstop
  rcases Enclosure.cases_of_closing_le h.ordered hstop with rfl | hbefore | hholds
  · have heq := h.eq_of_stop houter hinner (hpair.stop.trans hother.stop.symm)
    exact absurd (congrArg range heq).symm hwithin.2.2
  · -- the brackets before those of the node are passed by its start, unless it has adopted a node
    have hseam : other.closing.stop ≤ seam pair.before.reverse :=
      (pair.reading h.ordered).stop_le_seam (List.mem_reverse.mpr hbefore)
        (isBracket_of_closed other.closed)
    rw [← hother.stop] at hseam
    have hlt := (h.nested inner hinner).start_lt_stop
    rcases hpair.start_cases h.ordered with ⟨hle, -⟩ | ⟨hcall, callee, hcallee, hadopts, heq⟩
    · omega
    · rw [← hadopts.stop_eq h.ordered] at hseam
      refine .inr ⟨hcall, callee, hcallee, hadopts, ?_⟩
      rcases h.cases_of_mem hcallee hinner with rfl | hmem | hmem | hafter | hafter
      · exact self_mem_preorder _
      · exact mem_preorder_of_below hmem
      · have hcontains := within_iff.mp (h.within hinner hmem)
        omega
      · omega
      · omega
  · exact .inl hholds

/-- A call reaches back over the node that its pair adopts. -/
theorem below_of_adopts (h : Paired tokens forest) (houter : outer ∈ forestPreorder forest)
    (hinner : inner ∈ forestPreorder forest) (hpair : pair.Makes forest outer)
    (hcall : outer.kind = .call) (hadopts : pair.Adopts inner) :
    inner ∈ forestPreorder outer.children := by
  have hbounds := pair.bounds h.ordered
  have hstop := hpair.stop
  have hle := hadopts.stop_le h.ordered
  have hlt := (h.nested inner hinner).start_lt_stop
  have hstart : outer.start < inner.stop := by
    obtain ⟨callee, hcallee, hstart⟩ := hpair.call hcall
    obtain ⟨first?, hgroup⟩ := hadopts
    obtain rfl := Option.some.inj (hgroup.symm.trans hcallee)
    rcases hstart with ⟨node, hnode, hend, hstart⟩ | ⟨habsent, -⟩
    · rw [hstart, ← hend]
      exact (h.nested node hnode).start_lt_stop
    · exact absurd rfl (habsent inner hinner)
  rcases h.cases_of_mem houter hinner with rfl | hbelow | hbelow | hafter | hafter
  · omega
  · exact hbelow
  · have hwithin := within_iff.mp (h.within hinner hbelow)
    omega
  · omega
  · omega

/-- A node is below another one exactly when the pair of the other one holds its pair, or when it is
the node that the other one has adopted as its callee or below that. -/
theorem below_iff (h : Paired tokens forest) (houter : outer ∈ forestPreorder forest)
    (hinner : inner ∈ forestPreorder forest) (hpair : pair.Makes forest outer)
    (hother : other.Makes forest inner) :
    inner ∈ forestPreorder outer.children ↔
      pair.Holds other ∨ outer.kind = .call ∧
        ∃ callee ∈ forestPreorder forest, pair.Adopts callee ∧ inner ∈ callee.preorder := by
  refine ⟨h.cases_of_below houter hpair hother, ?_⟩
  rintro (⟨hopening, hclosing⟩ | ⟨hcall, callee, hcallee, hadopts, hmem⟩)
  · have hstop := hpair.stop
    have hstop' := hother.stop
    have hbounds := pair.bounds h.ordered
    have hbounds' := other.bounds h.ordered
    have hstart := hpair.start_le h.ordered
    have hstart' := hother.start_le h.ordered
    rcases h.cases_of_mem houter hinner with rfl | hbelow | hbelow | hle | hle
    · have heq : other = pair := Enclosure.eq_of_closing h.ordered (by omega)
      subst heq
      omega
    · exact hbelow
    · -- the other way round, the other pair would hold this one or come after it
      rcases h.cases_of_below hinner hother hpair hbelow with
        hholds | ⟨-, callee, hcallee, hadopts, hmem⟩
      · have hlt := hholds.1
        omega
      · have hle := hadopts.stop_le h.ordered
        have hend := h.stop_le hcallee hmem
        omega
    · omega
    · omega
  · exact forestPreorder_of_mem hmem outer.children
      (h.below_of_adopts houter hcallee hpair hcall hadopts)

end Paired

end CaptureLint.Structure
