import CaptureLint.Proofs.Structure.Brackets

/-!
# The ledger of brackets

A run reads every token at one moment.  On its books are the nodes that are complete and those that
the open groups become.  An opening bracket outside of capture lists enters what it begins; ends of
groups, whether a bracket fits or not, only move nodes.  So the forest holds one node for every
bracket that begins one.  The other opening brackets are bodies, subscripts or parts of capture
lists.
-/

namespace CaptureLint.Node

/-- What a node has from the group that it was made of. -/
def entry (node : Node) : NodeKind × Nat := (node.kind, node.start)

theorem forestPreorder_perm {first second : List Node} (h : first.Perm second) :
    (forestPreorder first).Perm (forestPreorder second) := by
  have hflat : ∀ forest, forestPreorder forest = forest.flatMap preorder := by
    intro forest
    induction forest with
    | nil => rfl
    | cons node forest ih => rw [forestPreorder_cons, List.flatMap_cons, ih]
  rw [hflat, hflat]
  exact h.flatMap_right preorder

end CaptureLint.Node

namespace CaptureLint.Structure

open Node CaptureLint.Bracket

variable {lineOf : Nat → Nat} {tokens rest after : List Token} {token : Token}

/-! ## Books -/

/-- The nodes that are complete and those that the open groups become, by kind and start. -/
def ledger (nodes : List Node) (groups : List Group) : List (NodeKind × Nat) :=
  (forestPreorder (nodes ++ groups.flatMap (·.outer.nodes))).map entry ++
    groups.filterMap Group.becomes

/-- The end of a group moves its entry from the groups to the nodes. -/
theorem ledger_finish (nodes : List Node) (group : Group) (groups : List Group) (stop : Nat) :
    (ledger (group.finish nodes stop).nodes groups).Perm (ledger nodes (group :: groups)) := by
  unfold ledger Group.finish
  rw [List.flatMap_cons, List.filterMap_cons]
  split
  · rename_i hbecomes
    rw [hbecomes, List.append_assoc]
  · rename_i kind start hbecomes
    have hentry : entry (.mk kind (.between start stop) nodes.reverse) = (kind, start) := rfl
    have hchildren : forestPreorder
        (Node.mk kind (.between start stop) nodes.reverse).children =
          forestPreorder nodes.reverse := rfl
    rw [hbecomes, List.cons_append, forestPreorder_cons, preorder_eq, hchildren,
      forestPreorder_append nodes, List.cons_append, List.map_cons, hentry, List.cons_append]
    refine List.Perm.trans ?_ List.perm_middle.symm
    refine List.Perm.cons _ (List.Perm.append_right _ (List.Perm.map _ ?_))
    exact (forestPreorder_perm (List.reverse_perm nodes)).append_right _

theorem ledger_keptByFinish (entries : List (NodeKind × Nat)) :
    KeptByFinish (fun _ => True) fun _ nodes groups => (ledger nodes groups).Perm entries :=
  ⟨fun h _ => h, fun h _ _ => (ledger_finish _ _ _ _).trans h⟩

theorem round_of_begins {body : Bool} {before : List Token} {nodes outer inner : List Node}
    {becomes : Option (NodeKind × Nat)} {captures : Nat}
    (h : Begins body before token after .round nodes becomes outer inner captures) :
    ∃ kind start, becomes = some (kind, start) ∧ kind.bracket = .round ∧
      (kind ≠ .call → start = token.start) := by
  generalize hround : Bracket.round = bracket at h ⊢
  cases h with
  | subscript => cases hround
  | body => cases hround
  | literal _ kind => exact ⟨kind, _, rfl, rfl, fun _ => rfl⟩
  | closure => cases hround
  | chain => exact ⟨_, _, rfl, rfl, fun hkind => absurd rfl hkind⟩
  | group => exact ⟨_, _, rfl, rfl, fun hkind => absurd rfl hkind⟩
  | adoption => exact ⟨_, _, rfl, rfl, fun hkind => absurd rfl hkind⟩

/-! ## Moments -/

/-- A moment of a run: what the tokens read so far have led to, the token that is read next, and the
tokens after it. -/
structure Moment where
  builder : Builder
  token : Token
  after : List Token

namespace Moment

def skips (moment : Moment) : Bool := moment.builder.captures != 0

def opens? (moment : Moment) : Option Bracket :=
  if moment.skips then none else opened? moment.token

/-- The node that the group opened at the moment is going to be, by kind and start. -/
def begins? (lineOf : Nat → Nat) (moment : Moment) : Option (NodeKind × Nat) :=
  moment.opens?.bind fun _ =>
    (moment.builder.act lineOf moment.token moment.after).groups.head?.bind Group.becomes

def opensBody (lineOf : Nat → Nat) (moment : Moment) : Bool :=
  Builder.opensBody lineOf moment.builder.level.pending moment.builder.before moment.token.start

def followsCallee (moment : Moment) : Bool :=
  Structure.followsCallee moment.builder.before moment.token.start

variable {moment : Moment}

theorem opens?_eq_some_iff {bracket : Bracket} :
    moment.opens? = some bracket ↔
      moment.builder.captures = 0 ∧ opened? moment.token = some bracket := by
  by_cases hcaptures : moment.builder.captures = 0 <;> simp [opens?, skips, hcaptures]

theorem begins?_eq (lineOf : Nat → Nat) {bracket : Bracket} (h : moment.opens? = some bracket) :
    moment.begins? lineOf =
      (moment.builder.act lineOf moment.token moment.after).groups.head?.bind Group.becomes := by
  rw [begins?, h, Option.bind_some]

theorem begins?_curly (lineOf : Nat → Nat) (h : moment.opens? = some .curly) :
    moment.begins? lineOf =
      if moment.opensBody lineOf then none else some (.closure, moment.token.start) := by
  have hopened := (opens?_eq_some_iff.mp h).2
  rw [begins?_eq lineOf h, opensBody, Builder.act, hopened]
  dsimp only [Builder.openCurly]
  split <;> rfl

theorem begins?_square (lineOf : Nat → Nat) (h : moment.opens? = some .square) :
    moment.begins? lineOf =
      if moment.followsCallee then none
      else some (if hasColon 0 moment.after then .dictionary else .array, moment.token.start) := by
  have hopened := (opens?_eq_some_iff.mp h).2
  rw [begins?_eq lineOf h, followsCallee, Builder.act, hopened]
  rfl

theorem begins?_round (lineOf : Nat → Nat) (h : moment.opens? = some .round) :
    ∃ kind start, moment.begins? lineOf = some (kind, start) ∧ kind.bracket = .round ∧
      (kind ≠ .call → start = moment.token.start) := by
  have hopened := (opens?_eq_some_iff.mp h).2
  obtain ⟨becomes, outer, inner, hround, hbegins⟩ :=
    Builder.openRound_begins true moment.builder moment.token moment.after
  have hbecomes : moment.begins? lineOf = becomes := by
    rw [begins?_eq lineOf h, Builder.act, hopened]
    dsimp only
    rw [hround]
    rfl
  rw [hbecomes]
  exact round_of_begins hbegins

/-- What a bracket begins has its kind, and starts with it unless it is a call. -/
theorem bracket_of_begins? {kind : NodeKind} {start : Nat}
    (h : moment.begins? lineOf = some (kind, start)) :
    moment.opens? = some kind.bracket ∧ (kind ≠ .call → start = moment.token.start) := by
  cases hopens : moment.opens? with
  | none => simp [begins?, hopens] at h
  | some bracket =>
      cases bracket with
      | round =>
          obtain ⟨kind', start', hbegins, hbracket, hstart⟩ := begins?_round lineOf hopens
          cases hbegins.symm.trans h
          exact ⟨by rw [hbracket], hstart⟩
      | square =>
          rw [begins?_square lineOf hopens] at h
          split at h
          · cases h
          · cases h
            refine ⟨?_, fun _ => rfl⟩
            split <;> rfl
      | curly =>
          rw [begins?_curly lineOf hopens] at h
          split at h
          · cases h
          · cases h
            exact ⟨rfl, fun _ => rfl⟩

end Moment

namespace Builder

variable {builder : Builder} {moment : Moment}

/-- The moments of a run, in order. -/
def moments (lineOf : Nat → Nat) : Builder → List Token → List Moment
  | _, [] => []
  | builder, token :: after =>
      ⟨builder, token, after⟩ :: moments lineOf (builder.step lineOf token after) after

theorem map_token_moments (lineOf : Nat → Nat) (builder : Builder) (tokens : List Token) :
    (moments lineOf builder tokens).map Moment.token = tokens := by
  induction tokens generalizing builder with
  | nil => rfl
  | cons token after ih => rw [moments, List.map_cons, ih]

theorem reached_of_mem_moments (h : Reached lineOf tokens builder rest)
    (hmoment : moment ∈ moments lineOf builder rest) :
    Reached lineOf tokens moment.builder (moment.token :: moment.after) := by
  induction rest generalizing builder with
  | nil => cases hmoment
  | cons token after ih =>
      rcases List.mem_cons.mp hmoment with rfl | hlater
      · exact h
      · exact ih h.step hlater

theorem mem_moments_of_reached (h : Reached lineOf tokens builder (token :: after)) :
    ⟨builder, token, after⟩ ∈ moments lineOf .initial tokens := by
  have hsuffix : ∀ {builder rest}, Reached lineOf tokens builder rest →
      moments lineOf builder rest <:+ moments lineOf .initial tokens := by
    intro builder rest hreached
    induction hreached with
    | initial => exact List.suffix_refl _
    | step reached ih => exact (List.suffix_cons _ _).trans ih
  exact (hsuffix h).subset List.mem_cons_self

theorem pairwise_moments (lineOf : Nat → Nat) (hordered : Token.Ordered tokens) :
    (moments lineOf .initial tokens).Pairwise fun first second =>
      first.token.start < second.token.start := by
  have hstarts := hordered.starts
  conv at hstarts => arg 2; rw [← map_token_moments lineOf .initial tokens]
  rw [List.pairwise_map] at hstarts
  exact hstarts

theorem eq_of_token {other : Moment} (hordered : Token.Ordered tokens)
    (hmoment : moment ∈ moments lineOf .initial tokens)
    (hother : other ∈ moments lineOf .initial tokens)
    (h : other.token.start = moment.token.start) : other = moment := by
  rcases Token.related_of_pairwise (pairwise_moments lineOf hordered) hother hmoment with
    heq | hlt | hlt
  · exact heq
  · omega
  · omega

/-! ## Steps and runs on the books -/

theorem ledger_step (lineOf : Nat → Nat)
    (hreading : Reading tokens builder.before (token :: after)) :
    (ledger (builder.step lineOf token after).level.nodes
      (builder.step lineOf token after).groups).Perm
        ((Moment.begins? lineOf ⟨builder, token, after⟩).toList ++
          ledger builder.level.nodes builder.groups) := by
  unfold step
  cases hcaptures : builder.captures with
  | succ captures =>
      have hnone : Moment.begins? lineOf ⟨builder, token, after⟩ = none := by
        simp [Moment.begins?, Moment.opens?, Moment.skips, hcaptures]
      rw [hnone]
      exact List.Perm.refl _
  | zero =>
      dsimp only
      rcases bracket_cases token with ⟨bracket, hopened⟩ | ⟨bracket, hclosed⟩ | hplain
      · obtain ⟨becomes, outer, inner, captures, hact, hbegins⟩ :=
          act_begins lineOf after hcaptures hopened
        have hbecomes : Moment.begins? lineOf ⟨builder, token, after⟩ = becomes := by
          rw [Moment.begins?_eq lineOf (Moment.opens?_eq_some_iff.mpr ⟨hcaptures, hopened⟩), hact]
          rfl
        rw [hbecomes, hact, ledger, ledger, ← append_of_begins hbegins]
        simp only [openGroup, List.flatMap_cons, List.append_assoc, List.filterMap_cons]
        cases becomes with
        | none => exact List.Perm.refl _
        | some expression => exact List.perm_middle
      · have hnone : Moment.begins? lineOf ⟨builder, token, after⟩ = none := by
          simp [Moment.begins?, Moment.opens?, Moment.skips, hcaptures, opened?_of_closed? hclosed]
        rw [hnone]
        exact (ledger_keptByFinish _).act hreading hclosed (List.Perm.refl _) trivial
          fun _ => trivial
      · obtain ⟨pending, hact⟩ := act_of_plain lineOf builder after hplain
        rw [isBracket_eq_false_iff] at hplain
        have hnone : Moment.begins? lineOf ⟨builder, token, after⟩ = none := by
          simp [Moment.begins?, Moment.opens?, Moment.skips, hcaptures, hplain.1]
        rw [hnone, hact]
        exact List.Perm.refl _

theorem Reached.ledger_run (hordered : Token.Ordered tokens)
    (h : Reached lineOf tokens builder rest) :
    (ledger (builder.run lineOf rest).level.nodes (builder.run lineOf rest).groups).Perm
      ((moments lineOf builder rest).filterMap (Moment.begins? lineOf) ++
        ledger builder.level.nodes builder.groups) := by
  induction rest generalizing builder with
  | nil => exact List.Perm.refl _
  | cons token after ih =>
      have hstep := ledger_step lineOf (h.reading hordered)
      refine (ih h.step).trans ((hstep.append_left _).trans ?_)
      rw [moments, List.filterMap_cons]
      cases Moment.begins? lineOf ⟨builder, token, after⟩ with
      | none => exact List.Perm.refl _
      | some expression => exact List.perm_middle

/-- The nodes of the forest are what was begun. -/
theorem perm_entries_result (lineOf : Nat → Nat) (hordered : Token.Ordered tokens) :
    ((forestPreorder (Builder.initial.run lineOf tokens).result).map entry).Perm
      ((moments lineOf .initial tokens).filterMap (Moment.begins? lineOf)) := by
  have hrun := (@Reached.initial lineOf tokens).ledger_run hordered
  have hreading := (@Reached.initial lineOf tokens).run.reading hordered
  have hclosed := (ledger_keptByFinish _).closeAll hrun hreading.seam_le_lastStop fun _ => trivial
  have hempty : ledger Builder.initial.level.nodes Builder.initial.groups = [] := rfl
  rw [hempty, List.append_nil, ledger, List.flatMap_nil, List.filterMap_nil, List.append_nil,
    List.append_nil] at hclosed
  exact ((forestPreorder_perm (List.reverse_perm _)).map entry).trans hclosed

end Builder

/-! ## Capture lists -/

def InCaptureList (lineOf : Nat → Nat) (tokens : List Token) (token : Token) : Prop :=
  ∃ builder brace behind length, Builder.Reached lineOf tokens builder (brace :: behind) ∧
    opened? brace = some .curly ∧
    Builder.opensBody lineOf builder.level.pending builder.before brace.start = false ∧
    captureListLength? behind = some length ∧ token ∈ behind.take length

def isBrace (token : Token) : Bool := token.isPunctuation "\x7b" || token.isPunctuation "\x7d"

theorem not_isBrace_of_squareGroupLength? {depth length : Nat}
    (h : squareGroupLength? depth rest = some length) :
    ∀ token ∈ rest.take length, isBrace token = false := by
  have hother : ∀ {token : Token} {sign : String}, token.isPunctuation sign = true →
      sign ≠ "\x7b" → sign ≠ "\x7d" → isBrace token = false := by
    intro token sign hsign hopener hcloser
    simp only [Token.isPunctuation, Token.spells, Bool.and_eq_true, beq_iff_eq] at hsign
    have hne : ∀ {word : String}, sign ≠ word → (sign.toList == word.toList) = false :=
      fun hword => beq_eq_false_iff_ne.mpr fun heq => hword (String.toList_inj.mp heq)
    rw [isBrace, Token.isPunctuation, Token.isPunctuation, Token.spells, Token.spells, hsign.2,
      hne hopener, hne hcloser, Bool.and_false, Bool.or_false]
  have hlater : ∀ {token : Token} {after : List Token} {found : Option Nat} {length : Nat},
      isBrace token = false → found.map (· + 1) = some length →
      (∀ {length}, found = some length → ∀ other ∈ after.take length, isBrace other = false) →
      ∀ other ∈ (token :: after).take length, isBrace other = false := by
    intro token after found length htoken hlength ih other hother
    obtain ⟨shorter, hfound, rfl⟩ := Option.map_eq_some_iff.mp hlength
    rcases List.mem_cons.mp hother with rfl | hother
    · exact htoken
    · exact ih hfound other hother
  fun_induction squareGroupLength? depth rest generalizing length with
  | case1 => cases h
  | case2 depth token after hopen ih => exact hlater (hother hopen (by decide) (by decide)) h ih
  | case3 depth token after hopen hclose hdepth =>
      cases h
      intro other hmem
      rw [List.take_succ_cons, List.take_zero, List.mem_singleton] at hmem
      exact hmem ▸ hother hclose (by decide) (by decide)
  | case4 depth token after hopen hclose hdepth ih =>
      exact hlater (hother hclose (by decide) (by decide)) h ih
  | case5 => cases h
  | case6 depth token after hopen hclose hbrace ih => exact hlater (Bool.eq_false_iff.mpr hbrace) h ih

/-- No opening brace lies in a capture list. -/
theorem not_curly_of_inCaptureList (h : InCaptureList lineOf tokens token) :
    opened? token ≠ some .curly := by
  obtain ⟨builder, brace, behind, length, -, -, -, hlength, htoken⟩ := h
  simp only [captureListLength?, Option.bind_eq_bind, Option.bind_eq_some_iff,
    Option.ite_none_right_eq_some, Option.some.injEq] at hlength
  obtain ⟨first, -, -, length, hgroup, -, rfl⟩ := hlength
  intro hopened
  have hbrace := not_isBrace_of_squareGroupLength? hgroup token htoken
  rw [isBrace, (isPunctuation_iff_opened? rfl).mpr hopened, Bool.true_or] at hbrace
  cases hbrace

namespace Builder

variable {builder : Builder} {moment : Moment}

theorem Reached.exists_captures {passed : List Token}
    (h : Reached lineOf tokens builder (passed ++ token :: after))
    (hlt : passed.length < builder.captures) :
    ∃ later, Reached lineOf tokens later (token :: after) ∧ later.captures ≠ 0 := by
  induction passed generalizing builder with
  | nil => exact ⟨builder, h, Nat.ne_of_gt hlt⟩
  | cons next passed ih =>
      obtain ⟨captures, hcaptures⟩ : ∃ captures, builder.captures = captures + 1 :=
        ⟨builder.captures - 1, by omega⟩
      rw [hcaptures, List.length_cons] at hlt
      refine ih h.step ?_
      rw [Builder.step, hcaptures]
      exact Nat.lt_of_succ_lt_succ hlt

theorem inCaptureList_of_captures (h : Reached lineOf tokens builder (token :: after))
    (hcaptures : builder.captures ≠ 0) : InCaptureList lineOf tokens token := by
  obtain ⟨opener, brace, behind, passed, hopener, hbrace, hbody, rfl, hlength⟩ :=
    h.captures_cases.resolve_left hcaptures
  obtain ⟨captures, hsucc⟩ := Nat.exists_eq_succ_of_ne_zero hcaptures
  refine ⟨opener, brace, _, _, hopener, hbrace, hbody, hlength, ?_⟩
  rw [hsucc, List.take_length_add_append, List.take_succ_cons]
  simp

/-- The tokens of capture lists are the ones that are passed over. -/
theorem skips_iff (hordered : Token.Ordered tokens)
    (hmoment : moment ∈ moments lineOf .initial tokens) :
    moment.skips = true ↔ InCaptureList lineOf tokens moment.token := by
  have hskips : moment.skips = true ↔ moment.builder.captures ≠ 0 := by simp [Moment.skips]
  rw [hskips]
  refine ⟨inCaptureList_of_captures (reached_of_mem_moments .initial hmoment), ?_⟩
  rintro ⟨builder, brace, behind, length, hreached, hbrace, hbody, hlength, htoken⟩
  -- the brace is not passed over itself, so the list is counted from there
  have hzero : builder.captures = 0 := Decidable.byContradiction fun hcaptures =>
    not_curly_of_inCaptureList (inCaptureList_of_captures hreached hcaptures) hbrace
  have hcaptures : (builder.step lineOf brace behind).captures = length := by
    rw [step, hzero]
    dsimp only
    rw [act, hbrace]
    simp [openCurly, hbody, hlength]
  obtain ⟨passed, rest, htake⟩ := List.append_of_mem htoken
  have hbehind : behind = passed ++ moment.token :: (rest ++ behind.drop length) := by
    conv => lhs; rw [← List.take_append_drop length behind, htake]
    simp
  have hlt : passed.length < length := by
    have hle := congrArg List.length htake
    simp only [List.length_take, List.length_append, List.length_cons] at hle
    omega
  have hstep := hreached.step
  rw [hbehind] at hstep hcaptures
  obtain ⟨later, hlater, hne⟩ := hstep.exists_captures (hcaptures.symm ▸ hlt)
  rw [← eq_of_token hordered hmoment (mem_moments_of_reached hlater) rfl]
  exact hne

/-! ## Counts -/

theorem countP_of_key {α : Type} {items : List α} {key : α → Nat} {item : α} {p : α → Bool}
    (hkeys : items.Pairwise (key · < key ·)) (hitem : item ∈ items)
    (hp : ∀ other ∈ items, p other = true → key other = key item) :
    items.countP p = if p item then 1 else 0 := by
  obtain ⟨before, after, rfl⟩ := List.append_of_mem hitem
  rw [List.pairwise_append, List.pairwise_cons] at hkeys
  have hbefore : before.countP p = 0 := by
    rw [List.countP_eq_zero]
    intro other hother hother'
    have hlt := hkeys.2.2 other hother item List.mem_cons_self
    have heq := hp other (List.mem_append_left _ hother) hother'
    omega
  have hafter : after.countP p = 0 := by
    rw [List.countP_eq_zero]
    intro other hother hother'
    have hlt := hkeys.2.1.1 other hother
    have heq := hp other (List.mem_append_right _ (List.mem_cons_of_mem _ hother)) hother'
    omega
  rw [List.countP_append, List.countP_cons, hbefore, hafter]
  simp

/-- Nodes are counted where they are begun. -/
theorem countP_result (lineOf : Nat → Nat) (hordered : Token.Ordered tokens)
    (p : NodeKind × Nat → Bool) :
    (forestPreorder (Builder.initial.run lineOf tokens).result).countP (fun node => p node.entry) =
      (moments lineOf .initial tokens).countP fun moment => (moment.begins? lineOf).any p := by
  have hperm := (perm_entries_result lineOf hordered).countP_eq p
  rw [List.countP_map, List.countP_filterMap] at hperm
  refine hperm.trans (List.countP_congr fun moment _ => ?_)
  cases moment.begins? lineOf <;> simp

end Builder

/-- The number of nodes of a forest that are made of a bracket at a byte offset. -/
def nodesAt (forest : List Node) (bracket : Bracket) (start : Nat) : Nat :=
  (forestPreorder forest).countP fun node => node.kind.bracket == bracket && node.start == start

namespace Builder

variable {moment : Moment}

/-- At most one node starts with a bracket: the one that the bracket begins. -/
theorem nodesAt_result (hordered : Token.Ordered tokens)
    (hmoment : moment ∈ moments lineOf .initial tokens) {bracket : Bracket}
    (hround : bracket ≠ .round) (hopens : moment.opens? = some bracket) :
    nodesAt (Builder.initial.run lineOf tokens).result bracket moment.token.start =
      if (moment.begins? lineOf).isSome then 1 else 0 := by
  have hstart : ∀ {other : Moment} {kind : NodeKind} {start : Nat},
      other.begins? lineOf = some (kind, start) → kind.bracket = bracket →
        start = other.token.start := by
    intro other kind start hbegins hbracket
    refine (Moment.bracket_of_begins? hbegins).2 ?_
    rintro rfl
    exact hround hbracket.symm
  have hcount := countP_result lineOf hordered fun expression =>
    expression.1.bracket == bracket && expression.2 == moment.token.start
  refine hcount.trans ((countP_of_key (pairwise_moments lineOf hordered) hmoment ?_).trans ?_)
  · intro other hother hmatch
    cases hbegins : other.begins? lineOf with
    | none => simp [hbegins] at hmatch
    | some expression =>
        rw [hbegins, Option.any_some, Bool.and_eq_true, beq_iff_eq, beq_iff_eq] at hmatch
        rw [← hmatch.2, hstart hbegins hmatch.1]
  · cases hbegins : moment.begins? lineOf with
    | none => rfl
    | some expression =>
        have hbracket := (Moment.bracket_of_begins? hbegins).1
        rw [hopens, Option.some.injEq] at hbracket
        simp [← hbracket, hstart hbegins hbracket.symm]

/-- Every round bracket that is not passed over makes one node. -/
theorem countP_round (hordered : Token.Ordered tokens) :
    (forestPreorder (Builder.initial.run lineOf tokens).result).countP
        (fun node => node.kind == .call || node.kind == .tuple) =
      (moments lineOf .initial tokens).countP fun moment =>
        !moment.skips && opened? moment.token == some .round := by
  have hcount := countP_result lineOf hordered fun expression => expression.1.bracket == .round
  refine Eq.trans (List.countP_congr fun node _ => ?_)
    (hcount.trans (List.countP_congr fun moment _ => ?_))
  · show _ ↔ (node.kind.bracket == .round) = true
    cases node.kind <;> decide
  · have hopens : (!moment.skips && opened? moment.token == some .round) = true ↔
        moment.opens? = some .round := by
      cases hskips : moment.skips <;> simp [Moment.opens?, hskips]
    rw [hopens]
    constructor
    · intro hround
      cases hbegins : moment.begins? lineOf with
      | none => simp [hbegins] at hround
      | some expression =>
          rw [hbegins, Option.any_some, beq_iff_eq] at hround
          rw [(Moment.bracket_of_begins? hbegins).1, hround]
    · intro hround
      obtain ⟨kind, start, hbegins, hbracket, -⟩ := Moment.begins?_round lineOf hround
      rw [hbegins, Option.any_some, hbracket]
      rfl

theorem exists_moment_of_mem_result (hordered : Token.Ordered tokens) {node : Node}
    (hnode : node ∈ forestPreorder (Builder.initial.run lineOf tokens).result)
    (hround : node.kind.bracket ≠ .round) :
    ∃ moment ∈ moments lineOf .initial tokens, moment.opens? = some node.kind.bracket ∧
      moment.token.start = node.start := by
  have hentry := (perm_entries_result lineOf hordered).mem_iff.mp (List.mem_map_of_mem hnode)
  obtain ⟨moment, hmoment, hbegins⟩ := List.mem_filterMap.mp hentry
  obtain ⟨hopens, hstart⟩ := Moment.bracket_of_begins? hbegins
  refine ⟨moment, hmoment, hopens, (hstart ?_).symm⟩
  intro hcall
  exact hround (by rw [hcall]; rfl)

end Builder

end CaptureLint.Structure

namespace CaptureLint.Source

open Node Structure CaptureLint.Bracket

/-- The moments at which the tokens of a source are read, comments apart. -/
def moments (source : Source) : List Moment :=
  Builder.moments source.lineOfByte .initial (source.tokens.filter (!·.kind.isTrivia))

/-- Every bracket of a source is accounted for, whatever the balance.  Each token is read at one
moment, and the run ends with the forest.  The tokens that are passed over are those of capture
lists.  A brace is never passed over, and it opens a body or is where exactly one closure starts.
A `[` that is not passed over is a subscript or is where exactly one array or dictionary starts;
these nodes start nowhere else.  There are as many calls and tuples as `(` that are not passed
over. -/
theorem brackets_accounted (source : Source) :
    (source.moments.map Moment.token = source.tokens.filter (!·.kind.isTrivia) ∧
      (∀ moment ∈ source.moments, Builder.Reached source.lineOfByte
        (source.tokens.filter (!·.kind.isTrivia)) moment.builder (moment.token :: moment.after)) ∧
      ∃ final, Builder.Reached source.lineOfByte (source.tokens.filter (!·.kind.isTrivia)) final [] ∧
        final.before.reverse = source.tokens.filter (!·.kind.isTrivia) ∧
        final.result = source.structureOf source.tokens) ∧
    (∀ moment ∈ source.moments, moment.skips = true ↔
      InCaptureList source.lineOfByte (source.tokens.filter (!·.kind.isTrivia)) moment.token) ∧
    (∀ moment ∈ source.moments, opened? moment.token = some .curly →
      moment.skips = false ∧
      nodesAt (source.structureOf source.tokens) .curly moment.token.start =
        if moment.opensBody source.lineOfByte then 0 else 1) ∧
    (∀ moment ∈ source.moments, opened? moment.token = some .square → moment.skips = false →
      nodesAt (source.structureOf source.tokens) .square moment.token.start =
        if moment.followsCallee then 0 else 1) ∧
    (∀ node ∈ forestPreorder (source.structureOf source.tokens), node.kind.bracket ≠ .round →
      ∃ moment ∈ source.moments, moment.skips = false ∧
        opened? moment.token = some node.kind.bracket ∧ moment.token.start = node.start) ∧
    (forestPreorder (source.structureOf source.tokens)).countP
        (fun node => node.kind == .call || node.kind == .tuple) =
      source.moments.countP fun moment =>
        !moment.skips && opened? moment.token == some .round := by
  have hordered := source.ordered_tokens.filter (!·.kind.isTrivia)
  have hreached : ∀ moment ∈ source.moments, Builder.Reached source.lineOfByte
      (source.tokens.filter (!·.kind.isTrivia)) moment.builder (moment.token :: moment.after) :=
    fun moment hmoment => Builder.reached_of_mem_moments .initial hmoment
  have hskips : ∀ moment ∈ source.moments, moment.skips = true ↔
      InCaptureList source.lineOfByte (source.tokens.filter (!·.kind.isTrivia)) moment.token :=
    fun moment hmoment => Builder.skips_iff hordered hmoment
  have hopens : ∀ {moment : Moment} {bracket : Bracket}, moment.skips = false →
      opened? moment.token = some bracket → moment.opens? = some bracket := by
    intro moment bracket hskips hopened
    rw [Moment.opens?, hskips, hopened]
    rfl
  refine ⟨⟨Builder.map_token_moments _ _ _, hreached, ?_⟩, hskips, ?_, ?_, ?_, ?_⟩
  · have hrun := (@Builder.Reached.initial source.lineOfByte
      (source.tokens.filter (!·.kind.isTrivia))).run
    exact ⟨_, hrun, by simpa using (hrun.reading hordered).split.symm, rfl⟩
  · intro moment hmoment hcurly
    have hread : moment.skips = false := by
      rw [Bool.eq_false_iff]
      exact fun h => not_curly_of_inCaptureList ((hskips moment hmoment).mp h) hcurly
    refine ⟨hread, ?_⟩
    refine (Builder.nodesAt_result hordered hmoment (by decide) (hopens hread hcurly)).trans ?_
    rw [Moment.begins?_curly _ (hopens hread hcurly)]
    split <;> rfl
  · intro moment hmoment hsquare hread
    refine (Builder.nodesAt_result hordered hmoment (by decide) (hopens hread hsquare)).trans ?_
    rw [Moment.begins?_square _ (hopens hread hsquare)]
    split <;> rfl
  · intro node hnode hround
    obtain ⟨moment, hmoment, hfound, hstart⟩ :=
      Builder.exists_moment_of_mem_result hordered hnode hround
    obtain ⟨hcaptures, hopened⟩ := Moment.opens?_eq_some_iff.mp hfound
    exact ⟨moment, hmoment, by simp [Moment.skips, hcaptures], hopened, hstart⟩
  · exact Builder.countP_round hordered

end CaptureLint.Source
