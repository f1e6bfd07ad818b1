import CaptureLint.Proofs.Structure.Forest
import CaptureLint.Proofs.Structure.Steps

/-!
# The heads of closures

A closure opens with a capture list, with a list literal or with neither.  The builder passes over
the tokens of a capture list, so no node starts before its end, while a `[` that is no capture list
opens the first node of the closure, or is where the calls and subscripts after it start.  The
invariant speaks of the byte offsets at which the nodes of a level are going to start: they are
known as soon as a group is opened, and finishing the group does not change them.
-/

namespace CaptureLint.Structure

open Node

/-! ## The tokens of a capture list -/

theorem isPunctuation_closer {token : Token} (h : token.isPunctuation "]" = true) :
    Bracket.closed? token = some .square := by
  rw [Bracket.closed?_eq_some_iff]
  simpa [Token.isPunctuation, Token.spells, Bracket.closer] using h

def EndsSquare (after : List Token) (length : Nat) : Prop :=
  ∃ inner closing rest, after = inner ++ closing :: rest ∧ length = inner.length + 1 ∧
    Bracket.closed? closing = some .square

theorem EndsSquare.later {token : Token} {after : List Token} {found : Option Nat} {length : Nat}
    (ih : ∀ {length}, found = some length → EndsSquare after length)
    (h : found.map (· + 1) = some length) : EndsSquare (token :: after) length := by
  obtain ⟨shorter, hfound, rfl⟩ := Option.map_eq_some_iff.mp h
  obtain ⟨inner, closing, rest, rfl, rfl, hclosed⟩ := ih hfound
  exact ⟨token :: inner, closing, rest, rfl, rfl, hclosed⟩

theorem endsSquare_of_squareGroupLength? {depth length : Nat} {after : List Token}
    (h : squareGroupLength? depth after = some length) : EndsSquare after length := by
  fun_induction squareGroupLength? depth after generalizing length with
  | case1 => cases h
  | case2 depth token after hopen ih => exact .later ih h
  | case3 depth token after hopen hclose hdepth =>
      cases h
      exact ⟨[], token, after, rfl, rfl, isPunctuation_closer hclose⟩
  | case4 depth token after hopen hclose hdepth ih => exact .later ih h
  | case5 => cases h
  | case6 depth token after hopen hclose hcurly ih => exact .later ih h

theorem split_of_captureListLength? {length : Nat} {after : List Token}
    (h : captureListLength? after = some length) :
    ∃ opening inner closing rest, after = opening :: (inner ++ closing :: rest) ∧
      length = inner.length + 2 ∧ opening.text = ['['] ∧
      Bracket.closed? closing = some .square := by
  simp only [captureListLength?, Option.bind_eq_bind, Option.bind_eq_some_iff,
    Option.ite_none_right_eq_some, Option.some.injEq] at h
  obtain ⟨opening, hhead, hsymbol, length, hgroup, -, rfl⟩ := h
  have htext : opening.text = ['['] := by
    simp only [Token.isSymbol, Token.spells, Bool.and_eq_true, beq_iff_eq] at hsymbol
    exact hsymbol.2
  obtain ⟨inner, closing, rest, rfl, rfl, hclosed⟩ := endsSquare_of_squareGroupLength? hgroup
  cases inner with
  | nil =>
      obtain rfl := Option.some.inj hhead
      have hother := (Bracket.closed?_eq_some_iff.mp hclosed).2
      rw [htext] at hother
      exact absurd hother (by decide)
  | cons first inner =>
      obtain rfl := Option.some.inj hhead
      exact ⟨first, inner, closing, rest, rfl, rfl, htext, hclosed⟩

theorem isBracket_last_capture (taken after : List Token) {token : Token}
    (h : captureListLength? (taken ++ token :: after) = some (taken.length + 1)) :
    isBracket token = true := by
  obtain ⟨opening, inner, closing, rest, hsplit, hlength, -, hclosed⟩ :=
    split_of_captureListLength? h
  have hcut : taken = opening :: inner ∧ token :: after = closing :: rest :=
    List.append_inj (by rw [hsplit]; rfl) (by simp only [List.length_cons]; omega)
  cases hcut.2
  exact isBracket_of_closed hclosed

/-! ## Heads -/

variable {tokens after : List Token} {start limit : Nat} {first? : Option Nat}

/-- What the tokens after the brace of a closure say about its first node: the tokens of a capture
list end before it and before `limit`; a `[` that starts no capture list is where it starts. -/
structure Head (after : List Token) (limit : Nat) (first? : Option Nat) : Prop where
  passed : ∀ length, captureListLength? after = some length → ∀ token ∈ after.take length,
    token.stop ≤ limit ∧ ∀ first ∈ first?, token.stop ≤ first
  literal : captureListLength? after = none → ∀ token ∈ after.head?,
    Bracket.opened? token = some .square → first? = some token.start

def Headed (tokens : List Token) (start limit : Nat) (first? : Option Nat) : Prop :=
  ∃ earlier brace after, tokens = earlier ++ brace :: after ∧
    Bracket.opened? brace = some .curly ∧ brace.start = start ∧ Head after limit first?

theorem Headed.mono {limit' : Nat} (h : Headed tokens start limit first?) (hle : limit ≤ limit') :
    Headed tokens start limit' first? := by
  obtain ⟨earlier, brace, after, hsplit, hcurly, hstart, hhead⟩ := h
  refine ⟨earlier, brace, after, hsplit, hcurly, hstart, ?_, hhead.literal⟩
  intro length hlength token htoken
  obtain ⟨hstop, hfirst⟩ := hhead.passed length hlength token htoken
  exact ⟨Nat.le_trans hstop hle, hfirst⟩

theorem Headed.first {first : Nat} (h : Headed tokens start limit none) (hle : limit ≤ first) :
    Headed tokens start limit (some first) := by
  obtain ⟨earlier, brace, after, hsplit, hcurly, hstart, hhead⟩ := h
  refine ⟨earlier, brace, after, hsplit, hcurly, hstart, ?_, ?_⟩
  · intro length hlength token htoken
    have hstop := (hhead.passed length hlength token htoken).1
    refine ⟨hstop, ?_⟩
    rintro _ ⟨⟩
    exact Nat.le_trans hstop hle
  · intro hnone token htoken hsquare
    cases hhead.literal hnone token htoken hsquare

def WellHeaded (tokens : List Token) (node : Node) : Prop :=
  node.kind = .closure →
    Headed tokens node.start node.stop (node.children.head?.map Node.start)

/-! ## Open groups -/

/-- The starts of the nodes of the outer level once the group has ended, newest first, when the
nodes inside it start at `inner`. -/
def Group.starts (group : Group) (inner : List Nat) : List Nat :=
  (match group.becomes with
    | none => inner
    | some (_, start) => [start]) ++ group.outer.nodes.map Node.start

theorem Group.map_start_finish (group : Group) (inner : List Node) (stop : Nat) :
    (group.finish inner stop).nodes.map Node.start = group.starts (inner.map Node.start) := by
  unfold finish starts
  split <;> simp [*, Node.start, Node.range, ByteRange.between]

/-- A further node inside a group is one in the outer level, or it changes nothing there. -/
theorem Group.starts_cons (group : Group) (first : Nat) (inner : List Nat) :
    group.starts (first :: inner) = first :: group.starts inner ∨
      group.starts (first :: inner) = group.starts inner := by
  unfold starts
  split
  · exact .inl rfl
  · exact .inr rfl

/-- Every open group that becomes a closure is headed, with the first node inside it as it is going
to be; and so are the complete nodes around it. -/
inductive Expects (tokens : List Token) (limit : Nat) : List Nat → List Group → Prop where
  | file (starts : List Nat) : Expects tokens limit starts []
  | group {starts : List Nat} {group : Group} {groups : List Group}
      (head : ∀ start, group.becomes = some (.closure, start) →
        Headed tokens start limit starts.getLast?)
      (complete : ∀ node ∈ forestPreorder group.outer.nodes, WellHeaded tokens node)
      (outer : Expects tokens limit (group.starts starts) groups) :
      Expects tokens limit starts (group :: groups)

/-- The level with `nodes` inside open groups, everything complete being headed too. -/
structure Heads (tokens : List Token) (limit : Nat) (nodes : List Node) (groups : List Group) :
    Prop where
  complete : ∀ node ∈ forestPreorder nodes, WellHeaded tokens node
  expects : Expects tokens limit (nodes.map Node.start) groups

variable {starts : List Nat} {nodes : List Node} {group : Group} {groups : List Group}

theorem Expects.mono {limit' : Nat} (h : Expects tokens limit starts groups)
    (hle : limit ≤ limit') :
    Expects tokens limit' starts groups := by
  induction h with
  | file starts => exact .file starts
  | group head complete outer ih =>
      exact .group (fun start hbecomes => (head start hbecomes).mono hle) complete ih

theorem Expects.cons {first : Nat} (h : Expects tokens limit starts groups) (hle : limit ≤ first) :
    Expects tokens limit (first :: starts) groups := by
  induction h generalizing first with
  | file => exact .file _
  | @group starts group groups head complete outer ih =>
      refine .group ?_ complete ?_
      · intro start hbecomes
        cases starts with
        | nil => exact (head start hbecomes).first hle
        | cons next starts => exact head start hbecomes
      · rcases group.starts_cons first starts with hstarts | hstarts <;> rw [hstarts]
        · exact ih hle
        · exact outer

theorem Heads.mono {limit' : Nat} (h : Heads tokens limit nodes groups) (hle : limit ≤ limit') :
    Heads tokens limit' nodes groups :=
  ⟨h.complete, h.expects.mono hle⟩

theorem Heads.finish {stop : Nat} (h : Heads tokens limit nodes (group :: groups))
    (hle : limit ≤ stop) : Heads tokens stop (group.finish nodes stop).nodes groups := by
  obtain ⟨hcomplete, hexpects⟩ := h
  cases hexpects with
  | group head complete outer =>
      refine ⟨?_, ?_⟩
      · unfold Group.finish
        split
        · exact forall_mem_forestPreorder_append.mpr ⟨hcomplete, complete⟩
        · rename_i kind start hbecomes
          refine forall_mem_forestPreorder_cons.mpr ⟨⟨?_, fun node hnode => ?_⟩, complete⟩
          · rintro rfl
            have hchild : nodes.reverse.head?.map Node.start = (nodes.map Node.start).getLast? := by
              rw [List.head?_reverse, List.getLast?_map]
            have hstop : stop ≤ (ByteRange.between start stop).stop := by
              simp only [ByteRange.between, ByteRange.stop]
              omega
            have hheaded := (head start hbecomes).mono (Nat.le_trans hle hstop)
            rw [← hchild] at hheaded
            exact hheaded
          · exact hcomplete node (mem_forestPreorder_reverse.mp hnode)
      · rw [Group.map_start_finish]
        exact outer.mono hle

/-! ## Opening and closing -/

/-- An opening bracket opens a closure, or it is not followed by a capture list. -/
theorem Opens.closure_cases {before after : List Token} {token : Token}
    {becomes : Option (NodeKind × Nat)} {outer inner : List Node} {captures : Nat}
    (h : Opens before token after nodes becomes outer inner captures) :
    ((∀ start, becomes ≠ some (.closure, start)) ∧ captures = 0) ∨
      (Bracket.opened? token = some .curly ∧ becomes = some (.closure, token.start) ∧
        outer = nodes ∧ inner = [] ∧ captures = (captureListLength? after).getD 0) := by
  cases h with
  | transparent => exact .inl ⟨by simp, rfl⟩
  | expression _ hkind => exact .inl ⟨fun _ heq => hkind (by cases heq; rfl), rfl⟩
  | closure _ hcurly => exact .inr ⟨hcurly, rfl, rfl, rfl, rfl⟩
  | adoption => exact .inl ⟨by simp, rfl⟩

theorem Heads.opens {before after : List Token} {token : Token} {kind : Option (NodeKind × Nat)}
    {inner : List Node} {bracket : Bracket} {outer : Level} {captures : Nat}
    (h : Heads tokens (seam before) nodes groups)
    (hopens : Opens before token after nodes kind outer.nodes inner captures)
    (hkind : ∀ start, kind ≠ some (.closure, start)) :
    Heads tokens (seam before) inner (⟨bracket, kind, outer⟩ :: groups) := by
  obtain ⟨hcomplete, hexpects⟩ := h
  cases hopens with
  | transparent =>
      exact ⟨by simp [forestPreorder], .group (by simp) hcomplete hexpects⟩
  | expression nodes _ hseam =>
      exact ⟨by simp [forestPreorder],
        .group (fun start heq => absurd heq (hkind start)) hcomplete (hexpects.cons hseam)⟩
  | closure => exact absurd rfl (hkind _)
  | adoption last older hlast =>
      obtain ⟨hlast, holder⟩ := List.forall_mem_append.mp hcomplete
      rw [← forestPreorder_singleton] at hlast
      exact ⟨hlast, .group (by simp) holder hexpects⟩

theorem heads_keptByFinish : KeptByFinish (fun _ => True) (Heads tokens) :=
  ⟨Heads.mono, fun h hle _ => h.finish hle⟩

/-! ## Steps -/

/-- The head of the innermost closure is being read; `taken` are the tokens after its brace, newest
first.  Either tokens of its capture list are still to be passed over, or a `[` comes next that
starts no capture list. -/
structure Entering (tokens : List Token) (builder : Builder) (rest : List Token) (brace : Token)
    (taken earlier : List Token) (outer : Level) (groups : List Group) : Prop where
  nodes : builder.level.nodes = []
  opened : builder.groups = ⟨.curly, some (.closure, brace.start), outer⟩ :: groups
  before : builder.before = taken ++ brace :: earlier
  curly : Bracket.opened? brace = some .curly
  complete : ∀ node ∈ forestPreorder outer.nodes, WellHeaded tokens node
  expects : Expects tokens (seam builder.before) (brace.start :: outer.nodes.map Node.start) groups
  ahead : (0 < builder.captures ∧
      captureListLength? (taken.reverse ++ rest) = some (taken.length + builder.captures)) ∨
    (builder.captures = 0 ∧ taken = [] ∧ captureListLength? rest = none ∧
      ∃ token ∈ rest.head?, Bracket.opened? token = some .square)

/-- What holds between two tokens: the head of the innermost closure is being read, or every open
closure is headed. -/
inductive Situation (tokens : List Token) (builder : Builder) (rest : List Token) : Prop where
  | entering {brace : Token} {taken earlier : List Token} {outer : Level} {groups : List Group}
      (h : Entering tokens builder rest brace taken earlier outer groups)
  | headed (hcaptures : builder.captures = 0)
      (h : Heads tokens (seam builder.before) builder.level.nodes builder.groups)

namespace Builder

variable {lineOf : Nat → Nat} {builder : Builder} {token brace : Token}
  {taken earlier : List Token} {outer : Level}

theorem situation_of_closure (hreading : Reading tokens builder.before (token :: after))
    (h : Heads tokens (seam builder.before) builder.level.nodes builder.groups)
    (hcurly : Bracket.opened? token = some .curly) (houter : outer.nodes = builder.level.nodes) :
    Situation tokens
      { builder.openGroup .curly (some (.closure, token.start)) outer [] with
        before := token :: builder.before
        captures := (captureListLength? after).getD 0 } after := by
  have hcomplete := h.complete
  have hexpects := (h.expects.cons hreading.seam_le_start).mono hreading.seam_le_seam
  rw [← houter] at hcomplete hexpects
  cases hlength : captureListLength? after with
  | some length =>
      obtain ⟨opening, inner, closing, rest, -, rfl, -⟩ := split_of_captureListLength? hlength
      have hahead : captureListLength? (([] : List Token).reverse ++ after) =
          some (([] : List Token).length + (inner.length + 2)) := by
        simpa using hlength
      exact .entering ⟨rfl, rfl, rfl, hcurly, hcomplete, hexpects, .inl ⟨Nat.succ_pos _, hahead⟩⟩
  | none =>
      by_cases hsquare : ∃ next ∈ after.head?, Bracket.opened? next = some .square
      · exact .entering ⟨rfl, rfl, List.nil_append _, hcurly, hcomplete, hexpects,
          .inr ⟨rfl, rfl, hlength, hsquare⟩⟩
      · refine .headed rfl ⟨by simp [openGroup, forestPreorder], .group ?_ hcomplete hexpects⟩
        rintro _ ⟨⟩
        refine ⟨builder.before.reverse, token, after, hreading.split, hcurly, rfl, ?_, ?_⟩
        · simp [hlength]
        · intro _ next hnext hopened
          exact absurd ⟨next, hnext, hopened⟩ hsquare

theorem split_of_entering (hreading : Reading tokens builder.before (token :: after))
    (h : Entering tokens builder (token :: after) brace taken earlier outer groups) :
    tokens = earlier.reverse ++ brace :: (taken.reverse ++ token :: after) := by
  rw [hreading.split, h.before]
  simp

/-- The last token of a capture list is its `]`; all of them end there, and nothing has been found. -/
theorem head_of_last_capture (hreading : Reading tokens builder.before (token :: after))
    (h : Entering tokens builder (token :: after) brace taken earlier outer groups)
    (hlast : captureListLength? (taken.reverse ++ token :: after) = some (taken.length + 1)) :
    Head (taken.reverse ++ token :: after) (seam (token :: builder.before)) none := by
  have hbracket : isBracket token = true :=
    isBracket_last_capture taken.reverse after (by simpa using hlast)
  refine ⟨fun length hlength other hother => ⟨?_, by simp⟩, fun hnone => ?_⟩
  · obtain rfl := Option.some.inj (hlast.symm.trans hlength)
    have hread : other ∈ token :: builder.before := by
      rw [List.append_cons, List.take_left' (by simp), List.mem_append, List.mem_singleton] at hother
      rcases hother with hother | rfl
      · rw [h.before]
        exact List.mem_cons_of_mem _ (List.mem_append_left _ (List.mem_reverse.mp hother))
      · exact List.mem_cons_self
    rw [seam_of_isBracket _ hbracket]
    exact hreading.next.stop_le_lastStop other hread
  · rw [hlast] at hnone
    cases hnone

theorem situation_of_capture {captures : Nat} (hcaptures : builder.captures = captures + 1)
    (hreading : Reading tokens builder.before (token :: after))
    (h : Entering tokens builder (token :: after) brace taken earlier outer groups) :
    Situation tokens { builder with captures, before := token :: builder.before } after := by
  have hexpects := h.expects.mono hreading.seam_le_seam
  rcases h.ahead with ⟨-, hlength⟩ | ⟨hzero, -⟩
  · rw [hcaptures] at hlength
    cases captures with
    | succ captures =>
        have hahead : captureListLength? ((token :: taken).reverse ++ after) =
            some ((token :: taken).length + (captures + 1)) := by
          rw [List.reverse_cons, List.append_assoc, List.singleton_append, hlength,
            List.length_cons]
          congr 1
          omega
        exact .entering ⟨h.nodes, h.opened, by rw [h.before]; rfl, h.curly, h.complete, hexpects,
          .inl ⟨Nat.succ_pos _, hahead⟩⟩
    | zero =>
        refine .headed rfl ⟨by simp [h.nodes, forestPreorder], ?_⟩
        dsimp only
        rw [h.nodes, h.opened]
        refine .group ?_ h.complete hexpects
        rintro _ ⟨⟩
        exact ⟨_, brace, _, split_of_entering hreading h, h.curly, rfl,
          head_of_last_capture hreading h hlength⟩
  · omega

theorem act_of_literal (lineOf : Nat → Nat) {bracket : Bracket} {brace : Token} {earlier : List Token}
    (hbefore : builder.before = brace :: earlier) (hopened : Bracket.opened? brace = some bracket)
    (hsquare : Bracket.opened? token = some .square) :
    ∃ kind, kind ≠ .closure ∧ builder.act lineOf token after =
      builder.openGroup .square (some (kind, token.start)) builder.level [] := by
  have hbrace := isBracket_of_opened hopened
  have hname : isChainName brace = false := by
    rw [Bool.eq_false_iff]
    intro h
    rw [not_isBracket_of_isChainName h] at hbrace
    cases hbrace
  have hsuffix : isSuffix brace earlier = false := by
    rw [Bool.eq_false_iff]
    intro h
    rw [not_isBracket_of_isSuffix h] at hbrace
    cases hbrace
  have hclosed : (Bracket.closed? brace).isSome = false := by
    rw [Bool.eq_false_iff, ne_eq, Option.isSome_iff_exists]
    rintro ⟨other, h⟩
    rw [Bracket.opened?_of_closed? h] at hopened
    cases hopened
  have hcallee : followsCallee builder.before token.start = false := by
    rw [hbefore, followsCallee, hname, hsuffix, hclosed]
    rfl
  refine ⟨if hasColon 0 after then .dictionary else .array, by split <;> decide, ?_⟩
  unfold act
  rw [hsquare]
  dsimp only [openSquare]
  rw [hcallee]
  rfl

/-- A `[` that starts no capture list is where the first node of the closure starts. -/
theorem situation_of_literal (lineOf : Nat → Nat) (hcaptures : builder.captures = 0)
    (hreading : Reading tokens builder.before (token :: after))
    (h : Entering tokens builder (token :: after) brace taken earlier outer groups) :
    Situation tokens { builder.act lineOf token after with before := token :: builder.before }
      after := by
  rcases h.ahead with ⟨hpos, -⟩ | ⟨-, rfl, hlist, _, ⟨⟩, hsquare⟩
  · omega
  · obtain ⟨kind, hkind, hact⟩ := act_of_literal lineOf h.before h.curly hsquare
    rw [hact]
    have hnone : forestPreorder builder.level.nodes = [] := by rw [h.nodes]; rfl
    refine .headed hcaptures ⟨by simp [openGroup, forestPreorder],
      .group (fun start heq => ?_) (by simp [hnone]) ?_⟩
    · simp [hkind] at heq
    · dsimp only [openGroup]
      rw [h.opened, Group.starts, h.nodes]
      refine .group ?_ h.complete (h.expects.mono hreading.seam_le_seam)
      rintro _ ⟨⟩
      refine ⟨_, brace, _, split_of_entering hreading h, h.curly, rfl, ?_, ?_⟩
      · simp [hlist]
      · rintro - _ ⟨⟩ -
        rfl

/-- One token, whatever is being read. -/
theorem situation_step (lineOf : Nat → Nat)
    (hreading : Reading tokens builder.before (token :: after))
    (h : Situation tokens builder (token :: after)) :
    Situation tokens (builder.step lineOf token after) after := by
  cases h with
  | entering h =>
      cases hcaptures : builder.captures with
      | succ captures =>
          have hnext := situation_of_capture hcaptures hreading h
          rw [step, hcaptures]
          exact hnext
      | zero =>
          have hnext := situation_of_literal lineOf hcaptures hreading h
          rw [step, hcaptures]
          exact hnext
  | headed hcaptures h =>
      rw [step, hcaptures]
      dsimp only
      rcases bracket_cases token with ⟨bracket, hopened⟩ | ⟨bracket, hclosed⟩ | hplain
      · obtain ⟨kind, outer, inner, captures, hact, hopens⟩ :=
          act_of_opened lineOf hreading hcaptures hopened
        rw [hact]
        rcases hopens.closure_cases with ⟨hkind, rfl⟩ | ⟨hcurly, rfl, houter, rfl, rfl⟩
        · exact .headed rfl ((h.opens hopens hkind).mono hreading.seam_le_seam)
        · obtain rfl : bracket = .curly := Option.some.inj (hopened.symm.trans hcurly)
          exact situation_of_closure hreading h hcurly houter
      · have hcaptures' : (builder.act lineOf token after).captures = 0 := by
          rw [act_of_closed hclosed]
          exact hcaptures
        refine .headed hcaptures' ?_
        dsimp only
        rw [seam_of_isBracket _ (isBracket_of_closed hclosed)]
        exact heads_keptByFinish.act hreading hclosed h trivial fun _ => trivial
      · obtain ⟨pending, hact⟩ := act_of_plain lineOf builder after hplain
        rw [hact]
        exact .headed hcaptures (h.mono hreading.seam_le_seam)

theorem Reached.situation {rest : List Token} (hordered : Token.Ordered tokens)
    (h : Reached lineOf tokens builder rest) : Situation tokens builder rest := by
  induction h with
  | initial => exact .headed rfl ⟨fun node hnode => (List.not_mem_nil hnode).elim, .file _⟩
  | step reached ih => exact situation_step lineOf (reached.reading hordered) ih

end Builder

/-! ## Complete structures -/

/-- When every token has been read, no head is being read. -/
theorem Situation.heads {builder : Builder} (h : Situation tokens builder []) :
    Heads tokens (seam builder.before) builder.level.nodes builder.groups := by
  cases h with
  | headed _ h => exact h
  | entering h =>
      obtain ⟨hpos, hlength⟩ | ⟨-, -, -, _, ⟨⟩, -⟩ := h.ahead
      obtain ⟨opening, inner, closing, rest, hsplit, hcount, -⟩ :=
        split_of_captureListLength? hlength
      have hsame := congrArg List.length hsplit
      simp only [List.append_nil, List.length_reverse, List.length_cons,
        List.length_append] at hsame
      omega

theorem wellHeaded_of_mem_ofTokens (lineOf : Nat → Nat) (hordered : Token.Ordered tokens)
    {node : Node} (h : node ∈ forestPreorder (ofTokens lineOf tokens)) :
    WellHeaded (tokens.filter (!·.kind.isTrivia)) node := by
  have hfiltered := hordered.filter (!·.kind.isTrivia)
  have hreached :=
    (@Builder.Reached.initial lineOf (tokens.filter (!·.kind.isTrivia))).run
  have hheads := heads_keptByFinish.closeAll (hreached.situation hfiltered).heads
    (hreached.reading hfiltered).seam_le_lastStop fun _ => trivial
  exact hheads.complete node (mem_forestPreorder_reverse.mp h)

end CaptureLint.Structure
