import CaptureLint.Proofs.Structure.Completion
import CaptureLint.Proofs.Structure.Joining

/-!
# The structure of the brackets

What an opening bracket begins and a closing bracket completes is a node that the pair makes, and a
pair that makes no node is transparent or a part of a capture list.  So where brackets nest properly
the forest is the structure of the brackets.
-/

namespace CaptureLint.Structure

open Node CaptureLint.Bracket

variable {lineOf : Nat → Nat} {tokens before after rest : List Token} {token : Token}
  {groups : List Group} {node : Node} {ceiling : Nat} {nodes : List Node}

/-! ## The newest node -/

theorem Framed.exists_row (h : Framed tokens ceiling nodes groups) :
    ∃ floor, Row tokens floor ceiling nodes := by
  cases h with
  | file row => exact ⟨0, row⟩
  | group becomes floor_lt inside_le row adopted frame => exact ⟨_, row⟩

theorem Framed.stop_le (h : Framed tokens ceiling nodes groups)
    (hnode : node ∈ forestPreorder (nodes ++ groups.flatMap (·.outer.nodes))) :
    node.stop ≤ ceiling := by
  have hlevel : ∀ {floor ceiling nodes}, Row tokens floor ceiling nodes →
      node ∈ forestPreorder nodes → node.stop ≤ ceiling := by
    intro floor ceiling nodes row hnode
    obtain ⟨root, hroot, -, hstop⟩ := bounds_of_mem_forestPreorder nodes row.nested node hnode
    exact Nat.le_trans hstop (row.within root hroot).2
  induction h with
  | file row =>
      rw [List.flatMap_nil, List.append_nil] at hnode
      exact hlevel row hnode
  | group becomes floor_lt inside_le row adopted frame ih =>
      rw [forestPreorder_append, List.mem_append] at hnode
      rcases hnode with hnode | hnode
      · exact hlevel row hnode
      · have hfloor := ih hnode
        omega

/-- A node that ends at the ceiling is the newest one of its level or below it. -/
theorem Framed.exists_head (h : Framed tokens ceiling nodes groups)
    (hnode : node ∈ forestPreorder (nodes ++ groups.flatMap (·.outer.nodes)))
    (hstop : node.stop = ceiling) :
    ∃ last ∈ nodes.head?, last.stop = ceiling := by
  have hlevel : node ∈ forestPreorder nodes := by
    rw [forestPreorder_append, List.mem_append] at hnode
    refine hnode.resolve_right fun houter => ?_
    cases h with
    | file row => simp [forestPreorder] at houter
    | group becomes floor_lt inside_le row adopted frame =>
        have hfloor := frame.stop_le houter
        omega
  obtain ⟨floor, row⟩ := h.exists_row
  obtain ⟨root, hroot, -, hle⟩ := bounds_of_mem_forestPreorder nodes row.nested node hlevel
  have hceiling := (row.within root hroot).2
  cases hnodes : nodes with
  | nil => simp [hnodes] at hroot
  | cons last older =>
      refine ⟨last, rfl, ?_⟩
      rw [hnodes] at row hroot
      rcases List.mem_cons.mp hroot with rfl | holder
      · omega
      · -- an older node ends before the newest one
        have hapart := (List.pairwise_cons.mp row.apart).1 root holder
        have hlast := (row.nested last (mem_forestPreorder.mpr
          ⟨last, List.mem_cons_self, last.self_mem_preorder⟩)).start_lt_stop
        have hwithin := (row.within last List.mem_cons_self).2
        omega

/-! ## The forest -/

theorem Builder.Reached.exists_head {builder : Builder} (htokens : Matched tokens)
    (h : Builder.Reached lineOf tokens builder rest)
    (hnode : node ∈ forestPreorder (Builder.initial.run lineOf tokens).result)
    (hstop : node.stop = seam builder.before) :
    ∃ last ∈ builder.level.nodes.head?, last.stop = seam builder.before := by
  rcases h.completes_of_mem_result htokens hnode with
    hfound | ⟨later, token, after, hreached, htoken, hcompletes⟩
  · exact (h.framed htokens.ordered).exists_head hfound hstop
  · have hend := hcompletes.stop_eq htokens.ordered hreached
    have hlt := (h.reading htokens.ordered).seam_lt_stop htoken
    omega

/-- What an opening bracket begins, the pair makes when the group ends. -/
theorem makes_of_begins {body : Bool} {pair : Enclosure tokens} {builder : Builder} {outer inner : List Node}
    {captures : Nat} (htokens : Matched tokens)
    (hreached : Builder.Reached lineOf tokens builder (pair.opening :: rest))
    (hbefore : pair.before.reverse = builder.before) (hstop : node.stop = pair.closing.stop)
    (hbegins : Begins body builder.before pair.opening rest pair.bracket builder.level.nodes
      (some (node.kind, node.start)) outer inner captures) :
    pair.Makes (Builder.initial.run lineOf tokens).result node := by
  have hcallee : pair.callee? = callee? builder.before := congrArg callee? hbefore
  generalize hbracket : pair.bracket = bracket at hbegins
  generalize hbecomes : some (node.kind, node.start) = becomes at hbegins
  generalize hnodes : builder.level.nodes = nodes at hbegins
  cases hbegins with
  | subscript => cases hbecomes
  | body => cases hbecomes
  | literal _ kind hcall hclosure htuple =>
      obtain ⟨rfl, hstart⟩ := Prod.mk.inj (Option.some.inj hbecomes)
      exact .of_literal hcall hbracket.symm hstop hstart fun hkind => hcallee.trans (htuple hkind)
  | closure =>
      obtain ⟨hkind, hstart⟩ := Prod.mk.inj (Option.some.inj hbecomes)
      refine .of_literal (by simp [hkind]) ?_ hstop hstart (by simp [hkind])
      rw [hkind, hbracket]
      rfl
  | chain _ hfound =>
      obtain ⟨hkind, hstart⟩ := Prod.mk.inj (Option.some.inj hbecomes)
      exact .of_call hkind hbracket hstop (hcallee.trans hfound) hstart
  | @group _ stop first? hfound hlast =>
      obtain ⟨hkind, hstart⟩ := Prod.mk.inj (Option.some.inj hbecomes)
      have hfound := hcallee.trans hfound
      have hseam : stop = seam builder.before := by
        rw [← hbefore]
        exact (Enclosure.calleeSince htokens.ordered hfound).1
      refine .of_call hkind hbracket hstop hfound (.inr ⟨fun other hother heq => ?_, hstart⟩)
      -- the newest node of the level would end there too, and would have been adopted
      obtain ⟨last, hhead, hend⟩ := hreached.exists_head htokens hother (heq.trans hseam)
      rw [hnodes] at hhead
      exact hlast last hhead (hend.trans hseam.symm)
  | adoption last _ hfound =>
      obtain ⟨hkind, hstart⟩ := Prod.mk.inj (Option.some.inj hbecomes)
      have hmem : last ∈ forestPreorder builder.roots := by
        rw [Builder.roots, hnodes, mem_forestPreorder]
        exact ⟨last, by simp, last.self_mem_preorder⟩
      exact .of_call hkind hbracket hstop (hcallee.trans hfound)
        (.inl ⟨last, hreached.mem_result htokens hmem, rfl, hstart⟩)

theorem makes_of_completes {builder : Builder} (htokens : Matched tokens)
    (hreached : Builder.Reached lineOf tokens builder (token :: after))
    (h : builder.Completes token node) : ∃ pair : Enclosure tokens, pair.closing = token ∧
      pair.Makes (Builder.initial.run lineOf tokens).result node := by
  have hstop := h.stop_eq htokens.ordered hreached
  have hopened := hreached.opened htokens
  obtain ⟨hcaptures, hclosed, hgroups, hbecomes⟩ := h
  rw [hcaptures, hgroups] at hopened
  obtain ⟨pair, opener, rest, outer, inner, captures, rfl, hbracket, hbefore, hopening, hbegins⟩ :=
    Opened.exists_enclosure hopened (hreached.reading htokens.ordered).split hclosed
  rw [hbecomes, ← hbracket] at hbegins
  exact ⟨pair, rfl, makes_of_begins htokens hopening hbefore hstop hbegins⟩

theorem exists_makes (htokens : Matched tokens)
    (hnode : node ∈ forestPreorder (Builder.initial.run lineOf tokens).result) :
    ∃ pair : Enclosure tokens, pair.Makes (Builder.initial.run lineOf tokens).result node := by
  rcases Builder.Reached.initial.completes_of_mem_result htokens hnode with
    hfound | ⟨builder, token, after, hreached, -, hcompletes⟩
  · simp [Builder.roots, Builder.initial, Level.empty, forestPreorder] at hfound
  · obtain ⟨pair, -, hmakes⟩ := makes_of_completes htokens hreached hcompletes
    exact ⟨pair, hmakes⟩

/-! ## Pairs that make no node -/

namespace Enclosure

/-- The pair is a subscript, or the body of a statement or declaration. -/
def Transparent (lineOf : Nat → Nat) (pair : Enclosure tokens) : Prop :=
  ∃ builder rest, Builder.Reached lineOf tokens builder (pair.opening :: rest) ∧
    (pair.bracket = .square ∧ followsCallee builder.before pair.opening.start = true ∨
      pair.bracket = .curly ∧
        Builder.opensBody lineOf builder.level.pending builder.before pair.opening.start = true)

/-- The pair ends in the capture list of a closure. -/
def Captured (lineOf : Nat → Nat) (pair : Enclosure tokens) : Prop :=
  ∃ builder brace behind length, Builder.Reached lineOf tokens builder (brace :: behind) ∧
    opened? brace = some .curly ∧
    Builder.opensBody lineOf builder.level.pending builder.before brace.start = false ∧
    captureListLength? behind = some length ∧ pair.closing ∈ behind.take length

end Enclosure

namespace Builder

variable {builder : Builder}

theorem exists_reached (lineOf : Nat → Nat) (hsplit : tokens = before.reverse ++ rest) :
    ∃ builder, Reached lineOf tokens builder rest := by
  induction before generalizing rest with
  | nil => exact ⟨initial, hsplit ▸ .initial⟩
  | cons token before ih =>
      obtain ⟨builder, hreached⟩ := @ih (token :: rest) (by simpa using hsplit)
      exact ⟨_, hreached.step⟩

/-- Tokens are passed over in the capture list of a closure only. -/
theorem Reached.captures_cases (h : Reached lineOf tokens builder rest) :
    builder.captures = 0 ∨ ∃ opener brace behind passed, Reached lineOf tokens opener (brace :: behind) ∧
      opened? brace = some .curly ∧
      opensBody lineOf opener.level.pending opener.before brace.start = false ∧
      behind = passed ++ rest ∧
      captureListLength? behind = some (passed.length + builder.captures) := by
  induction h with
  | initial => exact .inl rfl
  | @step builder token after reached ih =>
      unfold Builder.step
      cases hcaptures : builder.captures with
      | succ captures =>
          rw [hcaptures] at ih
          rcases ih with hzero | ⟨opener, brace, behind, passed, hopener, hbrace, hbody, hbehind, hlength⟩
          · cases hzero
          · refine .inr ⟨opener, brace, behind, passed ++ [token], hopener, hbrace, hbody,
              by simp [hbehind], ?_⟩
            rw [hlength, List.length_append, List.length_singleton]
            congr 1
            dsimp only
            omega
      | zero =>
          dsimp only
          rcases bracket_cases token with ⟨bracket, hopened⟩ | ⟨bracket, hclosed⟩ | hplain
          · obtain ⟨becomes, outer, inner, captures, hact, hbegins⟩ :=
              act_begins lineOf after hcaptures hopened
            rw [hact]
            dsimp only
            rcases captures_of_begins hbegins with hzero | ⟨rfl, hbody, hlength⟩
            · exact .inl hzero
            · exact .inr ⟨builder, token, after, [], reached, hopened, hbody, rfl,
                by rw [hlength, List.length_nil, Nat.zero_add]⟩
          · rw [act_of_closed hclosed]
            exact .inl hcaptures
          · obtain ⟨pending, hact⟩ := act_of_plain lineOf builder after hplain
            rw [hact]
            exact .inl hcaptures

end Builder

theorem transparent_of_begins {body : Bool} {bracket : Bracket} {nodes outer inner : List Node}
    {captures : Nat} (h : Begins body before token after bracket nodes none outer inner captures) :
    bracket = .square ∧ followsCallee before token.start = true ∨ bracket = .curly ∧ body = true := by
  cases h with
  | subscript _ hfollows => exact .inl ⟨rfl, hfollows⟩
  | body _ hbody => exact .inr ⟨rfl, hbody⟩

theorem exists_node (htokens : Matched tokens) (pair : Enclosure tokens) :
    (∃ node ∈ forestPreorder (Builder.initial.run lineOf tokens).result,
      pair.Makes (Builder.initial.run lineOf tokens).result node) ∨
      pair.Transparent lineOf ∨ pair.Captured lineOf := by
  obtain ⟨builder, hreached⟩ :=
    Builder.exists_reached lineOf (pair.reading_closing htokens.ordered).split
  have hbalanced := hreached.balanced htokens
  have hsplit := (hreached.reading htokens.ordered).split
  cases hcaptures : builder.captures with
  | zero =>
      have hnests := hbalanced.nests
      have hopened := hreached.opened htokens
      rw [hcaptures, List.drop_zero] at hnests
      obtain ⟨outer, hstack, -⟩ := nests_of_closed pair.closed hnests
      obtain ⟨group, groups, hgroups, hbracket, rfl⟩ := List.map_eq_cons_iff.mp hstack
      have hclosed : closed? pair.closing = some group.bracket := hbracket ▸ pair.closed
      cases hbecomes : group.becomes with
      | none =>
          rw [hcaptures, hgroups] at hopened
          obtain ⟨other, opener, rest, outer, inner, captures, hclosing, hother, -, hopening,
            hbegins⟩ := Opened.exists_enclosure hopened hsplit hclosed
          obtain rfl : other = pair := Enclosure.eq_of_closing htokens.ordered (by rw [hclosing])
          rw [hbecomes, ← hother] at hbegins
          exact .inr (.inl ⟨opener, rest, hopening, transparent_of_begins hbegins⟩)
      | some expression =>
          have hcompletes : builder.Completes pair.closing _ :=
            ⟨hcaptures, hclosed, hgroups, hbecomes⟩
          obtain ⟨other, hclosing, hmakes⟩ := makes_of_completes htokens hreached hcompletes
          obtain rfl : other = pair := Enclosure.eq_of_closing htokens.ordered (by rw [hclosing])
          have hnode := (Builder.mem_roots_step lineOf hbalanced).mpr (.inr hcompletes)
          exact .inl ⟨_, hreached.step.mem_result htokens hnode, hmakes⟩
  | succ captures =>
      obtain ⟨opener, brace, behind, passed, hopener, hbrace, hbody, hbehind, hlength⟩ :=
        hreached.captures_cases.resolve_left (by simp [hcaptures])
      refine .inr (.inr ⟨opener, brace, behind, _, hopener, hbrace, hbody, hlength, ?_⟩)
      rw [hbehind, hcaptures, List.take_length_add_append, List.take_succ_cons]
      simp

end CaptureLint.Structure

namespace CaptureLint.Source

open Node Structure

theorem matched_tokens {source : Source}
    (h : Bracket.nests [] (source.tokens.filter (!·.kind.isTrivia)) = true) :
    Matched (source.tokens.filter (!·.kind.isTrivia)) :=
  ⟨source.ordered_tokens.filter _, fun token htoken =>
    squaresOpen_tokens source.chars token (List.mem_filter.mp htoken).1, h⟩

/-- Where brackets nest properly, the structure of a source is the structure of its brackets.  Every
node is made from a pair of brackets, with which it ends: literals and closures span the pair, and a
call starts with its callee.  Every pair makes a node but for subscripts, bodies of statements and
what is inside of capture lists.  One node is below another one exactly when its pair is opened
inside the pair of the other one, or when the other one is a call whose callee is the node or has the
node below it. -/
theorem structureOf_is_structure_of_brackets {source : Source}
    (h : Bracket.nests [] (source.tokens.filter (!·.kind.isTrivia)) = true) :
    (∀ node ∈ forestPreorder (source.structureOf source.tokens),
      ∃ pair : Enclosure (source.tokens.filter (!·.kind.isTrivia)),
        pair.Makes (source.structureOf source.tokens) node) ∧
    (∀ pair : Enclosure (source.tokens.filter (!·.kind.isTrivia)),
      (∃ node ∈ forestPreorder (source.structureOf source.tokens),
        pair.Makes (source.structureOf source.tokens) node) ∨
      pair.Transparent source.lineOfByte ∨ pair.Captured source.lineOfByte) ∧
    ∀ outer ∈ forestPreorder (source.structureOf source.tokens),
      ∀ inner ∈ forestPreorder (source.structureOf source.tokens),
        ∀ pair other : Enclosure (source.tokens.filter (!·.kind.isTrivia)),
          pair.Makes (source.structureOf source.tokens) outer →
          other.Makes (source.structureOf source.tokens) inner →
          (inner ∈ forestPreorder outer.children ↔
            pair.Holds other ∨ outer.kind = .call ∧
              ∃ callee ∈ forestPreorder (source.structureOf source.tokens),
                pair.Adopts callee ∧ inner ∈ callee.preorder) := by
  have htokens := matched_tokens h
  have hmade : ∀ node ∈ forestPreorder (source.structureOf source.tokens),
      ∃ pair : Enclosure (source.tokens.filter (!·.kind.isTrivia)),
        pair.Makes (source.structureOf source.tokens) node := fun node hnode =>
    exists_makes htokens hnode
  have hpaired : Paired (source.tokens.filter (!·.kind.isTrivia))
      (source.structureOf source.tokens) :=
    ⟨htokens.ordered, fun node hnode => (nested_of_mem_ofTokens _ source.ordered_tokens hnode).1,
      apart_ofTokens _ source.ordered_tokens, hmade⟩
  refine ⟨hmade, exists_node htokens, fun outer houter inner hinner pair other hpair hother => ?_⟩
  exact hpaired.below_iff houter hinner hpair hother

def calledClosure : Source := ⟨none, "\x7b [1] \x7d(2)".toList⟩

/-- The closure is below its call, outside of the brackets of the call. -/
theorem structureOf_calledClosure :
    Bracket.nests [] (calledClosure.tokens.filter (!·.kind.isTrivia)) = true ∧
    ∃ call ∈ calledClosure.structureOf calledClosure.tokens, ∃ closure ∈ call.children,
      ∃ pair other : Enclosure (calledClosure.tokens.filter (!·.kind.isTrivia)),
        pair.Makes (calledClosure.structureOf calledClosure.tokens) call ∧
        other.Makes (calledClosure.structureOf calledClosure.tokens) closure ∧
        ¬ pair.Holds other ∧
        ∃ callee ∈ forestPreorder (calledClosure.structureOf calledClosure.tokens),
          pair.Adopts callee ∧ closure ∈ callee.preorder := by
  have hnests : Bracket.nests [] (calledClosure.tokens.filter (!·.kind.isTrivia)) = true := by
    decide +kernel
  have hshape : (calledClosure.structureOf calledClosure.tokens).map
      (fun node => node.children.map fun child => (child.kind, child.range)) =
        [[(.closure, ⟨0, 7⟩)]] := by decide +kernel
  obtain ⟨call, hcall, hchildren⟩ := List.mem_map.mp (hshape ▸ List.mem_singleton_self _)
  obtain ⟨closure, hclosure, heq⟩ := List.mem_map.mp (hchildren ▸ List.mem_singleton_self _)
  obtain ⟨hkind, hrange⟩ := Prod.mk.inj heq
  have houter : call ∈ forestPreorder (calledClosure.structureOf calledClosure.tokens) :=
    mem_forestPreorder.mpr ⟨call, hcall, call.self_mem_preorder⟩
  have hinner := forestPreorder_of_child hclosure _ houter
  have hbelow : closure ∈ forestPreorder call.children :=
    mem_forestPreorder.mpr ⟨closure, hclosure, closure.self_mem_preorder⟩
  obtain ⟨hmade, -, hiff⟩ := structureOf_is_structure_of_brackets hnests
  obtain ⟨pair, hpair⟩ := hmade call houter
  obtain ⟨other, hother⟩ := hmade closure hinner
  have hnot : ¬ pair.Holds other := by
    rintro ⟨hlt, -⟩
    have hstart := hother.literal (by rw [hkind]; decide)
    rw [← hstart, Node.start, hrange] at hlt
    exact Nat.not_lt_zero _ hlt
  obtain ⟨-, hadopted⟩ :=
    ((hiff call houter closure hinner pair other hpair hother).mp hbelow).resolve_left hnot
  exact ⟨hnests, call, hcall, closure, hclosure, pair, other, hpair, hother, hnot, hadopted⟩

end CaptureLint.Source
