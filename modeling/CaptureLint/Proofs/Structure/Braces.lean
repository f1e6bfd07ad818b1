import CaptureLint.Proofs.Structure.Ledger

/-!
# Braces whose place decides

The token before a brace can settle what the brace opens: after a sign or a keyword that an expression
follows it opens a closure, after a word such as `else` a body.  Every brace is read once, with the
tokens before it as they stand in the source, so neither a pending header nor the balance of the
brackets matters there.

That a body starts no node needs an invariant: every node on the books starts with the bracket that
has begun it, with that of a node it has adopted, or with a token that is no bracket.
-/

namespace CaptureLint.Structure

open Node CaptureLint.Bracket

variable {lineOf : Nat → Nat} {tokens rest after before : List Token} {token previous : Token}

/-! ## The token before a brace -/

/-- An expression follows the token: it is one of some separators and opening brackets, an operator
that cannot end a type, or one of some keywords. -/
def ForcesExpression (token : Token) : Prop :=
  token.kind = .punctuation ∧ String.ofList token.text ∈ ["(", "[", ",", ":", "\x7b", ";"] ∨
  token.kind = .operator ∧ String.ofList token.text ∉ ["?", "!", ">"] ∨
  token.kind = .keyword ∧ String.ofList token.text ∈ ["return", "in", "throw", "try", "await"]

def IsBodyWord (token : Token) : Prop :=
  token.kind.isName = true ∧ String.ofList token.text ∈
    ["else", "do", "repeat", "defer", "get", "set", "willSet", "didSet"]

instance : DecidablePred ForcesExpression := fun _ => inferInstanceAs (Decidable (_ ∨ _))

instance : DecidablePred IsBodyWord := fun _ => inferInstanceAs (Decidable (_ ∧ _))

theorem spells_iff (word : String) : token.spells word = true ↔ String.ofList token.text = word := by
  rw [Token.spells, beq_iff_eq, ← String.toList_inj, String.toList_ofList]

namespace Builder

theorem forcesClosure_iff : forcesClosure token = true ↔ ForcesExpression token := by
  unfold forcesClosure ForcesExpression
  cases token.kind <;>
    simp [Token.isAmong, Keyword.beforeExpression, ← spells_iff, and_assoc]

theorem opensBody_of_forces (pending : Pending) (start : Nat) (h : ForcesExpression previous) :
    opensBody lineOf pending (previous :: before) start = false := by
  have hword : (previous.kind.isName && previous.isAmong Keyword.bodyOpeners) = false := by
    rw [Bool.eq_false_iff, ne_eq, Bool.and_eq_true]
    rintro ⟨hname, hopener⟩
    rcases h with ⟨hkind, -⟩ | ⟨hkind, -⟩ | ⟨-, hkeyword⟩
    · simp [hkind, TokenKind.isName] at hname
    · simp [hkind, TokenKind.isName] at hname
    · -- no keyword is of both kinds
      rw [Token.isAmong, List.contains_iff_mem] at hopener
      have hnone : ∀ word ∈ ["return", "in", "throw", "try", "await"],
          word ∉ Keyword.bodyOpeners := by decide
      exact hnone _ hkeyword hopener
  simp only [opensBody, hword, forcesClosure_iff.mpr h]
  rfl

theorem opensBody_of_word (pending : Pending) (start : Nat) (h : IsBodyWord previous) :
    opensBody lineOf pending (previous :: before) start = true := by
  have hopener : previous.isAmong Keyword.bodyOpeners = true := List.contains_iff_mem.mpr h.2
  simp only [opensBody, h.1, hopener]
  rfl

end Builder

/-! ## Where nodes start -/

/-- A byte offset at which a bracket starts that begins a node, or a token that is no bracket. -/
def StartsNode (lineOf : Nat → Nat) (tokens : List Token) (start : Nat) : Prop :=
  (∃ moment ∈ Builder.moments lineOf .initial tokens,
    (moment.begins? lineOf).isSome = true ∧ moment.token.start = start) ∨
  ∃ token ∈ tokens, isBracket token = false ∧ token.start = start

namespace Builder

variable {builder : Builder} {moment : Moment}

theorem startsNode_of_begins? (hordered : Token.Ordered tokens)
    (hreached : Reached lineOf tokens builder (token :: after))
    (hledger : ∀ entry ∈ ledger builder.level.nodes builder.groups,
      StartsNode lineOf tokens entry.2)
    {entry : NodeKind × Nat} (h : Moment.begins? lineOf ⟨builder, token, after⟩ = some entry) :
    StartsNode lineOf tokens entry.2 := by
  have hreading := hreached.reading hordered
  have hown : StartsNode lineOf tokens token.start :=
    .inl ⟨_, mem_moments_of_reached hreached, by rw [h]; rfl, rfl⟩
  have hopens : Moment.opens? ⟨builder, token, after⟩ = some entry.1.bracket :=
    (Moment.bracket_of_begins? h).1
  obtain ⟨hcaptures, hopened⟩ := Moment.opens?_eq_some_iff.mp hopens
  obtain ⟨becomes, outer, inner, captures, hact, hcases⟩ :=
    act_of_opened lineOf hreading hcaptures hopened
  have hbecomes : becomes = some entry := by
    rw [Moment.begins?_eq lineOf hopens, hact] at h
    exact h
  subst hbecomes
  generalize hnodes : builder.level.nodes = nodes at hcases
  cases hcases with
  | expression _ hkind hseam hle hstart =>
      obtain ⟨other, hother, rfl⟩ := hstart
      rcases List.mem_cons.mp hother with rfl | hother
      · exact hown
      · refine .inr ⟨other, hreading.mem_before hother, ?_, rfl⟩
        -- a bracket that has been read ends at the seam
        rw [Bool.eq_false_iff]
        intro hbracket
        have hstop := hreading.stop_le_seam hother hbracket
        have hlt := hordered.nonempty other (hreading.mem_before hother)
        omega
  | closure => exact hown
  | adoption last older hlast =>
      refine hledger (last.kind, last.start) ?_
      rw [hnodes, ledger, List.mem_append, List.cons_append, forestPreorder_cons]
      exact .inl (List.mem_map_of_mem (List.mem_append_left _ last.self_mem_preorder))

theorem Reached.startsNode (hordered : Token.Ordered tokens)
    (h : Reached lineOf tokens builder rest) :
    ∀ entry ∈ ledger builder.level.nodes builder.groups, StartsNode lineOf tokens entry.2 := by
  induction h with
  | initial => simp [Builder.initial, Level.empty, ledger, forestPreorder]
  | step reached ih =>
      intro entry hentry
      rw [(ledger_step lineOf (reached.reading hordered)).mem_iff, List.mem_append,
        Option.mem_toList] at hentry
      rcases hentry with hbegun | hentry
      · exact startsNode_of_begins? hordered reached ih hbegun
      · exact ih entry hentry

/-- Every node starts with a bracket that begins a node or with a token that is no bracket. -/
theorem startsNode_of_mem_result (hordered : Token.Ordered tokens) {node : Node}
    (hnode : node ∈ forestPreorder (Builder.initial.run lineOf tokens).result) :
    StartsNode lineOf tokens node.start := by
  have hentry := (perm_entries_result lineOf hordered).mem_iff.mp (List.mem_map_of_mem hnode)
  obtain ⟨moment, hmoment, hbegins⟩ := List.mem_filterMap.mp hentry
  have hreached := reached_of_mem_moments .initial hmoment
  exact startsNode_of_begins? hordered hreached (hreached.startsNode hordered) hbegins

theorem start_ne_of_begins?_eq_none (hordered : Token.Ordered tokens)
    (hmoment : moment ∈ moments lineOf .initial tokens) (hbracket : isBracket moment.token = true)
    (hnone : moment.begins? lineOf = none) {node : Node}
    (hnode : node ∈ forestPreorder (Builder.initial.run lineOf tokens).result) :
    node.start ≠ moment.token.start := by
  intro hstart
  rcases startsNode_of_mem_result hordered hnode with
    ⟨other, hother, hbegins, heq⟩ | ⟨other, hother, hplain, heq⟩
  · obtain rfl := eq_of_token hordered hmoment hother (heq.trans hstart)
    rw [hnone] at hbegins
    cases hbegins
  · have hread := (reached_of_mem_moments .initial hmoment).reading hordered
    rcases Token.related_of_pairwise hordered.starts hother hread.mem_next with rfl | hlt | hlt
    · rw [hbracket] at hplain
      cases hplain
    · omega
    · omega

end Builder

theorem exists_closure_of_nodesAt {forest : List Node} {start : Nat}
    (h : nodesAt forest .curly start = 1) : ∃ node ∈ Node.closures forest, node.start = start := by
  obtain ⟨node, hnode, hmatch⟩ := List.countP_pos_iff.mp (Nat.lt_of_lt_of_eq Nat.one_pos h.symm)
  rw [Bool.and_eq_true, beq_iff_eq, beq_iff_eq] at hmatch
  have hkind : node.kind = .closure := by
    cases hkind : node.kind <;> simp [hkind, NodeKind.bracket] at hmatch ⊢
  exact ⟨node, mem_closures.mpr ⟨hnode, hkind⟩, hmatch.2⟩

end CaptureLint.Structure

namespace CaptureLint.Source

open Node Structure CaptureLint.Bracket

/-- A brace of a source is read at one moment, after the tokens that stand before it. -/
theorem exists_moment_of_brace {source : Source} {earlier later : List Token} {brace : Token}
    (hsplit : source.tokens.filter (!·.kind.isTrivia) = earlier ++ brace :: later) :
    ∃ moment ∈ source.moments, moment.token = brace ∧ moment.builder.before.reverse = earlier := by
  have hbefore : source.tokens.filter (!·.kind.isTrivia) =
      earlier.reverse.reverse ++ brace :: later := by
    rw [List.reverse_reverse]
    exact hsplit
  obtain ⟨builder, hreached⟩ := Builder.exists_reached source.lineOfByte hbefore
  refine ⟨_, Builder.mem_moments_of_reached hreached, rfl, ?_⟩
  have hread := (hreached.reading (source.ordered_tokens.filter _)).split
  exact List.append_cancel_right (hread.symm.trans hsplit)

/-- Position alone decides.  A brace that is the first token of a source, or that follows a token
which an expression follows, starts a closure; a brace right after a word that opens a body starts
no node.  This holds in every source, whatever header or variable is pending and however the
brackets nest. -/
theorem position_decides_brace {source : Source} {earlier later : List Token} {brace : Token}
    (hsplit : source.tokens.filter (!·.kind.isTrivia) = earlier ++ brace :: later)
    (hbrace : brace.isPunctuation "\x7b" = true) :
    ((∀ previous ∈ earlier.getLast?, ForcesExpression previous) →
      ∃ node ∈ Node.closures (source.structureOf source.tokens), node.start = brace.start) ∧
    ((∃ previous ∈ earlier.getLast?, IsBodyWord previous) →
      ∀ node ∈ forestPreorder (source.structureOf source.tokens), node.start ≠ brace.start) := by
  have hordered := source.ordered_tokens.filter (!·.kind.isTrivia)
  obtain ⟨moment, hmoment, rfl, rfl⟩ := exists_moment_of_brace hsplit
  have hcurly : opened? moment.token = some .curly := (isPunctuation_iff_opened? rfl).mp hbrace
  obtain ⟨-, -, hbraces, -⟩ := source.brackets_accounted
  obtain ⟨hread, hcount⟩ := hbraces moment hmoment hcurly
  refine ⟨fun hforces => ?_, fun hword node hnode => ?_⟩
  · have hbody : moment.opensBody source.lineOfByte = false := by
      rw [Moment.opensBody]
      cases hbefore : moment.builder.before with
      | nil => rfl
      | cons previous before =>
          refine Builder.opensBody_of_forces _ _ (hforces previous ?_)
          rw [hbefore, List.getLast?_reverse]
          rfl
    rw [hbody, if_neg Bool.false_ne_true] at hcount
    exact exists_closure_of_nodesAt hcount
  · obtain ⟨previous, hprevious, hword⟩ := hword
    obtain ⟨before, hbefore⟩ : ∃ before, moment.builder.before = previous :: before := by
      rw [List.getLast?_reverse] at hprevious
      exact List.head?_eq_some_iff.mp hprevious
    have hopens : moment.opens? = some .curly := by rw [Moment.opens?, hread, hcurly]; rfl
    have hnone : moment.begins? source.lineOfByte = none := by
      rw [Moment.begins?_curly _ hopens, Moment.opensBody, hbefore,
        Builder.opensBody_of_word _ _ hword, if_pos rfl]
    exact Builder.start_ne_of_begins?_eq_none hordered hmoment (isBracket_of_opened hcurly) hnone
      hnode

def looseBraces : Source := ⟨none, "if a, \x7b b ] \x7d else \x7b c".toList⟩

/-- The first brace of the header starts a closure, the one after `else` starts nothing. -/
theorem loose_braces_decided :
    (∃ node ∈ Node.closures (looseBraces.structureOf looseBraces.tokens), node.start = 6) ∧
      ∀ node ∈ forestPreorder (looseBraces.structureOf looseBraces.tokens), node.start ≠ 19 := by
  have hcondition : looseBraces.tokens.filter (!·.kind.isTrivia) =
      [⟨.keyword, 0, "if".toList⟩, ⟨.identifier, 3, ['a']⟩, ⟨.punctuation, 4, [',']⟩] ++
        ⟨.punctuation, 6, ['\x7b']⟩ ::
          (looseBraces.tokens.filter (!·.kind.isTrivia)).drop 4 := by decide +kernel
  have helse : looseBraces.tokens.filter (!·.kind.isTrivia) =
      (looseBraces.tokens.filter (!·.kind.isTrivia)).take 8 ++
        ⟨.punctuation, 19, ['\x7b']⟩ :: [⟨.identifier, 21, ['c']⟩] := by decide +kernel
  refine ⟨(position_decides_brace hcondition rfl).1 (by decide), ?_⟩
  exact (position_decides_brace helse rfl).2
    ⟨⟨.keyword, 14, "else".toList⟩, by decide +kernel, by decide⟩

end CaptureLint.Source
