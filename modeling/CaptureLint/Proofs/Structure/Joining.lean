import CaptureLint.Proofs.Structure.Balance
import CaptureLint.Proofs.Structure.Nesting
import CaptureLint.Proofs.Structure.Shift
import CaptureLint.Proofs.Token.Comment

/-!
# Structures of joined tokens

Balanced tokens leave no group open, and a semicolon after them ends every header.  So the nodes of
the tokens after it are those that these tokens have on their own, moved right.
-/

namespace CaptureLint.Structure

open Node

variable {lineOf lineOf' : Nat → Nat} {builder : Builder} {token : Token}
  {tokens first second after : List Token}

namespace Builder

/-! ## Lines -/

/-- The lines matter only where tokens start. -/
theorem step_congr (h : lineOf' token.start = lineOf token.start) :
    builder.step lineOf' token after = builder.step lineOf token after := by
  have hbody : ∀ pending before, opensBody lineOf' pending before token.start =
      opensBody lineOf pending before token.start := by
    intro pending before
    unfold opensBody
    rw [h]
  have hpending : ∀ pending before, pendingAfter lineOf' pending before token after =
      pendingAfter lineOf pending before token after := by
    intro pending before
    unfold pendingAfter
    rw [h]
  have hcurly : openCurly lineOf' builder token.start after =
      openCurly lineOf builder token.start after := by
    unfold openCurly
    dsimp only
    rw [hbody]
  have hact : builder.act lineOf' token after = builder.act lineOf token after := by
    unfold act
    dsimp only
    rw [hcurly, hpending]
  unfold step
  rw [hact]

theorem run_congr (h : ∀ token ∈ tokens, lineOf' token.start = lineOf token.start) :
    builder.run lineOf' tokens = builder.run lineOf tokens := by
  induction tokens generalizing builder with
  | nil => rfl
  | cons token after ih =>
      rw [run, run, step_congr (h token List.mem_cons_self)]
      exact ih fun other hother => h other (List.mem_cons_of_mem _ hother)

/-! ## The end of a statement -/

theorem before_run (lineOf : Nat → Nat) (builder : Builder) (tokens : List Token) :
    (builder.run lineOf tokens).before = tokens.reverse ++ builder.before := by
  induction tokens generalizing builder with
  | nil => rfl
  | cons token after ih =>
      have hstep : (builder.step lineOf token after).before = token :: builder.before := rfl
      rw [run, ih, hstep]
      simp

/-- After balanced tokens only the nodes found and a pending header are left. -/
theorem run_of_nests (lineOf : Nat → Nat) (hsquares : SquaresOpen tokens)
    (h : Bracket.nests [] tokens = true) :
    ∃ pending, initial.run lineOf tokens =
      ⟨tokens.reverse, 0, ⟨(initial.run lineOf tokens).result.reverse, pending⟩, []⟩ := by
  have hbalanced : Balanced initial tokens := ⟨Nat.zero_le _, h⟩
  have hend : Balanced (initial.run lineOf tokens) [] := (run_append [] hsquares rfl hbalanced).2
  have hsettled := hend.settled
  have hbefore := before_run lineOf initial tokens
  rcases hrun : initial.run lineOf tokens with ⟨before, captures, ⟨nodes, pending⟩, groups⟩
  rw [hrun] at hsettled hbefore
  obtain ⟨rfl, rfl⟩ := hsettled
  refine ⟨pending, ?_⟩
  rw [show before = _ from hbefore]
  simp [result, closeAll, initial]

theorem step_semicolon (lineOf : Nat → Nat) (hcaptures : builder.captures = 0)
    (h : token.kind = .punctuation ∧ token.text = [';']) (after : List Token) :
    builder.step lineOf token after =
      { builder with
        before := token :: builder.before
        level := { builder.level with pending := .nothing } } := by
  have hpunctuation : token.isPunctuation ";" = true := by
    simp [Token.isPunctuation, Token.spells, h]
  have hopened : Bracket.opened? token = none := by
    simp [Bracket.opened?, Token.isPunctuation, Token.spells, h]
  have hclosed : Bracket.closed? token = none := by
    simp [Bracket.closed?, Token.isPunctuation, Token.spells, h]
  unfold step act
  rw [hcaptures]
  dsimp only
  rw [hopened, hclosed]
  simp [pendingAfter, hpunctuation]

/-- The nodes of balanced tokens, of a semicolon and of any tokens after it. -/
theorem result_join {lineOf₁ lineOf₂ : Nat → Nat} (front : Front)
    (hpast : front.past = first.reverse)
    (hnodes : front.nodes = (initial.run lineOf₁ first).result.reverse)
    (hsquares : SquaresOpen first) (hnests : Bracket.nests [] first = true)
    (hfirst : ∀ token ∈ first, lineOf token.start = lineOf₁ token.start)
    (hsecond : ∀ byte, lineOf (byte + front.bytes) = lineOf₂ byte + front.lines) :
    (initial.run lineOf (first ++ front.semicolon :: second.map (·.shift front.bytes))).result =
      (initial.run lineOf₁ first).result ++
        (initial.run lineOf₂ second).result.map (Node.shift front.bytes) := by
  have hbalanced : Balanced initial first := ⟨Nat.zero_le _, hnests⟩
  have hhead : (front.semicolon :: second.map (·.shift front.bytes)).head?.any (·.isSymbol ".") =
      false := front.isSymbol_semicolon (by decide)
  obtain ⟨pending, hrun⟩ := run_of_nests lineOf₁ hsquares hnests
  -- the semicolon leaves the builder that has read the front
  have hbehind : (initial.run lineOf₁ first).step lineOf front.semicolon
      (second.map (·.shift front.bytes)) = front.builder initial := by
    have hcaptures : (initial.run lineOf₁ first).captures = 0 := by rw [hrun]
    rw [step_semicolon lineOf hcaptures front.isSemicolon, hrun, ← hpast, ← hnodes]
    rfl
  have hinitial : initial.groups ≠ [] → initial.before ≠ [] := fun hne => absurd rfl hne
  obtain ⟨hfront, hopen⟩ := front.run_builder hsecond hinitial second
  rw [(run_append _ hsquares hhead hbalanced).1, run_congr hfirst, run, hbehind, hfront,
    front.result_builder hopen, hnodes, List.reverse_reverse]

end Builder

/-! ## Two statements -/

theorem ofTokens_join {lineOf₁ lineOf₂ : Nat → Nat} {semicolon : Token} {bytes lines : Nat}
    (hordered : Token.Ordered first) (hsquares : SquaresOpen first)
    (hnests : Bracket.nests [] (first.filter (!·.kind.isTrivia)) = true)
    (hsemicolon : semicolon.kind = .punctuation ∧ semicolon.text = [';'])
    (hstops : ∀ token ∈ first, token.stop < bytes) (hstop : semicolon.stop < bytes)
    (hfirst : ∀ token ∈ first, lineOf token.start = lineOf₁ token.start)
    (hsecond : ∀ byte, lineOf (byte + bytes) = lineOf₂ byte + lines) :
    ofTokens lineOf (first ++ semicolon :: second.map (·.shift bytes)) =
      ofTokens lineOf₁ first ++ (ofTokens lineOf₂ second).map (Node.shift bytes) := by
  have hcode : ∀ {token}, token ∈ first.filter (!·.kind.isTrivia) → token ∈ first :=
    fun htoken => (List.mem_filter.mp htoken).1
  have hnodes : ∀ node ∈ (ofTokens lineOf₁ first).reverse, node.stop < bytes := by
    intro node hnode
    have hmem : node ∈ forestPreorder (ofTokens lineOf₁ first) := by
      rw [mem_forestPreorder]
      refine ⟨node, List.mem_reverse.mp hnode, ?_⟩
      rw [preorder_eq]
      exact List.mem_cons_self
    obtain ⟨-, -, token, htoken, hlast⟩ := nested_of_mem_ofTokens lineOf₁ hordered hmem
    rw [← hlast]
    exact hstops token (hcode htoken)
  have hfilter : (first ++ semicolon :: second.map (·.shift bytes)).filter (!·.kind.isTrivia) =
      first.filter (!·.kind.isTrivia) ++
        semicolon :: (second.filter (!·.kind.isTrivia)).map (·.shift bytes) := by
    rw [List.filter_append, List.filter_cons_of_pos (by simp [hsemicolon.1, TokenKind.isTrivia]),
      List.filter_map]
    rfl
  rw [ofTokens, hfilter]
  exact Builder.result_join ⟨bytes, lines, semicolon, (first.filter (!·.kind.isTrivia)).reverse,
    (ofTokens lineOf₁ first).reverse, hsemicolon, hstop, hnodes⟩ rfl rfl
    (fun token htoken => hsquares token (hcode htoken)) hnests
    (fun token htoken => hfirst token (hcode htoken)) hsecond

theorem squaresOpen_tokens (text : List Char) : SquaresOpen (Token.tokens text) := by
  intro token htoken hsymbol
  simp only [Token.isSymbol, Token.spells, Bool.and_eq_true, beq_iff_eq] at hsymbol
  obtain ⟨hsign, htext⟩ := hsymbol
  have hkind : token.kind ≠ .string := by
    intro hstring
    rw [hstring] at hsign
    cases hsign
  obtain ⟨left, right, hsplit⟩ := List.append_of_mem htoken
  obtain ⟨before, after, hparts, -, -⟩ := Token.locate_split hsplit
  obtain ⟨inner, last, c, rest, hcut, -⟩ := Token.exists_cut_of_lexeme hkind hparts
  obtain ⟨hlexeme, hliteral⟩ := Token.lexemeAt_of_cut hkind hcut
  rw [htext] at hliteral
  obtain rfl : c = '[' := (List.cons.inj hliteral).1.symm
  rw [Bracket.opened?_eq_some_iff]
  exact ⟨(congrArg Prod.fst hlexeme).symm, htext⟩

end CaptureLint.Structure
