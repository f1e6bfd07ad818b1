import CaptureLint.Proofs.Structure.Forest
import CaptureLint.Proofs.Structure.Steps

/-!
# Tokens further on

The same tokens further on in a text, after a semicolon that ends what stands before them, are given
the same nodes further on.  A `Front` is what stands before; moving a builder behind it commutes
with reading a token, because no test that looks back gets past the semicolon.
-/

namespace CaptureLint

def ByteRange.shift (distance : Nat) (range : ByteRange) : ByteRange :=
  ⟨range.start + distance, range.length⟩

namespace Node

mutual

def shift (distance : Nat) : Node → Node
  | mk kind range children => mk kind (range.shift distance) (forestShift distance children)

def forestShift (distance : Nat) : List Node → List Node
  | [] => []
  | node :: rest => node.shift distance :: forestShift distance rest

end

variable {distance : Nat}

theorem forestShift_eq_map (distance : Nat) (forest : List Node) :
    forestShift distance forest = forest.map (shift distance) := by
  induction forest with
  | nil => rfl
  | cons node forest ih => rw [forestShift, ih, List.map_cons]

@[simp] theorem kind_shift (node : Node) : (node.shift distance).kind = node.kind := by
  cases node
  rfl

@[simp] theorem range_shift (node : Node) :
    (node.shift distance).range = node.range.shift distance := by
  cases node
  rfl

@[simp] theorem children_shift (node : Node) :
    (node.shift distance).children = node.children.map (shift distance) := by
  cases node
  exact forestShift_eq_map _ _

@[simp] theorem start_shift (node : Node) : (node.shift distance).start = node.start + distance := by
  rw [start, range_shift]
  rfl

@[simp] theorem stop_shift (node : Node) : (node.shift distance).stop = node.stop + distance := by
  rw [stop, range_shift]
  exact Nat.add_right_comm _ _ _

mutual

theorem shift_zero : (node : Node) → node.shift 0 = node
  | mk kind range children => congrArg (mk kind range) (forestShift_zero children)

theorem forestShift_zero : (forest : List Node) → forestShift 0 forest = forest
  | [] => rfl
  | node :: forest => by rw [forestShift, shift_zero node, forestShift_zero forest]

end

mutual

theorem preorder_shift (distance : Nat) :
    (node : Node) → (node.shift distance).preorder = node.preorder.map (shift distance)
  | mk kind range children => by
      rw [shift, preorder, preorder, List.map_cons, shift, forestPreorder_shift distance children]

theorem forestPreorder_shift (distance : Nat) : (forest : List Node) →
    forestPreorder (forestShift distance forest) = (forestPreorder forest).map (shift distance)
  | [] => rfl
  | node :: forest => by
      rw [forestShift, forestPreorder, forestPreorder, List.map_append, preorder_shift distance node,
        forestPreorder_shift distance forest]

end

end Node

namespace Structure

open Node

/-! ## Looking ahead -/

variable {distance : Nat}

theorem hasColon_shift (depth : Nat) (after : List Token) :
    hasColon depth (after.map (·.shift distance)) = hasColon depth after := by
  induction after generalizing depth with
  | nil => rfl
  | cons token after ih =>
      rw [List.map_cons]
      unfold hasColon
      simp only [ih]
      rfl

theorem squareGroupLength?_shift (depth : Nat) (after : List Token) :
    squareGroupLength? depth (after.map (·.shift distance)) = squareGroupLength? depth after := by
  induction after generalizing depth with
  | nil => rfl
  | cons token after ih =>
      rw [List.map_cons, squareGroupLength?, squareGroupLength?]
      simp only [ih]
      rfl

theorem inFollows_shift (depth : Nat) (after : List Token) :
    inFollows depth (after.map (·.shift distance)) = inFollows depth after := by
  induction after generalizing depth with
  | nil => rfl
  | cons token after ih =>
      rw [List.map_cons]
      unfold inFollows
      simp only [ih]
      rfl

theorem captureListLength?_shift (after : List Token) :
    captureListLength? (after.map (·.shift distance)) = captureListLength? after := by
  unfold captureListLength?
  rw [squareGroupLength?_shift]
  simp only [← List.map_drop, inFollows_shift]
  cases after <;> rfl

/-! ## Looking back -/

theorem add_beq_add_right (first second distance : Nat) :
    (first + distance == second + distance) = (first == second) := by
  rw [Bool.eq_iff_iff, beq_iff_eq, beq_iff_eq]
  exact Nat.add_right_cancel_iff

/-- What stands in front of further tokens: how many bytes and lines, the tokens and the nodes found
there.  Its last token is a semicolon, and everything ends before the first of the further bytes. -/
structure Front where
  bytes : Nat
  lines : Nat
  semicolon : Token
  past : List Token
  nodes : List Node
  isSemicolon : semicolon.kind = .punctuation ∧ semicolon.text = [';']
  semicolon_lt : semicolon.stop < bytes
  nodes_lt : ∀ node ∈ nodes, node.stop < bytes

namespace Front

variable (front : Front)

def before (tokens : List Token) : List Token :=
  tokens.map (·.shift front.bytes) ++ front.semicolon :: front.past

theorem before_cons (token : Token) (tokens : List Token) :
    front.before (token :: tokens) = token.shift front.bytes :: front.before tokens := rfl

theorem isSymbol_semicolon {sign : String} (h : [';'] ≠ sign.toList) :
    front.semicolon.isSymbol sign = false := by
  simp [Token.isSymbol, Token.spells, front.isSemicolon.2, h]

theorem isChainName_semicolon : isChainName front.semicolon = false := by
  simp [isChainName, front.isSemicolon.1]

theorem isSuffix_semicolon : isSuffix front.semicolon front.past = false := by
  simp [isSuffix, front.isSemicolon.1]

theorem closed?_semicolon : Bracket.closed? front.semicolon = none := by
  simp [Bracket.closed?, Token.isPunctuation, Token.spells, front.isSemicolon]

/-- A suffix is written right after a token, and nothing is written right after the semicolon. -/
theorem isSuffix_before (token : Token) (tokens : List Token) :
    isSuffix (token.shift front.bytes) (front.before tokens) = isSuffix token tokens := by
  have hlt := front.semicolon_lt
  cases tokens with
  | nil =>
      have hne : front.semicolon.stop ≠ token.start + front.bytes := by omega
      simp [isSuffix, before, Token.shift, hne]
  | cons previous tokens =>
      simp only [isSuffix, before_cons, List.head?_cons, Option.any_some, Token.stop_shift]
      have hstop : (previous.stop + front.bytes == (token.shift front.bytes).start) =
          (previous.stop == token.start) := add_beq_add_right _ _ _
      rw [hstop]
      rfl

end Front

def Callee.shift (distance : Nat) : Callee → Callee
  | chain start => chain (start + distance)
  | group stop start => group (stop + distance) (start.map (· + distance))

namespace Front

variable (front : Front)

theorem map_chain_shift (start : Option Nat) :
    (start.map (· + front.bytes)).map Callee.chain =
      (start.map Callee.chain).map (Callee.shift front.bytes) := by
  rw [Option.map_map, Option.map_map]
  rfl

theorem calleeFrom_before (start : Option Nat) (tokens : List Token) :
    calleeFrom (start.map (· + front.bytes)) (front.before tokens) =
      (calleeFrom start tokens).map (Callee.shift front.bytes) := by
  have hname : ∀ token, isChainName (token.shift front.bytes) = isChainName token := fun _ => rfl
  have hclosed : ∀ token, Bracket.closed? (token.shift front.bytes) = Bracket.closed? token :=
    fun _ => rfl
  have hdot : ∀ token : Token, (token.shift front.bytes).isSymbol "." = token.isSymbol "." :=
    fun _ => rfl
  fun_induction calleeFrom start tokens with
  | case1 start =>
      rw [before, List.map_nil, List.nil_append, calleeFrom.eq_def]
      simp only [isChainName_semicolon, isSuffix_semicolon, closed?_semicolon, Bool.false_eq_true,
        if_false, Option.isSome_none]
      exact front.map_chain_shift start
  | case2 start token hchain dot tokens hsymbol ih =>
      rw [before_cons, calleeFrom.eq_def]
      simp only [hname, hchain, if_true, before_cons, hdot, hsymbol]
      exact ih
  | case3 start token hchain dot tokens hsymbol =>
      rw [before_cons, calleeFrom.eq_def]
      simp only [hname, hchain, if_true, before_cons, hdot, hsymbol]
      rfl
  | case4 start token hchain =>
      rw [before_cons, calleeFrom.eq_def]
      simp only [hname, hchain, if_true, before, List.map_nil, List.nil_append,
        front.isSymbol_semicolon (show [';'] ≠ ".".toList by decide), Bool.false_eq_true, if_false]
      rfl
  | case5 start token tokens hchain hsuffix ih =>
      rw [before_cons, calleeFrom.eq_def]
      simp only [hname, hchain, isSuffix_before, hsuffix, Bool.false_eq_true, if_false, if_true]
      exact ih
  | case6 start token tokens hchain hsuffix hended =>
      rw [before_cons, calleeFrom.eq_def]
      simp only [hname, hchain, isSuffix_before, hsuffix, hclosed, hended, Bool.false_eq_true,
        if_false, if_true, Token.stop_shift]
      rfl
  | case7 start token tokens hchain hsuffix hended =>
      rw [before_cons, calleeFrom.eq_def]
      simp only [hname, hchain, isSuffix_before, hsuffix, hclosed, hended, Bool.false_eq_true,
        if_false]
      exact front.map_chain_shift start

theorem followsCallee_before (tokens : List Token) (start : Nat) :
    followsCallee (front.before tokens) (start + front.bytes) = followsCallee tokens start := by
  cases tokens with
  | nil =>
      simp [followsCallee, before, isChainName_semicolon, isSuffix_semicolon, closed?_semicolon]
  | cons token tokens =>
      rw [before_cons, followsCallee, followsCallee, isSuffix_before, Token.stop_shift,
        add_beq_add_right]
      rfl

end Front

/-! ## Behind a front -/

def Pending.shift (lines : Nat) : Pending → Pending
  | nothing => nothing
  | body => body
  | .variable line => .variable (line + lines)

namespace Front

open Builder

variable (front : Front) {lineOf lineOf' : Nat → Nat}

theorem opensBody_before (hlines : ∀ byte, lineOf' (byte + front.bytes) = lineOf byte + front.lines)
    (pending : Pending) (tokens : List Token) (start : Nat) :
    opensBody lineOf' (pending.shift front.lines) (front.before tokens) (start + front.bytes) =
      opensBody lineOf pending tokens start := by
  cases tokens with
  | nil =>
      have hforces : forcesClosure front.semicolon = true := by
        simp [forcesClosure, front.isSemicolon]
      simp [opensBody, before, front.isSemicolon.1, TokenKind.isName, hforces]
  | cons previous tokens =>
      rcases pending with _ | _ | line
      · rfl
      · rfl
      · have hline : (lineOf' (start + front.bytes) == line + front.lines) =
            (lineOf start == line) := by
          rw [hlines, add_beq_add_right]
        simp only [before_cons, opensBody, Pending.shift, hline]
        rfl

theorem isMember_before (tokens after : List Token) :
    isMember (front.before tokens) (after.map (·.shift front.bytes)) = isMember tokens after := by
  have hafter : (after.map (·.shift front.bytes)).head?.any (·.isSymbol ".") =
      after.head?.any (·.isSymbol ".") := by
    cases after <;> rfl
  rw [isMember, isMember, hafter]
  cases tokens with
  | nil => simp [before, front.isSymbol_semicolon (show [';'] ≠ ".".toList by decide)]
  | cons token tokens => rfl

theorem pendingAfter_before
    (hlines : ∀ byte, lineOf' (byte + front.bytes) = lineOf byte + front.lines)
    (pending : Pending) (tokens : List Token) (token : Token) (after : List Token) :
    pendingAfter lineOf' (pending.shift front.lines) (front.before tokens)
        (token.shift front.bytes) (after.map (·.shift front.bytes)) =
      (pendingAfter lineOf pending tokens token after).shift front.lines := by
  have hstart : lineOf' (token.shift front.bytes).start = lineOf token.start + front.lines :=
    hlines token.start
  have hif : ∀ {p : Bool} {first second first' second' : Pending},
      first.shift front.lines = first' → second.shift front.lines = second' →
        (if p then first else second).shift front.lines = if p then first' else second' := by
    rintro p first second _ _ rfl rfl
    cases p <;> rfl
  symm
  unfold pendingAfter
  rw [isMember_before, hstart]
  apply hif rfl
  apply hif rfl
  rcases pending with _ | _ | line
  · exact hif rfl rfl
  · exact hif rfl rfl
  · exact hif rfl (hif rfl rfl)

def base : List Group → List Node
  | [] => front.nodes
  | _ :: _ => []

def level (level : Level) (groups : List Group) : Level :=
  ⟨level.nodes.map (Node.shift front.bytes) ++ front.base groups, level.pending.shift front.lines⟩

def becomes : Option (NodeKind × Nat) → Option (NodeKind × Nat) :=
  Option.map fun (kind, start) => (kind, start + front.bytes)

def group (group : Group) (outside : List Group) : Group :=
  ⟨group.bracket, front.becomes group.becomes, front.level group.outer outside⟩

def groups : List Group → List Group
  | [] => []
  | group :: outside => front.group group outside :: groups outside

/-- A builder that has read the front before. -/
def builder (builder : Builder) : Builder :=
  ⟨front.before builder.before, builder.captures, front.level builder.level builder.groups,
    front.groups builder.groups⟩

variable {builder : Builder}

/-! ### Ends of groups -/

theorem finish_group (group : Group) (outside : List Group) (inner : List Node) (stop : Nat) :
    (front.group group outside).finish (inner.map (Node.shift front.bytes)) (stop + front.bytes) =
      front.level (group.finish inner stop) outside := by
  obtain ⟨bracket, becomes, outer⟩ := group
  rcases becomes with _ | ⟨kind, start⟩
  · simp [Front.group, Front.becomes, Front.level, Group.finish]
  · have hrange : ByteRange.between (start + front.bytes) (stop + front.bytes) =
        (ByteRange.between start stop).shift front.bytes := by
      simp [ByteRange.between, ByteRange.shift, Nat.add_sub_add_right]
    simp [Front.group, Front.becomes, Front.level, Group.finish, Node.shift, hrange,
      forestShift_eq_map]

theorem closeGroups_groups (bracket : Bracket) (last stop : Nat) (level : Level)
    (groups : List Group) :
    closeGroups bracket (last + front.bytes) (stop + front.bytes) (front.level level groups)
        (front.groups groups) =
      (front.level (closeGroups bracket last stop level groups).1
          (closeGroups bracket last stop level groups).2,
        front.groups (closeGroups bracket last stop level groups).2) := by
  induction groups generalizing level with
  | nil => rfl
  | cons group outside ih =>
      have hinner : (front.level level (group :: outside)).nodes =
          level.nodes.map (Node.shift front.bytes) := List.append_nil _
      rw [Front.groups, closeGroups, closeGroups, hinner, finish_group, finish_group, ih]
      have hbracket : (front.group group outside).bracket = group.bracket := rfl
      rw [hbracket]
      split <;> rfl

theorem closeAll_groups (last : Nat) (level : Level) (groups : List Group) :
    closeAll (last + front.bytes) (front.level level groups) (front.groups groups) =
      front.level (closeAll last level groups) [] := by
  induction groups generalizing level with
  | nil => rfl
  | cons group outside ih =>
      have hinner : (front.level level (group :: outside)).nodes =
          level.nodes.map (Node.shift front.bytes) := List.append_nil _
      rw [Front.groups, closeAll, closeAll, hinner, finish_group, ih]

theorem lastStop_builder (h : builder.before ≠ []) :
    (front.builder builder).lastStop = builder.lastStop + front.bytes := by
  obtain ⟨token, tokens, hbefore⟩ := List.exists_cons_of_ne_nil h
  simp [lastStop, Front.builder, hbefore, before_cons, Token.stop_shift]

theorem closeGroups_builder (h : builder.groups ≠ [] → builder.before ≠ []) (bracket : Bracket)
    (stop : Nat) :
    closeGroups bracket (front.builder builder).lastStop (stop + front.bytes)
        (front.level builder.level builder.groups) (front.groups builder.groups) =
      (front.level (closeGroups bracket builder.lastStop stop builder.level builder.groups).1
          (closeGroups bracket builder.lastStop stop builder.level builder.groups).2,
        front.groups (closeGroups bracket builder.lastStop stop builder.level builder.groups).2) := by
  by_cases hgroups : builder.groups = []
  · rw [hgroups]
    rfl
  · rw [front.lastStop_builder (h hgroups)]
    exact front.closeGroups_groups bracket _ _ _ _

/-! ### Opening brackets -/

theorem openGroup_builder (builder : Builder) (bracket : Bracket)
    (becomes : Option (NodeKind × Nat)) (outer : Level)
    (inner : List Node) :
    (front.builder builder).openGroup bracket (front.becomes becomes)
        (front.level outer builder.groups) (inner.map (Node.shift front.bytes)) =
      front.builder (builder.openGroup bracket becomes outer inner) := by
  have hlevel : front.level ⟨inner, .nothing⟩ (⟨bracket, becomes, outer⟩ :: builder.groups) =
      ⟨inner.map (Node.shift front.bytes), .nothing⟩ := by
    simp [Front.level, Front.base, Pending.shift]
  simp only [openGroup, Front.builder, hlevel]
  rfl

/-- A call adopts no node of the front, because that ends before any group behind it. -/
theorem openRound_builder (start : Nat) :
    (front.builder builder).openRound (start + front.bytes) =
      front.builder (builder.openRound start) := by
  have hcallee : callee? (front.builder builder).before =
      (callee? builder.before).map (Callee.shift front.bytes) :=
    front.calleeFrom_before none builder.before
  unfold openRound
  rw [hcallee]
  rcases callee? builder.before with _ | first | ⟨stop, first⟩
  · exact front.openGroup_builder builder .round (some (.tuple, start)) builder.level []
  · exact front.openGroup_builder builder .round (some (.call, first)) builder.level []
  · have hfirst : (first.map (· + front.bytes)).getD (start + front.bytes) =
        first.getD start + front.bytes := by
      cases first <;> rfl
    have hchain := front.openGroup_builder builder .round (some (.call, first.getD start))
      builder.level []
    have hlevel : (front.builder builder).level.nodes =
        builder.level.nodes.map (Node.shift front.bytes) ++ front.base builder.groups := rfl
    simp only [Option.map_some, Callee.shift, hfirst, hlevel]
    cases hnodes : builder.level.nodes with
    | nil =>
        cases hbase : front.base builder.groups with
        | nil => exact hchain
        | cons node nodes =>
            have hnode : node ∈ front.nodes := by
              unfold base at hbase
              split at hbase
              · rw [hbase]
                exact List.mem_cons_self
              · cases hbase
            have hlt := front.nodes_lt node hnode
            have hne : node.stop ≠ stop + front.bytes := by omega
            simp only [List.map_nil, List.nil_append, if_neg hne]
            exact hchain
    | cons last older =>
        have hstop : (last.shift front.bytes).stop = stop + front.bytes ↔ last.stop = stop := by
          rw [Node.stop_shift]
          exact Nat.add_right_cancel_iff
        simp only [List.map_cons, List.cons_append, hstop]
        split
        · rw [Node.start_shift]
          exact front.openGroup_builder builder .round (some (.call, last.start))
            { builder.level with nodes := older } [last]
        · exact hchain

theorem openSquare_builder (start : Nat) (after : List Token) :
    (front.builder builder).openSquare (start + front.bytes) (after.map (·.shift front.bytes)) =
      front.builder (builder.openSquare start after) := by
  have hfollows : followsCallee (front.builder builder).before (start + front.bytes) =
      followsCallee builder.before start := front.followsCallee_before builder.before start
  unfold openSquare
  rw [hfollows, hasColon_shift]
  split
  · exact front.openGroup_builder builder .square none builder.level []
  · exact front.openGroup_builder builder .square (some (_, start)) builder.level []

theorem openCurly_builder
    (hlines : ∀ byte, lineOf' (byte + front.bytes) = lineOf byte + front.lines)
    (start : Nat) (after : List Token) :
    openCurly lineOf' (front.builder builder) (start + front.bytes)
        (after.map (·.shift front.bytes)) =
      front.builder (openCurly lineOf builder start after) := by
  have hbody : opensBody lineOf' (front.builder builder).level.pending (front.builder builder).before
      (start + front.bytes) = opensBody lineOf builder.level.pending builder.before start :=
    front.opensBody_before hlines builder.level.pending builder.before start
  unfold openCurly
  simp only [hbody, captureListLength?_shift]
  split
  · exact front.openGroup_builder builder .curly none { builder.level with pending := .nothing } []
  · have hgroup := front.openGroup_builder builder .curly (some (.closure, start)) builder.level []
    exact congrArg (fun opened => { opened with captures := (captureListLength? after).getD 0 })
      hgroup

/-! ### Steps and runs -/

theorem act_builder (hlines : ∀ byte, lineOf' (byte + front.bytes) = lineOf byte + front.lines)
    (h : builder.groups ≠ [] → builder.before ≠ []) (token : Token) (after : List Token) :
    (front.builder builder).act lineOf' (token.shift front.bytes)
        (after.map (·.shift front.bytes)) =
      front.builder (builder.act lineOf token after) := by
  have hopened : Bracket.opened? (token.shift front.bytes) = Bracket.opened? token := rfl
  have hclosed : Bracket.closed? (token.shift front.bytes) = Bracket.closed? token := rfl
  unfold act
  rw [hopened, hclosed]
  rcases Bracket.opened? token with _ | bracket
  · rcases Bracket.closed? token with _ | bracket
    · have hpending := front.pendingAfter_before hlines builder.level.pending builder.before token
        after
      exact congrArg (fun pending => { front.builder builder with
        level := { (front.builder builder).level with pending } }) hpending
    · have hclose := front.closeGroups_builder h bracket token.stop
      rw [← Token.stop_shift] at hclose
      exact congrArg (fun ended : Level × List Group =>
        { front.builder builder with level := ended.1, groups := ended.2 }) hclose
  · cases bracket with
    | round => exact front.openRound_builder token.start
    | square => exact front.openSquare_builder token.start after
    | curly => exact front.openCurly_builder hlines token.start after

theorem step_builder (hlines : ∀ byte, lineOf' (byte + front.bytes) = lineOf byte + front.lines)
    (h : builder.groups ≠ [] → builder.before ≠ []) (token : Token) (after : List Token) :
    (front.builder builder).step lineOf' (token.shift front.bytes)
        (after.map (·.shift front.bytes)) =
      front.builder (builder.step lineOf token after) := by
  have hact := front.act_builder hlines h token after
  have hcaptures : (front.builder builder).captures = builder.captures := rfl
  unfold step
  rw [hcaptures]
  cases builder.captures with
  | zero =>
      dsimp only
      rw [hact]
      rfl
  | succ captures => rfl

/-- Reading tokens behind a front is moving what is read without it. -/
theorem run_builder (hlines : ∀ byte, lineOf' (byte + front.bytes) = lineOf byte + front.lines)
    (h : builder.groups ≠ [] → builder.before ≠ []) (tokens : List Token) :
    (front.builder builder).run lineOf' (tokens.map (·.shift front.bytes)) =
      front.builder (builder.run lineOf tokens) ∧
      ((builder.run lineOf tokens).groups ≠ [] → (builder.run lineOf tokens).before ≠ []) := by
  induction tokens generalizing builder with
  | nil => exact ⟨rfl, h⟩
  | cons token after ih =>
      rw [List.map_cons, run, run, front.step_builder hlines h]
      exact ih fun _ => List.cons_ne_nil _ _

theorem result_builder (h : builder.groups ≠ [] → builder.before ≠ []) :
    (front.builder builder).result =
      front.nodes.reverse ++ builder.result.map (Node.shift front.bytes) := by
  have hclose : closeAll (front.builder builder).lastStop (front.level builder.level builder.groups)
      (front.groups builder.groups) =
        front.level (closeAll builder.lastStop builder.level builder.groups) [] := by
    by_cases hgroups : builder.groups = []
    · rw [hgroups]
      rfl
    · rw [front.lastStop_builder (h hgroups)]
      exact front.closeAll_groups _ _ _
  unfold result
  rw [show (front.builder builder).level = front.level builder.level builder.groups from rfl,
    show (front.builder builder).groups = front.groups builder.groups from rfl, hclose]
  simp [Front.level, Front.base]

end Front

end Structure

end CaptureLint
