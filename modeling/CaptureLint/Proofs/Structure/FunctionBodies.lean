import CaptureLint.Proofs.Structure.Braces
import CaptureLint.Proofs.Token.Types

/-!
# Bodies of functions

A header waits for its body through everything that nests without a brace or a semicolon, so a return
type cannot end the wait.  What the brace after the type opens is then decided by the last lexeme of
the type.  A `>` that is followed by further signs of the type makes up one operator with them, and
this operator is none of those after which a body can follow.
-/

namespace CaptureLint.Structure

open CaptureLint.Bracket

variable {lineOf : Nat → Nat} {tokens rest after middle : List Token} {token : Token}
  {stack : List Bracket} {bracket : Bracket} {builder : Builder} {level level' : Level}
  {groups : List Group}

/-! ## Waiting for a body -/

def fileLevel : Level → List Group → Level
  | level, [] => level
  | _, group :: groups => fileLevel group.outer groups

/-- A header at file level waits for its body; the groups opened since then have these brackets. -/
structure Awaits (stack : List Bracket) (builder : Builder) : Prop where
  captures : builder.captures = 0
  brackets : builder.groups.map Group.bracket = stack
  pending : (fileLevel builder.level builder.groups).pending = .body

theorem pending_fileLevel (h : level.pending = level'.pending) (groups : List Group) :
    (fileLevel level groups).pending = (fileLevel level' groups).pending := by
  cases groups with
  | nil => exact h
  | cons => rfl

theorem pendingAfter_body (before : List Token) (after : List Token)
    (h : token.isPunctuation ";" = false) :
    Builder.pendingAfter lineOf .body before token after = .body := by
  unfold Builder.pendingAfter
  rw [h, if_neg Bool.false_ne_true]
  split
  · rfl
  · rw [if_neg (by simp)]

theorem Builder.act_of_flat (lineOf : Nat → Nat) (builder : Builder) (after : List Token)
    (hopened : opened? token = some bracket) (hcurly : bracket ≠ .curly) :
    ∃ becomes outer inner,
      builder.act lineOf token after = builder.openGroup bracket becomes outer inner ∧
        outer.pending = builder.level.pending := by
  unfold Builder.act
  rw [hopened]
  cases bracket with
  | round =>
      dsimp only [Builder.openRound]
      repeat' split
      all_goals exact ⟨_, _, _, rfl, rfl⟩
  | square => exact ⟨_, _, _, rfl, rfl⟩
  | curly => exact absurd rfl hcurly

namespace Awaits

theorem opened (h : Awaits stack builder) (hopened : opened? token = some bracket)
    (hcurly : bracket ≠ .curly) :
    Awaits (bracket :: stack) (builder.step lineOf token after) := by
  obtain ⟨becomes, outer, inner, hact, houter⟩ :=
    builder.act_of_flat lineOf after hopened hcurly
  rw [Builder.step, h.captures]
  dsimp only
  rw [hact]
  exact ⟨h.captures, congrArg (bracket :: ·) h.brackets,
    (pending_fileLevel houter builder.groups).trans h.pending⟩

theorem closed (h : Awaits (bracket :: stack) builder) (hclosed : closed? token = some bracket) :
    Awaits stack (builder.step lineOf token after) := by
  obtain ⟨group, groups, hgroups, hbracket, hstack⟩ := List.map_eq_cons_iff.mp h.brackets
  have hpending := h.pending
  rw [hgroups] at hpending
  rw [Builder.step, h.captures]
  dsimp only
  rw [Builder.act_of_closed hclosed, hgroups, Builder.closeGroups, if_pos hbracket]
  refine ⟨h.captures, hstack, (pending_fileLevel ?_ groups).trans hpending⟩
  unfold Group.finish
  split <;> rfl

theorem plain (h : Awaits stack builder) (hplain : isBracket token = false)
    (hsemicolon : token.isPunctuation ";" = false) :
    Awaits stack (builder.step lineOf token after) := by
  have hpending := h.pending
  rw [isBracket_eq_false_iff] at hplain
  rw [Builder.step, h.captures]
  dsimp only
  rw [Builder.act, hplain.1, hplain.2]
  refine ⟨h.captures, h.brackets, ?_⟩
  dsimp only
  cases hgroups : builder.groups with
  | nil =>
      rw [hgroups] at hpending
      have hlevel : builder.level.pending = .body := hpending
      rw [fileLevel, hlevel]
      exact pendingAfter_body _ _ hsemicolon
  | cons group groups =>
      rw [hgroups] at hpending
      exact hpending

theorem settled (h : Awaits [] builder) : builder.level.pending = .body := by
  have hpending := h.pending
  rw [List.map_eq_nil_iff.mp h.brackets] at hpending
  exact hpending

/-- A brace after the header opens its body, unless an expression follows the token before it. -/
theorem opensBody_iff {previous : Token} {before : List Token} (h : Awaits [] builder)
    (hbefore : builder.before = previous :: before) (hword : ¬ IsBodyWord previous) (start : Nat) :
    Builder.opensBody lineOf builder.level.pending builder.before start = true ↔
      ¬ ForcesExpression previous := by
  have hopener : (previous.kind.isName && previous.isAmong Keyword.bodyOpeners) = false := by
    rw [Bool.eq_false_iff, ne_eq, Bool.and_eq_true, Token.isAmong, List.contains_iff_mem]
    exact hword
  rw [hbefore, h.settled, Builder.opensBody, hopener, if_neg Bool.false_ne_true,
    ← Builder.forcesClosure_iff]
  split
  · rename_i hforces
    exact iff_of_false Bool.false_ne_true (not_not_intro hforces)
  · rename_i hforces
    exact iff_of_true rfl hforces

end Awaits

/-- A header waits on while brackets nest. -/
theorem Builder.Reached.awaits (hnests : nests stack middle = true)
    (hmiddle : ∀ token ∈ middle, opened? token ≠ some .curly ∧ token.isPunctuation ";" = false)
    (h : Reached lineOf tokens builder (middle ++ rest)) (hawaits : Awaits stack builder) :
    ∃ later, Reached lineOf tokens later rest ∧ Awaits [] later := by
  induction hnests using nests_induction generalizing builder with
  | nil => exact ⟨builder, h, hawaits⟩
  | opened stack token after bracket hopened hnests ih =>
      obtain ⟨⟨hcurly, -⟩, hafter⟩ := List.forall_mem_cons.mp hmiddle
      refine ih hafter h.step (hawaits.opened hopened fun heq => hcurly ?_)
      rw [hopened, heq]
  | closed stack token after bracket hclosed hall hnests ih =>
      exact ih (List.forall_mem_cons.mp hmiddle).2 h.step (hawaits.closed hclosed)
  | plain stack token after hplain hnests ih =>
      obtain ⟨⟨-, hsemicolon⟩, hafter⟩ := List.forall_mem_cons.mp hmiddle
      exact ih hafter h.step (hawaits.plain hplain hsemicolon)

theorem map_start_closures {forest : List Node} {start : Nat}
    (h : ∀ node ∈ Node.closures forest, node.start = start) :
    (Node.closures forest).map Node.start = List.replicate (nodesAt forest .curly start) start := by
  have hcount : nodesAt forest .curly start = (Node.closures forest).length := by
    rw [nodesAt, Node.closures_eq_filter, ← List.countP_eq_length_filter]
    refine List.countP_congr fun node hnode => ?_
    have hkind : (node.kind.bracket == .curly) = (node.kind == .closure) := by
      cases node.kind <;> rfl
    rw [hkind, Bool.and_eq_true, beq_iff_eq, beq_iff_eq, and_iff_left_iff_imp]
    exact fun hclosure => h node (Node.mem_closures.mpr ⟨hnode, hclosure⟩)
  rw [List.eq_replicate_iff, List.length_map, hcount]
  refine ⟨rfl, fun found hfound => ?_⟩
  obtain ⟨node, hnode, rfl⟩ := List.mem_map.mp hfound
  exact h node hnode

end CaptureLint.Structure

namespace CaptureLint.TypeSyntax

open Token Structure CaptureLint.Bracket

variable {signs : List Char} {piece : Piece} {kind : TokenKind} {text : List Char}

/-! ## The lexemes of a type -/

def IsTypePiece : Piece → Prop
  | .lexeme kind text =>
      kind = .identifier ∨ kind = .operator ∨ kind = .punctuation ∧ text ∈ [['['], [']'], [',']]
  | .blank _ => True
  | _ => False

theorem exists_operator_of_mem_marks (h : piece ∈ marks signs) :
    ∃ text, piece = .lexeme .operator text := by
  induction signs with
  | nil => cases h
  | cons c signs ih =>
      rw [marks] at h
      split at h
      · rcases List.mem_cons.mp h with rfl | h
        · exact ⟨_, rfl⟩
        · exact ih h
      · exact ⟨_, List.mem_singleton.mp h⟩

theorem isTypePiece_marks : ∀ piece ∈ marks signs, IsTypePiece piece := by
  intro piece hpiece
  obtain ⟨text, rfl⟩ := exists_operator_of_mem_marks hpiece
  exact .inr (.inl rfl)

theorem isTypePiece_parts (type : TypeSyntax) (signs : List Char) :
    ∀ piece ∈ type.parts signs, IsTypePiece piece := by
  have hoperator : ∀ text, IsTypePiece (.lexeme .operator text) := fun _ => .inr (.inl rfl)
  have hname : ∀ text, IsTypePiece (.lexeme .identifier text) := fun _ => .inl rfl
  have hsign : ∀ text ∈ [['['], [']'], [',']], IsTypePiece (.lexeme .punctuation text) :=
    fun _ h => .inr (.inr ⟨rfl, h⟩)
  induction type generalizing signs with
  | name n => exact List.forall_mem_cons.mpr ⟨hname _, isTypePiece_marks⟩
  | generic n argument ih =>
      simp only [parts, List.forall_mem_cons]
      exact ⟨hname _, hoperator _, ih _⟩
  | binary n first second ihfirst ihsecond =>
      simp only [parts, List.forall_mem_cons, List.forall_mem_append]
      exact ⟨hname _, hoperator _, ihfirst _, hsign _ (by decide), trivial, ihsecond _⟩
  | list element ih =>
      simp only [parts, List.forall_mem_cons, List.forall_mem_append]
      exact ⟨hsign _ (by decide), ih _, hsign _ (by decide), isTypePiece_marks⟩
  | optional wrapped ih => exact ih _

theorem of_mem_locate_parts {type : TypeSyntax} {start : Nat} {token : Token}
    (h : token ∈ locate start (type.parts signs)) :
    token.kind.isTrivia = false ∧ opened? token ≠ some .curly ∧
      token.isPunctuation ";" = false := by
  obtain ⟨before, after, hsplit⟩ := List.append_of_mem h
  obtain ⟨first, second, hparts, -, -⟩ := locate_split hsplit
  have hpiece := type.isTypePiece_parts signs (.lexeme token.kind token.text)
    (by rw [hparts]; simp)
  obtain ⟨kind, start, text⟩ := token
  rcases hpiece with rfl | rfl | ⟨rfl, htext⟩
  · exact ⟨rfl, nofun, rfl⟩
  · exact ⟨rfl, nofun, rfl⟩
  · simp only [List.mem_cons, List.not_mem_nil, or_false] at htext
    rcases htext with rfl | rfl | rfl <;> exact ⟨rfl, nofun, rfl⟩

/-! ## Brackets of a type -/

theorem nests_marks (signs : List Char) (start : Nat) :
    nests [] (locate start (marks signs)) = true := by
  refine nests_nil_of_plain fun token htoken => ?_
  obtain ⟨before, after, hsplit⟩ := List.append_of_mem htoken
  obtain ⟨first, second, hparts, -, -⟩ := locate_split hsplit
  have hmem : .lexeme token.kind token.text ∈ marks signs := by
    rw [hparts]
    simp
  obtain ⟨text, htext⟩ := exists_operator_of_mem_marks hmem
  rw [Bool.eq_false_iff]
  intro hbracket
  have hkind := kind_of_isBracket hbracket
  rw [(Piece.lexeme.inj htext).1] at hkind
  cases hkind

theorem nests_parts (type : TypeSyntax) (signs : List Char) (start : Nat) :
    nests [] (locate start (type.parts signs)) = true := by
  induction type generalizing signs start with
  | name n => exact nests_marks signs _
  | generic n argument ih => exact ih _ _
  | binary n first second ihfirst ihsecond =>
      show nests [] (locate _ (first.parts [] ++ _)) = true
      rw [locate_append]
      exact (nests_pass [] (ihfirst [] _)).trans (ihsecond ('>' :: signs) _)
  | list element ih =>
      show nests [.square] (locate _ (element.parts [] ++ _)) = true
      rw [locate_append]
      refine (nests_pass [.square] (ih [] _)).trans ?_
      exact nests_cons_of_closed rfl (nests_marks signs _)
  | optional wrapped ih => exact ih _ _

/-! ## The last lexeme of a type -/

/-- The signs that follow each other without a gap at the end of a type with signs behind it, from
the first `>` on. -/
def run : TypeSyntax → List Char → List Char
  | name _, signs | list _, signs => signs.dropWhile (· == '?')
  | generic _ argument, signs => argument.run ('>' :: signs)
  | binary _ _ second, signs => second.run ('>' :: signs)
  | optional wrapped, signs => wrapped.run ('?' :: signs)

theorem run_eq_dropWhile {type : TypeSyntax} (h : type.endsGeneric = false) (signs : List Char) :
    type.run signs = signs.dropWhile (· == '?') := by
  induction type generalizing signs with
  | name | list => rfl
  | generic | binary => cases h
  | optional wrapped ih => exact ih h ('?' :: signs)

theorem length_lt_run {type : TypeSyntax} (h : type.endsGeneric = true) (signs : List Char) :
    signs.length < (type.run signs).length := by
  have hargument : ∀ {argument : TypeSyntax} {signs : List Char},
      (∀ signs, argument.endsGeneric = true → signs.length < (argument.run signs).length) →
        signs.length < (argument.run ('>' :: signs)).length := by
    intro argument signs ih
    cases hends : argument.endsGeneric with
    | true => exact Nat.lt_trans (Nat.lt_succ_self _) (ih ('>' :: signs) hends)
    | false =>
        rw [run_eq_dropWhile hends, List.dropWhile_cons_of_neg (by decide)]
        exact Nat.lt_succ_self _
  induction type generalizing signs with
  | name | list => cases h
  | generic n argument ih => exact hargument fun signs h => ih h signs
  | binary n first second _ ih => exact hargument fun signs h => ih h signs
  | optional wrapped ih => exact Nat.lt_trans (Nat.lt_succ_self _) (ih h ('?' :: signs))

/-- More than one sign is glued to the end of a type just if a `>` at its end is followed by one. -/
theorem one_lt_run_iff (type : TypeSyntax) : 1 < (type.run []).length ↔ type.glued = true := by
  have hone : ∀ {inner : TypeSyntax} {c : Char}, (List.dropWhile (· == '?') [c]).length ≤ 1 →
      (1 < (inner.run [c]).length ↔ inner.endsGeneric = true) := by
    intro inner c hle
    cases hends : inner.endsGeneric with
    | true => exact iff_of_true (length_lt_run hends [c]) rfl
    | false =>
        rw [run_eq_dropWhile hends]
        exact iff_of_false (Nat.not_lt.mpr hle) Bool.false_ne_true
  cases type with
  | name | list => exact iff_of_false (Nat.not_lt_zero 1) Bool.false_ne_true
  | generic n argument => exact hone (by decide)
  | binary n first second => exact hone (by decide)
  | optional wrapped => exact hone (by decide)

/-- The pieces end with a lexeme that is no word before a body; whether an expression follows it is
given. -/
def Ends (parts : List Piece) (forced : Prop) : Prop :=
  ∃ front kind text, parts = front ++ [.lexeme kind text] ∧
    ∀ start, ¬ IsBodyWord ⟨kind, start, text⟩ ∧ (ForcesExpression ⟨kind, start, text⟩ ↔ forced)

theorem Ends.append {parts : List Piece} {forced : Prop} (h : Ends parts forced)
    (first : List Piece) : Ends (first ++ parts) forced := by
  obtain ⟨front, kind, text, rfl, hlast⟩ := h
  exact ⟨first ++ front, kind, text, (List.append_assoc _ _ _).symm, hlast⟩

theorem ends_marks (h : AreMarks signs)
    (hbase : ∀ start, ¬ IsBodyWord ⟨kind, start, text⟩ ∧ ¬ ForcesExpression ⟨kind, start, text⟩) :
    Ends (.lexeme kind text :: marks signs) (1 < (signs.dropWhile (· == '?')).length) := by
  induction signs generalizing kind text with
  | nil =>
      refine ⟨[], kind, text, rfl, fun start => ⟨(hbase start).1, ?_⟩⟩
      exact iff_of_false (hbase start).2 (by decide)
  | cons c signs ih =>
      have hsigns : AreMarks signs := fun d hd => h d (List.mem_cons_of_mem _ hd)
      rcases h c List.mem_cons_self with rfl | rfl
      · refine ⟨[.lexeme kind text], .operator, '>' :: signs, rfl, fun start => ⟨nofun, ?_⟩⟩
        rw [List.dropWhile_cons_of_neg (by decide)]
        cases signs with
        | nil => exact iff_of_false (by simp [ForcesExpression]) (Nat.lt_irrefl 1)
        | cons d signs =>
            refine iff_of_true (.inr (.inl ⟨rfl, ?_⟩)) (by simp)
            simp [← String.toList_inj]
      · have hmark : ∀ start, ¬ IsBodyWord ⟨.operator, start, ['?']⟩ ∧
            ¬ ForcesExpression ⟨.operator, start, ['?']⟩ := fun start =>
          ⟨nofun, by simp [ForcesExpression]⟩
        exact (ih hsigns hmark).append [.lexeme kind text]

theorem ends_parts (type : TypeSyntax) (h : AreMarks signs) :
    Ends (type.parts signs) (1 < (type.run signs).length) := by
  induction type generalizing signs with
  | name n =>
      refine ends_marks h fun start => ⟨fun hword => n.unopened hword.2, ?_⟩
      rintro (⟨⟨⟩, -⟩ | ⟨⟨⟩, -⟩ | ⟨⟨⟩, -⟩)
  | generic n argument ih => exact (ih (h.cons (.inl rfl))).append [_, _]
  | binary n first second _ ih =>
      have hsecond := (ih (h.cons (.inl rfl))).append
        (.lexeme .identifier n.text :: .lexeme .operator ['<'] ::
          (first.parts [] ++ [.lexeme .punctuation [','], .blank ' ']))
      simpa only [parts, run, List.append_assoc, List.cons_append, List.nil_append] using hsecond
  | list element ih =>
      have hclosing : Ends (.lexeme .punctuation [']'] :: marks signs)
          (1 < (signs.dropWhile (· == '?')).length) :=
        ends_marks h fun start =>
          ⟨fun hword => Bool.false_ne_true hword.1, by simp [ForcesExpression]⟩
      exact hclosing.append (.lexeme .punctuation ['['] :: element.parts [])
  | optional wrapped ih => exact ih (h.cons (.inr rfl))

end CaptureLint.TypeSyntax

namespace CaptureLint.Source

open Token Structure CaptureLint.Bracket

/-- A function without parameters that returns a type, with an empty body. -/
def returning (type : TypeSyntax) : Source :=
  ⟨none, "func f() -> ".toList ++ (type.text ++ " \x7b \x7d".toList)⟩

def returningHead : List Piece :=
  [.lexeme .keyword "func".toList, .blank ' ', .lexeme .identifier ['f'],
    .lexeme .punctuation ['('], .lexeme .punctuation [')'], .blank ' ',
    .lexeme .operator ['-', '>'], .blank ' ']

theorem piecesFrom_returningHead (text : List Char) :
    piecesFrom [] none ("func f() -> ".toList ++ text) =
      returningHead ++ piecesFrom [] (some (.blank ' ')) text := by
  have hkeyword : cut [] none 'f' ("unc f() -> ".toList ++ text) =
      ⟨[.lexeme .keyword "func".toList], [], 3⟩ := rfl
  have hname : cut [] (some (.blank ' ')) 'f' ("() -> ".toList ++ text) =
      ⟨[.lexeme .identifier ['f']], [], 0⟩ := rfl
  have harrow : cut [] (some (.blank ' ')) '-' ("> ".toList ++ text) =
      ⟨[.lexeme .operator ['-', '>']], [], 1⟩ := rfl
  have hround : ∀ before, piecesFrom [] before ("() -> ".toList ++ text) =
      .lexeme .punctuation ['('] :: .lexeme .punctuation [')'] :: .blank ' ' ::
        .lexeme .operator ['-', '>'] :: .blank ' ' :: piecesFrom [] (some (.blank ' ')) text := by
    intro before
    show piecesFrom [] before ('(' :: ')' :: ' ' :: '-' :: ("> ".toList ++ text)) = _
    rw [piecesFrom_separator before rfl, piecesFrom_separator _ rfl, piecesFrom_space,
      piecesFrom_cons, harrow]
    show _ :: _ :: _ :: _ :: piecesFrom [] _ (' ' :: text) = _
    rw [piecesFrom_space]
  show piecesFrom [] none ('f' :: ("unc f() -> ".toList ++ text)) = _
  rw [piecesFrom_cons, hkeyword]
  show _ :: piecesFrom [] _ (' ' :: 'f' :: ("() -> ".toList ++ text)) = _
  rw [piecesFrom_space, piecesFrom_cons, hname]
  show _ :: _ :: _ :: piecesFrom [] _ ("() -> ".toList ++ text) = _
  rw [hround]
  rfl

theorem pieces_returning (type : TypeSyntax) :
    pieces (returning type).chars = returningHead ++ (type.parts [] ++
      [.blank ' ', .lexeme .punctuation ['\x7b'], .blank ' ', .lexeme .punctuation ['\x7d']]) := by
  obtain ⟨last, htype⟩ := type.piecesFrom_text areMarks_nil
    (parts_blank "\x7b \x7d".toList) (some (.blank ' '))
  have hbody : piecesFrom [] last (' ' :: "\x7b \x7d".toList) =
      [.blank ' ', .lexeme .punctuation ['\x7b'], .blank ' ', .lexeme .punctuation ['\x7d']] := by
    show piecesFrom [] last [' ', '\x7b', ' ', '\x7d'] = _
    rw [piecesFrom_space, piecesFrom_separator _ rfl, piecesFrom_space,
      piecesFrom_separator _ rfl, piecesFrom_nil]
  rw [pieces, returning, chars, piecesFrom_returningHead, ← hbody]
  exact congrArg (returningHead ++ ·) htype

def bodyStart (type : TypeSyntax) : Nat := 13 + bytesOf type.text

theorem bytesOf_parts (type : TypeSyntax) :
    bytesOf ((type.parts []).flatMap Piece.text) = bytesOf type.text := by
  obtain ⟨last, htype⟩ := type.piecesFrom_text areMarks_nil (by nofun : Parts []) none
  have htext := flatMap_text_piecesFrom [] none (type.text ++ ([] ++ []))
  rw [htype, piecesFrom_nil, List.append_nil, List.append_nil, List.append_nil] at htext
  rw [htext]

def returningHeader (type : TypeSyntax) : List Token :=
  [⟨.identifier, 5, ['f']⟩, ⟨.punctuation, 6, ['(']⟩, ⟨.punctuation, 7, [')']⟩,
    ⟨.operator, 9, ['-', '>']⟩] ++ locate 12 (type.parts [])

theorem tokens_returning (type : TypeSyntax) :
    (returning type).tokens.filter (!·.kind.isTrivia) =
      ⟨.keyword, 0, "func".toList⟩ :: (returningHeader type ++
        [⟨.punctuation, bodyStart type, ['\x7b']⟩, ⟨.punctuation, bodyStart type + 2, ['\x7d']⟩]) := by
  have htokens : (returning type).tokens = ⟨.keyword, 0, "func".toList⟩ :: (returningHeader type ++
      [⟨.punctuation, bodyStart type, ['\x7b']⟩,
        ⟨.punctuation, bodyStart type + 2, ['\x7d']⟩]) := by
    have hhead : locate 0 returningHead = ⟨.keyword, 0, "func".toList⟩ ::
        [⟨.identifier, 5, ['f']⟩, ⟨.punctuation, 6, ['(']⟩, ⟨.punctuation, 7, [')']⟩,
          ⟨.operator, 9, ['-', '>']⟩] := rfl
    have hbytes : bytesOf (returningHead.flatMap Piece.text) = 12 := rfl
    have hbody : ∀ start, locate start [.blank ' ', .lexeme .punctuation ['\x7b'], .blank ' ',
        .lexeme .punctuation ['\x7d']] =
          [⟨.punctuation, start + 1, ['\x7b']⟩, ⟨.punctuation, start + 3, ['\x7d']⟩] :=
      fun _ => rfl
    have hstart : 0 + 12 + bytesOf type.text + 1 = bodyStart type := by
      rw [bodyStart]
      omega
    rw [tokens, Token.tokens, pieces_returning, locate_append, locate_append, hhead, hbytes,
      bytesOf_parts, hbody, ← hstart]
    simp only [returningHeader, List.cons_append, List.nil_append]
  rw [htokens, List.filter_eq_self]
  intro token htoken
  simp only [returningHeader, List.mem_cons, List.mem_append, List.not_mem_nil, or_false] at htoken
  rcases htoken with rfl | ((rfl | rfl | rfl | rfl) | htype) | rfl | rfl
  · rfl
  · rfl
  · rfl
  · rfl
  · rfl
  · rw [(TypeSyntax.of_mem_locate_parts htype).1]
    rfl
  · rfl
  · rfl

theorem nests_returningHeader (type : TypeSyntax) :
    nests [] (returningHeader type) = true ∧ ∀ token ∈ returningHeader type,
      opened? token ≠ some .curly ∧ token.isPunctuation ";" = false := by
  constructor
  · exact type.nests_parts [] 12
  · intro token htoken
    rcases List.mem_append.mp htoken with hhead | htype
    · simp only [List.mem_cons, List.not_mem_nil, or_false] at hhead
      rcases hhead with rfl | rfl | rfl | rfl <;> exact ⟨nofun, rfl⟩
    · exact (TypeSyntax.of_mem_locate_parts htype).2

theorem exists_last_returningHeader (type : TypeSyntax) :
    ∃ front last, returningHeader type = front ++ [last] ∧ ¬ IsBodyWord last ∧
      (ForcesExpression last ↔ type.glued = true) := by
  obtain ⟨front, kind, text, hparts, hlast⟩ := type.ends_parts areMarks_nil
  obtain ⟨hword, hforces⟩ := hlast (12 + bytesOf (front.flatMap Piece.text))
  rw [returningHeader, hparts, locate_append, ← List.append_assoc]
  exact ⟨_, _, rfl, hword, hforces.trans type.one_lt_run_iff⟩

/-- The body of a function is taken for one unless signs of the return type are glued together. -/
theorem exists_moment_of_body (type : TypeSyntax) :
    ∃ moment ∈ (returning type).moments, moment.token = ⟨.punctuation, bodyStart type, ['\x7b']⟩ ∧
      (moment.opensBody (returning type).lineOfByte = true ↔ type.glued = false) := by
  obtain ⟨hnests, hplain⟩ := nests_returningHeader type
  obtain ⟨front, last, hlast, hword, hforces⟩ := exists_last_returningHeader type
  have hordered := (returning type).ordered_tokens.filter (!·.kind.isTrivia)
  rw [tokens_returning] at hordered
  -- the header waits from its keyword on
  obtain ⟨builder, hreached, hawaits⟩ := (@Builder.Reached.initial (returning type).lineOfByte
    (⟨.keyword, 0, "func".toList⟩ :: (returningHeader type ++ _))).step.awaits hnests hplain
      ⟨rfl, rfl, rfl⟩
  have hsplit := (hreached.reading hordered).split
  rw [← List.cons_append] at hsplit
  have hbefore : builder.before = last :: (⟨.keyword, 0, "func".toList⟩ :: front).reverse := by
    have hreverse := congrArg List.reverse (List.append_cancel_right hsplit)
    rw [List.reverse_reverse, hlast] at hreverse
    rw [← hreverse]
    simp
  have hmoment := Builder.mem_moments_of_reached hreached
  rw [← tokens_returning] at hmoment
  refine ⟨_, hmoment, rfl, (hawaits.opensBody_iff hbefore hword _).trans ?_⟩
  rw [hforces, Bool.not_eq_true]

/-- The body of a function is no closure unless a `>` at the end of the return type is followed by
another sign of it; then the body is the only closure. -/
theorem closures_returning (type : TypeSyntax) :
    (Node.closures ((returning type).structureOf (returning type).tokens)).map Node.start =
      if type.glued then [bodyStart type] else [] := by
  obtain ⟨moment, hmoment, htoken, hopens⟩ := exists_moment_of_body type
  obtain ⟨⟨htokens, -⟩, -, hbraces, -, hnodes, -⟩ := (returning type).brackets_accounted
  have hcount := (hbraces moment hmoment (by rw [htoken]; rfl)).2
  rw [htoken] at hcount
  have hstart : ∀ node ∈ Node.closures ((returning type).structureOf (returning type).tokens),
      node.start = bodyStart type := by
    intro node hnode
    obtain ⟨hnode, hkind⟩ := Node.mem_closures.mp hnode
    obtain ⟨other, hother, -, hcurly, hstart⟩ := hnodes node hnode (by rw [hkind]; decide)
    have hmem : other.token ∈ (returning type).moments.map Moment.token := List.mem_map_of_mem hother
    simp only [htokens, tokens_returning, List.mem_cons, List.mem_append, List.not_mem_nil,
      or_false] at hmem
    rw [hkind] at hcurly
    rw [← hstart]
    rcases hmem with htoken | hheader | htoken | htoken
    · rw [htoken] at hcurly
      cases hcurly
    · exact absurd hcurly ((nests_returningHeader type).2 _ hheader).1
    · rw [htoken]
    · rw [htoken] at hcurly
      cases hcurly
  rw [map_start_closures hstart, hcount]
  cases hglued : type.glued with
  | false => rw [if_pos (hopens.mpr hglued)]; rfl
  | true =>
      have hbody : ¬ moment.opensBody (returning type).lineOfByte = true := by
        rw [hopens, hglued]
        decide
      rw [if_neg hbody]
      rfl

def nestedGeneric : TypeSyntax :=
  .generic ⟨['A'], .word (.inl rfl) rfl, by decide, by decide, by decide⟩
    (.generic ⟨['B'], .word (.inl rfl) rfl, by decide, by decide, by decide⟩
      (.name ⟨['C'], .word (.inl rfl) rfl, by decide, by decide, by decide⟩))

/-- The two signs at the end of `A<B<C>>` are one operator, so the body is a closure. -/
theorem closures_nestedGeneric :
    (returning nestedGeneric).chars = "func f() -> A<B<C>> \x7b \x7d".toList ∧
      (Node.closures ((returning nestedGeneric).structureOf
        (returning nestedGeneric).tokens)).map Node.start = [20] := by
  decide +kernel

end CaptureLint.Source
