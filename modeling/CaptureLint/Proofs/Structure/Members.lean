import CaptureLint.Proofs.Structure.Braces
import CaptureLint.Proofs.Structure.Transparency
import CaptureLint.Proofs.Token.Renaming

/-!
# Names of members

A run keeps the tokens that it has read, and its brackets look back at them.  Two runs over tokens
that differ in the name of one member stay in step until something looks at that name.  This can be
the brace right after the name, a bracket that looks for its callee, or the scan for the end of a
closure's signature.  None of these asks whether the name is the name of a member.
-/

namespace CaptureLint.Structure

open CaptureLint.Bracket

variable {lineOf : Nat → Nat} {name other token : Token} {past prior ahead later : List Token}
  {builder : Builder}

/-! ## Tokens that are names -/

theorem isSymbol_of_isName (h : token.kind.isName = true) (sign : String) :
    token.isSymbol sign = false := by
  rw [Token.isSymbol]
  cases hkind : token.kind <;> rw [hkind] at h <;> first | rfl | cases h

theorem isPunctuation_of_isName (h : token.kind.isName = true) (sign : String) :
    token.isPunctuation sign = false := by
  rw [Token.isPunctuation]
  cases hkind : token.kind <;> rw [hkind] at h <;> first | rfl | cases h

theorem isSymbol_of_isPunctuation {sign : String} (h : token.isPunctuation sign = true) :
    token.isSymbol sign = true := by
  rw [Token.isPunctuation, Bool.and_eq_true, beq_iff_eq] at h
  rw [Token.isSymbol, h.1, h.2]
  rfl

theorem not_isBracket_of_isName (h : token.kind.isName = true) : isBracket token = false := by
  rw [Bool.eq_false_iff]
  intro hbracket
  rw [kind_of_isBracket hbracket] at h
  cases h

theorem opened?_of_isName (h : token.kind.isName = true) :
    opened? token = none ∧ closed? token = none :=
  isBracket_eq_false_iff.mp (not_isBracket_of_isName h)

/-- An ordinary identifier that takes the place of a name. -/
structure Replaces (name other : Token) : Prop where
  named : name.kind.isName = true
  identifier : other.kind = .identifier
  unopened : other.isAmong Keyword.bodyOpeners = false
  start : other.start = name.start
  stop : other.stop = name.stop

theorem Replaces.named' (h : Replaces name other) : other.kind.isName = true := by
  rw [h.identifier]
  rfl

theorem Replaces.chained (h : Replaces name other) : isChainName other = true := by
  rw [isChainName, h.identifier]

/-! ## Brackets that look back -/

/-- What can stand between a name and the arguments of a call that it belongs to, newest first:
suffixes and further members. -/
inductive GoesOn (name : Token) : List Token → Prop where
  | nil : GoesOn name []
  | suffix {sign : Token} {past : List Token} (hsign : isSuffix sign (past ++ [name]) = true)
      (h : GoesOn name past) : GoesOn name (sign :: past)
  | member {next dot : Token} {past : List Token} (hnext : isChainName next = true)
      (hdot : dot.isSymbol "." = true) (h : GoesOn name past) : GoesOn name (next :: dot :: past)

/-- A bracket asks how a name is spelled, where `past` stands between them, newest first. -/
def Reads (name : Token) (past : List Token) (bracket : Token) : Prop :=
  opened? bracket = some .curly ∧ past = [] ∧ (IsBodyWord name ∨ ForcesExpression name) ∨
  isChainName name = false ∧
    (opened? bracket = some .round ∧ GoesOn name past ∨
      opened? bracket = some .square ∧ past = [])

namespace Replaces

theorem isSuffix_append (h : Replaces name other) (sign : Token) (past : List Token) :
    isSuffix sign (past ++ other :: prior) = isSuffix sign (past ++ name :: prior) := by
  cases past with
  | nil => simp [isSuffix, h.stop]
  | cons => rfl

/-- The callee is found in the same way, unless the walk back reaches the name and asks whether it
can be called. -/
theorem calleeFrom_append (h : Replaces name other) : (start : Option Nat) → (past : List Token) →
    (isChainName name = false → ¬ GoesOn name past) →
      calleeFrom start (past ++ other :: prior) = calleeFrom start (past ++ name :: prior)
  | start, [], hunread => by
      have hname : isChainName name = true := by
        rw [← Bool.not_eq_false]
        exact fun hchain => hunread hchain .nil
      cases prior <;> simp [calleeFrom, hname, h.chained, h.start]
  | start, [token], hunread => by
      have hsign : isSuffix token (other :: prior) = isSuffix token (name :: prior) :=
        h.isSuffix_append token []
      simp only [List.singleton_append, calleeFrom, hsign, isSymbol_of_isName h.named,
        isSymbol_of_isName h.named', Bool.false_eq_true, if_false]
      split
      · rfl
      · split
        · rename_i hsuffix
          refine h.calleeFrom_append (some token.start) [] fun hchain hpast => ?_
          exact hunread hchain (.suffix hsuffix hpast)
        · rfl
  | start, token :: next :: past, hunread => by
      have hsign : isSuffix token (next :: past ++ other :: prior) =
          isSuffix token (next :: past ++ name :: prior) := h.isSuffix_append token (next :: past)
      simp only [List.cons_append, calleeFrom] at hsign ⊢
      rw [hsign]
      split
      · rename_i hchain
        split
        · rename_i hdot
          refine h.calleeFrom_append (some next.start) past fun hname hpast => ?_
          exact hunread hname (.member hchain hdot hpast)
        · rfl
      · split
        · rename_i hsuffix
          refine h.calleeFrom_append (some token.start) (next :: past) fun hchain hpast => ?_
          exact hunread hchain (.suffix hsuffix hpast)
        · rfl

theorem followsCallee_append (h : Replaces name other) (past : List Token) (start : Nat)
    (hunread : isChainName name = false → past ≠ []) :
    followsCallee (past ++ other :: prior) start = followsCallee (past ++ name :: prior) start := by
  cases past with
  | nil =>
      have hname : isChainName name = true := by
        rw [← Bool.not_eq_false]
        exact fun hchain => hunread hchain rfl
      simp [followsCallee, hname, h.chained]
  | cons token past =>
      rw [List.cons_append, List.cons_append, followsCallee, followsCallee, h.isSuffix_append]

theorem opensBody_append (h : Replaces name other) (pending : Pending) (past : List Token)
    (start : Nat) (hunread : past = [] → ¬ IsBodyWord name ∧ ¬ ForcesExpression name) :
    Builder.opensBody lineOf pending (past ++ other :: prior) start =
      Builder.opensBody lineOf pending (past ++ name :: prior) start := by
  cases past with
  | cons => rfl
  | nil =>
      obtain ⟨hword, hforces⟩ := hunread rfl
      have hnameWord : (name.kind.isName && name.isAmong Keyword.bodyOpeners) = false := by
        rw [Bool.eq_false_iff, ne_eq, Bool.and_eq_true, Token.isAmong, List.contains_iff_mem]
        exact hword
      have hotherForces : Builder.forcesClosure other = false := by
        rw [Builder.forcesClosure, h.identifier]
      rw [← Builder.forcesClosure_iff, Bool.not_eq_true] at hforces
      simp only [List.nil_append, Builder.opensBody, hnameWord, hforces, hotherForces, h.unopened,
        Bool.and_false]

theorem stop_append (h : Replaces name other) (past : List Token) :
    lastStopOf (past ++ other :: prior) = lastStopOf (past ++ name :: prior) := by
  cases past with
  | nil => exact h.stop
  | cons => rfl

theorem pendingAfter_append (h : Replaces name other) (pending : Pending) (past : List Token)
    (token : Token) (after : List Token) :
    Builder.pendingAfter lineOf pending (past ++ other :: prior) token after =
      Builder.pendingAfter lineOf pending (past ++ name :: prior) token after := by
  have hmember : Builder.isMember (past ++ other :: prior) after =
      Builder.isMember (past ++ name :: prior) after := by
    cases past with
    | nil =>
        simp [Builder.isMember, isSymbol_of_isName h.named, isSymbol_of_isName h.named']
    | cons => rfl
  unfold Builder.pendingAfter
  rw [hmember]

/-! ## Steps after the name -/

theorem lastStop_append (h : Replaces name other)
    (hbefore : builder.before = past ++ name :: prior) :
    Builder.lastStop { builder with before := past ++ other :: prior } = builder.lastStop := by
  show lastStopOf (past ++ other :: prior) = lastStopOf builder.before
  rw [hbefore]
  exact h.stop_append past

theorem openRound_append (h : Replaces name other)
    (hbefore : builder.before = past ++ name :: prior)
    (start : Nat) (hunread : isChainName name = false → ¬ GoesOn name past) :
    Builder.openRound { builder with before := past ++ other :: prior } start =
      { Builder.openRound builder start with before := past ++ other :: prior } := by
  have hsame : callee? (past ++ other :: prior) = callee? builder.before := by
    rw [hbefore]
    exact h.calleeFrom_append none past hunread
  dsimp only [Builder.openRound]
  rw [hsame]
  repeat' split
  all_goals rfl

theorem openSquare_append (h : Replaces name other)
    (hbefore : builder.before = past ++ name :: prior)
    (start : Nat) (after : List Token) (hunread : isChainName name = false → past ≠ []) :
    Builder.openSquare { builder with before := past ++ other :: prior } start after =
      { Builder.openSquare builder start after with before := past ++ other :: prior } := by
  have hsame : followsCallee (past ++ other :: prior) start =
      followsCallee builder.before start := by
    rw [hbefore]
    exact h.followsCallee_append past start hunread
  dsimp only [Builder.openSquare]
  rw [hsame]
  rfl

theorem openCurly_append (h : Replaces name other) (lineOf : Nat → Nat)
    (hbefore : builder.before = past ++ name :: prior) (start : Nat) (after : List Token)
    (hunread : past = [] → ¬ IsBodyWord name ∧ ¬ ForcesExpression name) :
    Builder.openCurly lineOf { builder with before := past ++ other :: prior } start after =
      { Builder.openCurly lineOf builder start after with before := past ++ other :: prior } := by
  have hsame : Builder.opensBody lineOf builder.level.pending (past ++ other :: prior) start =
      Builder.opensBody lineOf builder.level.pending builder.before start := by
    rw [hbefore]
    exact h.opensBody_append _ past start hunread
  dsimp only [Builder.openCurly]
  rw [hsame]
  split <;> rfl

theorem act_append (h : Replaces name other) (lineOf : Nat → Nat)
    (hbefore : builder.before = past ++ name :: prior)
    (token : Token) (after : List Token) (hunread : ¬ Reads name past token) :
    Builder.act lineOf { builder with before := past ++ other :: prior } token after =
      { Builder.act lineOf builder token after with before := past ++ other :: prior } := by
  simp only [Reads, not_or, not_and] at hunread
  obtain ⟨hbrace, hcallee⟩ := hunread
  rcases Builder.bracket_cases token with ⟨bracket, hopened⟩ | ⟨bracket, hclosed⟩ | hplain
  · unfold Builder.act
    rw [hopened]
    cases bracket with
    | round => exact h.openRound_append hbefore _ fun hchain => (hcallee hchain).1 hopened
    | square => exact h.openSquare_append hbefore _ after fun hchain => (hcallee hchain).2 hopened
    | curly => exact h.openCurly_append lineOf hbefore _ after (hbrace hopened)
  · rw [Builder.act_of_closed hclosed, Builder.act_of_closed hclosed, h.lastStop_append hbefore]
  · rw [isBracket_eq_false_iff] at hplain
    unfold Builder.act
    rw [hplain.1, hplain.2]
    dsimp only
    rw [hbefore, h.pendingAfter_append]

theorem step_append (h : Replaces name other) (lineOf : Nat → Nat)
    (hbefore : builder.before = past ++ name :: prior)
    (token : Token) (after : List Token) (hunread : ¬ Reads name past token) :
    Builder.step lineOf { builder with before := past ++ other :: prior } token after =
      { Builder.step lineOf builder token after with
        before := token :: past ++ other :: prior } := by
  have hact := h.act_append lineOf hbefore token after hunread
  unfold Builder.step
  cases hcaptures : builder.captures with
  | zero =>
      rw [hcaptures] at hact
      dsimp only
      rw [hact]
      rfl
  | succ captures => rfl

/-- A run that never reads the name is the same after both. -/
theorem run_append (h : Replaces name other) (lineOf : Nat → Nat)
    (hbefore : builder.before = past ++ name :: prior)
    (hunread : ∀ between bracket after, later = between ++ bracket :: after →
      ¬ Reads name (between.reverse ++ past) bracket) :
    Builder.run lineOf { builder with before := past ++ other :: prior } later =
      { Builder.run lineOf builder later with
        before := later.reverse ++ past ++ other :: prior } := by
  induction later generalizing builder past with
  | nil => rfl
  | cons token after ih =>
      have hstep := h.step_append lineOf hbefore token after
        (hunread [] token after rfl)
      have hnext : (builder.step lineOf token after).before = token :: past ++ name :: prior := by
        rw [List.cons_append, ← hbefore]
        rfl
      rw [Builder.run, Builder.run, hstep, ih hnext]
      · simp
      · intro between bracket after' hsplit
        have hread := hunread (token :: between) bracket after' (by rw [hsplit]; rfl)
        simpa using hread

theorem result_append (h : Replaces name other) (hbefore : builder.before = past ++ name :: prior) :
    Builder.result { builder with before := past ++ other :: prior } = builder.result := by
  rw [Builder.result, h.lastStop_append hbefore]
  rfl

/-! ## Scans that reach the name -/

theorem hasColon_append (h : Replaces name other) (depth : Nat) (ahead : List Token) :
    hasColon depth (ahead ++ other :: later) = hasColon depth (ahead ++ name :: later) := by
  induction ahead generalizing depth with
  | nil =>
      have hskip : ∀ {token : Token}, token.kind.isName = true →
          hasColon depth (token :: later) = hasColon depth later := by
        intro token htoken
        simp [hasColon, opened?_of_isName htoken, isPunctuation_of_isName htoken]
      rw [List.nil_append, List.nil_append, hskip h.named, hskip h.named']
  | cons token ahead ih =>
      simp only [List.cons_append, hasColon]
      cases depth <;> simp only [ih]

theorem squareGroupLength?_append (h : Replaces name other) (depth : Nat) (ahead : List Token) :
    squareGroupLength? depth (ahead ++ other :: later) =
      squareGroupLength? depth (ahead ++ name :: later) := by
  induction ahead generalizing depth with
  | nil =>
      have hskip : ∀ {token : Token}, token.kind.isName = true →
          squareGroupLength? depth (token :: later) =
            (squareGroupLength? depth later).map (· + 1) := by
        intro token htoken
        simp [squareGroupLength?, isPunctuation_of_isName htoken]
      rw [List.nil_append, List.nil_append, hskip h.named, hskip h.named']
  | cons token ahead ih => simp only [List.cons_append, squareGroupLength?, ih]

theorem inFollows_append (h : Replaces name other) (depth : Nat) (ahead : List Token)
    (hunread : name.isKeyword "in" = false ∨ ahead.any isBrace = true) :
    inFollows depth (ahead ++ other :: later) = inFollows depth (ahead ++ name :: later) := by
  induction ahead generalizing depth with
  | nil =>
      have hskip : ∀ {token : Token}, token.kind.isName = true → token.isKeyword "in" = false →
          inFollows depth (token :: later) = inFollows depth later := by
        intro token htoken hin
        simp [inFollows, isPunctuation_of_isName htoken, hin]
      have hother : other.isKeyword "in" = false := by
        rw [Token.isKeyword, h.identifier]
        rfl
      rw [List.nil_append, List.nil_append, hskip h.named (hunread.resolve_right (by simp)),
        hskip h.named' hother]
  | cons token ahead ih =>
      by_cases hbrace : isBrace token = true
      · have hstop : ∀ after, inFollows depth (token :: after) = false := by
          intro after
          rw [isBrace, Bool.or_eq_true] at hbrace
          rcases hbrace with hbrace | hbrace <;>
            simp only [Token.isPunctuation, Token.spells, Bool.and_eq_true, beq_iff_eq] at hbrace <;>
            simp [inFollows, Token.isKeyword, Token.isPunctuation, Token.spells, hbrace.1, hbrace.2]
        rw [List.cons_append, List.cons_append, hstop, hstop]
      · have hrest : name.isKeyword "in" = false ∨ ahead.any isBrace = true := by
          simpa [hbrace] using hunread
        simp only [List.cons_append, inFollows]
        cases depth <;> simp only [ih _ hrest]

theorem captureListLength?_append (h : Replaces name other) (ahead : List Token)
    (hunread : name.isKeyword "in" = false ∨ ∀ square inside, ahead = square :: inside →
      square.isSymbol "[" = true → inside.any isBrace = true) :
    captureListLength? (ahead ++ other :: later) = captureListLength? (ahead ++ name :: later) := by
  cases ahead with
  | nil =>
      rw [List.nil_append, List.nil_append, captureListLength?_cons, captureListLength?_cons,
        isSymbol_of_isName h.named, isSymbol_of_isName h.named']
      rfl
  | cons square inside =>
      rw [List.cons_append, List.cons_append, captureListLength?_cons, captureListLength?_cons,
        ← List.cons_append, ← List.cons_append, h.squareGroupLength?_append]
      split
      · rename_i hsquare
        cases hgroup : squareGroupLength? 0 (square :: inside ++ name :: later) with
        | none => rfl
        | some length =>
            have hsame : inFollows 0 ((square :: inside ++ other :: later).drop length) =
                inFollows 0 ((square :: inside ++ name :: later).drop length) := by
              by_cases hle : length ≤ (square :: inside).length
              · -- no brace lies in the group, so the one that ends the scan stands behind it
                have hgroup := not_isBrace_of_squareGroupLength? hgroup
                rw [List.take_append_of_le_length hle] at hgroup
                rw [List.drop_append_of_le_length hle, List.drop_append_of_le_length hle]
                refine h.inFollows_append 0 _ (hunread.imp_right fun hunread => ?_)
                have hbrace : (square :: inside).any isBrace = true := by
                  rw [List.any_cons, hunread square inside rfl hsquare, Bool.or_true]
                rw [← List.take_append_drop length (square :: inside), List.any_append,
                  List.any_eq_false.mpr fun token htoken => by simp [hgroup token htoken],
                  Bool.false_or] at hbrace
                exact hbrace
              · obtain ⟨behind, rfl⟩ : ∃ behind, length = (square :: inside).length + (behind + 1) :=
                  ⟨length - (square :: inside).length - 1, by omega⟩
                rw [List.drop_length_add_append, List.drop_length_add_append]
                rfl
            rw [Option.bind_some, Option.bind_some, hsame]
      · rfl

end Replaces

/-! ## Runs over the name -/

/-- The tokens can end in the head of a closure: no brace stands after one that a `[` follows. -/
def InHead (tokens : List Token) : Prop :=
  ∃ front brace square inside, tokens = front ++ brace :: square :: inside ∧
    opened? brace = some .curly ∧ square.isSymbol "[" = true ∧ inside.any isBrace = false

theorem InHead.cons {tokens : List Token} (h : InHead tokens) (token : Token) :
    InHead (token :: tokens) := by
  obtain ⟨front, brace, square, inside, rfl, hbrace⟩ := h
  exact ⟨token :: front, brace, square, inside, rfl, hbrace⟩

/-- How the name of a member is spelled matters between these tokens: as the `in` of a signature, or
for a bracket after it. -/
def Consulted (earlier : List Token) (name : Token) (later : List Token) : Prop :=
  name.isKeyword "in" = true ∧ InHead earlier ∨
  ∃ between bracket after, later = between ++ bracket :: after ∧ Reads name between.reverse bracket

namespace Replaces

variable {earlier : List Token}

theorem pendingAfter_ahead (h : Replaces name other) (pending : Pending) (before : List Token)
    (token : Token) (ahead : List Token) :
    Builder.pendingAfter lineOf pending before token (ahead ++ other :: later) =
      Builder.pendingAfter lineOf pending before token (ahead ++ name :: later) := by
  have hmember : Builder.isMember before (ahead ++ other :: later) =
      Builder.isMember before (ahead ++ name :: later) := by
    cases ahead with
    | nil => simp [Builder.isMember, isSymbol_of_isName h.named, isSymbol_of_isName h.named']
    | cons => rfl
  unfold Builder.pendingAfter
  rw [hmember]

theorem act_ahead (h : Replaces name other) (builder : Builder) (token : Token) (ahead : List Token)
    (hunread : opened? token = some .curly →
      captureListLength? (ahead ++ other :: later) = captureListLength? (ahead ++ name :: later)) :
    builder.act lineOf token (ahead ++ other :: later) =
      builder.act lineOf token (ahead ++ name :: later) := by
  unfold Builder.act
  cases hopened : opened? token with
  | none =>
      cases closed? token with
      | some bracket => rfl
      | none =>
          dsimp only
          rw [h.pendingAfter_ahead]
  | some bracket =>
      cases bracket with
      | round => rfl
      | square => simp only [Builder.openSquare, h.hasColon_append]
      | curly => simp only [Builder.openCurly, hunread hopened]

theorem run_ahead (h : Replaces name other) (lineOf : Nat → Nat) (builder : Builder)
    (later : List Token)
    (hunread : name.isKeyword "in" = true → ¬ InHead earlier) :
    ∃ reached : Builder, reached.before = earlier.reverse ++ builder.before ∧
      builder.run lineOf (earlier ++ name :: later) = reached.run lineOf (name :: later) ∧
      builder.run lineOf (earlier ++ other :: later) = reached.run lineOf (other :: later) := by
  induction earlier generalizing builder with
  | nil => exact ⟨builder, rfl, rfl, rfl⟩
  | cons token earlier ih =>
      have hhead : opened? token = some .curly → name.isKeyword "in" = false ∨
          ∀ square inside, earlier = square :: inside → square.isSymbol "[" = true →
            inside.any isBrace = true := by
        intro hopened
        cases hin : name.isKeyword "in" with
        | false => exact .inl rfl
        | true =>
            refine .inr fun square inside hsplit hsquare => ?_
            rw [← Bool.not_eq_false]
            intro hinside
            refine hunread hin ⟨[], token, square, inside, ?_, hopened, hsquare, hinside⟩
            rw [hsplit, List.nil_append]
      have hact : builder.act lineOf token (earlier ++ other :: later) =
          builder.act lineOf token (earlier ++ name :: later) :=
        h.act_ahead builder token earlier fun hopened =>
          h.captureListLength?_append earlier (hhead hopened)
      have hstep : builder.step lineOf token (earlier ++ other :: later) =
          builder.step lineOf token (earlier ++ name :: later) := by
        unfold Builder.step
        rw [hact]
      obtain ⟨reached, hbefore, hname, hother⟩ :=
        ih (builder.step lineOf token (earlier ++ name :: later)) fun hin hinside =>
          hunread hin (hinside.cons token)
      refine ⟨reached, ?_, hname, ?_⟩
      · rw [hbefore]
        simp [Builder.step]
      · rw [List.cons_append, Builder.run, hstep]
        exact hother

theorem act_member (hname : token.kind.isName = true)
    (hdot : ∃ dot ∈ builder.before.head?, dot.isSymbol "." = true) (after : List Token) :
    builder.act lineOf token after = builder := by
  have hmember : Builder.isMember builder.before after = true := by
    obtain ⟨dot, hdot, hsign⟩ := hdot
    rw [Builder.isMember, Option.mem_def.mp hdot, Option.any_some, hsign, Bool.true_or]
  have hpending : Builder.pendingAfter lineOf builder.level.pending builder.before token after =
      builder.level.pending := by
    unfold Builder.pendingAfter
    rw [hmember, isPunctuation_of_isName hname, isSymbol_of_isName hname]
    simp only [Bool.not_true, Bool.and_false, Bool.false_and, Bool.false_eq_true, if_false]
    split <;> rfl
  unfold Builder.act
  rw [(opened?_of_isName hname).1, (opened?_of_isName hname).2]
  dsimp only
  rw [hpending]

theorem step_name (h : Replaces name other)
    (hdot : ∃ dot ∈ builder.before.head?, dot.isSymbol "." = true) :
    builder.step lineOf other later =
      { builder.step lineOf name later with before := other :: builder.before } := by
  unfold Builder.step
  cases builder.captures with
  | zero =>
      dsimp only
      rw [act_member h.named hdot, act_member h.named' hdot]
  | succ captures => rfl

/-- The forest does not depend on the name of a member where it is not consulted. -/
theorem result_run (h : Replaces name other)
    (hdot : ∃ dot ∈ earlier.getLast?, dot.isSymbol "." = true)
    (hunread : ¬ Consulted earlier name later) :
    (Builder.initial.run lineOf (earlier ++ other :: later)).result =
      (Builder.initial.run lineOf (earlier ++ name :: later)).result := by
  rw [Consulted, not_or, not_and] at hunread
  obtain ⟨hhead, hbrackets⟩ := hunread
  obtain ⟨reached, hbefore, hname, hother⟩ :=
    h.run_ahead lineOf Builder.initial later hhead
  have hdot : ∃ dot ∈ reached.before.head?, dot.isSymbol "." = true := by
    rw [hbefore]
    simpa [Builder.initial] using hdot
  have hnext : (reached.step lineOf name later).before = [] ++ name :: reached.before := rfl
  have hrun := h.run_append lineOf hnext
    (fun between bracket after hsplit hreads =>
      hbrackets ⟨between, bracket, after, hsplit, by simpa using hreads⟩)
  have hend : ((reached.step lineOf name later).run lineOf later).before =
      later.reverse ++ [] ++ name :: reached.before := by
    rw [Builder.before_run, hnext, List.append_nil, List.nil_append]
  rw [hname, hother, Builder.run, Builder.run, h.step_name hdot]
  exact (congrArg Builder.result hrun).trans (h.result_append hend)

end Replaces

end CaptureLint.Structure

namespace CaptureLint.Source

open Token Structure CaptureLint.Bracket

variable {source : Source} {left right name other : List Char} {earlier later : List Token}
  {token : Token}

/-! ## Renaming in a source -/

theorem newline_not_mem_of_isWord (h : IsWord name) : '\n' ∉ name := by
  obtain ⟨c, rest, rfl, hc, hrest⟩ := h
  intro hmem
  rcases List.mem_cons.mp hmem with rfl | hmem
  · exact absurd hc (by decide)
  · exact absurd (List.all_eq_true.mp hrest _ hmem) (by decide)

/-- A number never stands right before the name of a member. -/
theorem not_number_of_member {all : List Token}
    (hdot : ∃ dot ∈ (all.filter (!·.kind.isTrivia)).getLast?, dot.isPunctuation "." = true) :
    ∀ last ∈ all.getLast?, last.kind ≠ .number := by
  intro last hlast hnumber
  obtain ⟨dot, hdot, hsign⟩ := hdot
  obtain ⟨front, rfl⟩ := List.getLast?_eq_some_iff.mp hlast
  have hcode : [last].filter (!·.kind.isTrivia) = [last] :=
    List.filter_cons_of_pos (by rw [hnumber]; rfl)
  rw [List.filter_append, hcode, List.getLast?_concat] at hdot
  obtain rfl := Option.some.inj hdot
  rw [Token.isPunctuation, hnumber] at hsign
  cases hsign

theorem lineOfByte_renamed (hchars : source.chars = left ++ (name ++ right)) (hname : IsWord name)
    (hother : IsWord other) (hbytes : bytesOf other = bytesOf name) :
    Source.lineOfByte { source with chars := left ++ (other ++ right) } = source.lineOfByte := by
  funext byte
  rw [lineOfByte, lineOfByte, hchars, newlinesBefore_append_congr left]
  exact newlinesBefore_exchange (newline_not_mem_of_isWord hname) (newline_not_mem_of_isWord hother)
    hbytes right

theorem filter_tokens_renamed (hchars : source.chars = left ++ (token.text ++ right))
    (htokens : source.tokens.filter (!·.kind.isTrivia) = earlier ++ token :: later)
    (hdot : ∃ dot ∈ earlier.getLast?, dot.isPunctuation "." = true)
    (hstart : token.start = bytesOf left) (hkind : token.kind.isName = true)
    (hname : IsWord token.text) (hother : IsWord other)
    (hreserved : Keyword.isReserved other = false)
    (hbytes : bytesOf other = bytesOf token.text) :
    (Source.tokens { source with chars := left ++ (other ++ right) }).filter (!·.kind.isTrivia) =
      earlier ++ ⟨.identifier, token.start, other⟩ :: later := by
  obtain ⟨front, back, hsplit, hfront, hback⟩ := List.filter_eq_append_iff.mp htokens
  obtain ⟨trivia, behind, rfl, htrivia, -, hbehind⟩ := List.filter_eq_cons_iff.mp hback
  have hfirst : (front ++ trivia).filter (!·.kind.isTrivia) = earlier := by
    rw [List.filter_append, hfront, List.filter_eq_nil_iff.mpr htrivia, List.append_nil]
  have hall : source.tokens = front ++ trivia ++ token :: behind := by
    rw [hsplit, List.append_assoc]
  have hnumber := not_number_of_member (hfirst ▸ hdot)
  rw [tokens_renamed hchars hall hstart hkind rfl hname hnumber hother hbytes, hreserved,
    List.filter_append, hfirst]
  exact congrArg (earlier ++ ⟨.identifier, token.start, other⟩ :: ·) hbehind

/-- The name of a member does not matter for the structure where it is not consulted: an identifier
of the same length, which is not reserved and opens no body, can take its place. -/
theorem structureOf_renamed (hchars : source.chars = left ++ (token.text ++ right))
    (htokens : source.tokens.filter (!·.kind.isTrivia) = earlier ++ token :: later)
    (hdot : ∃ dot ∈ earlier.getLast?, dot.isPunctuation "." = true)
    (hstart : token.start = bytesOf left) (hkind : token.kind.isName = true)
    (hword : ∀ c ∈ token.text.head?, isNameStart c = true)
    (hother : IsWord other) (hreserved : Keyword.isReserved other = false)
    (hopener : String.ofList other ∉ Keyword.bodyOpeners)
    (hbytes : bytesOf other = bytesOf token.text)
    (hunread : ¬ Consulted earlier token later) :
    let renamed : Source := { source with chars := left ++ (other ++ right) }
    renamed.tokens.filter (!·.kind.isTrivia) =
        earlier ++ ⟨.identifier, token.start, other⟩ :: later ∧
      renamed.structureOf renamed.tokens = source.structureOf source.tokens := by
  intro renamed
  have hmem : token ∈ source.tokens.filter (!·.kind.isTrivia) := by
    rw [htokens]
    exact List.mem_append_right _ List.mem_cons_self
  have hname : IsWord token.text :=
    (spellsName_of_mem_tokens (List.mem_filter.mp hmem).1 hkind).isWord hword
  have hfilter : renamed.tokens.filter (!·.kind.isTrivia) =
      earlier ++ ⟨.identifier, token.start, other⟩ :: later :=
    filter_tokens_renamed hchars htokens hdot hstart hkind hname hother hreserved hbytes
  refine ⟨hfilter, ?_⟩
  have hlines : renamed.lineOfByte = source.lineOfByte :=
    lineOfByte_renamed hchars hname hother hbytes
  have hreplaces : Replaces token ⟨.identifier, token.start, other⟩ :=
    { named := hkind
      identifier := rfl
      unopened := by
        rw [Token.isAmong, Bool.eq_false_iff, ne_eq, List.contains_iff_mem]
        exact hopener
      start := rfl
      stop := by rw [Token.stop_eq, Token.stop_eq, hbytes] }
  have hsymbol : ∃ dot ∈ earlier.getLast?, dot.isSymbol "." = true :=
    hdot.imp fun _ hdot => hdot.imp_right isSymbol_of_isPunctuation
  rw [structureOf, structureOf, ofTokens, ofTokens, hfilter, htokens, hlines]
  exact hreplaces.result_run hsymbol hunread

def headerMember : Source := ⟨none, "a.class \x7b \x7d".toList⟩

theorem structureOf_headerMember :
    (Source.mk none "a.other \x7b \x7d".toList).structureOf
        (Source.mk none "a.other \x7b \x7d".toList).tokens =
      headerMember.structureOf headerMember.tokens := by
  have htokens : headerMember.tokens.filter (!·.kind.isTrivia) =
      [⟨.identifier, 0, ['a']⟩, ⟨.punctuation, 1, ['.']⟩] ++ ⟨.keyword, 2, "class".toList⟩ ::
        [⟨.punctuation, 8, ['\x7b']⟩, ⟨.punctuation, 10, ['\x7d']⟩] := by decide +kernel
  have hother : IsWord "other".toList := ⟨'o', "ther".toList, rfl, by decide, by decide⟩
  have hword : ∀ c ∈ "class".toList.head?, isNameStart c = true := by
    rintro _ ⟨⟩
    decide
  refine (@structureOf_renamed headerMember "a.".toList " \x7b \x7d".toList "other".toList _ _ _ rfl
    htokens ⟨_, rfl, rfl⟩ rfl rfl hword hother (by decide) (by decide) rfl ?_).2
  rintro (⟨hin, -⟩ | ⟨between, bracket, after, hsplit, hbrace | ⟨-, hcallee⟩⟩)
  · exact absurd hin (by decide)
  · exact absurd hbrace.2.2 (by decide)
  · have hcurly : ∀ bracket ∈ [⟨.punctuation, 8, ['\x7b']⟩, ⟨.punctuation, 10, ['\x7d']⟩],
        opened? bracket ≠ some .round ∧ opened? bracket ≠ some .square := by decide
    obtain ⟨hround, hsquare⟩ := hcurly bracket (by rw [hsplit]; simp)
    exact hcallee.elim (fun h => hround h.1) fun h => hsquare h.1

def accessorMember : Source := ⟨none, "a.get \x7b \x7d".toList⟩

/-- Its trailing closure is lost, while that of another member is found. -/
theorem closures_accessorMember :
    (Node.closures (accessorMember.structureOf accessorMember.tokens)).map Node.start = [] ∧
      (Node.closures ((Source.mk none "a.abc \x7b \x7d".toList).structureOf
        (Source.mk none "a.abc \x7b \x7d".toList).tokens)).map Node.start = [6] := by
  decide +kernel

end CaptureLint.Source
