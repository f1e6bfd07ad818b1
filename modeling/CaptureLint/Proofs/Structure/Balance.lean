import CaptureLint.Proofs.Structure.Steps

/-!
# Balanced tokens

The builder looks ahead for a colon, a capture list and the base of a member.  When brackets nest
properly, the bracket it stands at is closed further on, and none of the scans goes past that place.
So balanced tokens are read in the same way whatever follows them, and leave no group open.
-/

namespace CaptureLint.Bracket

/-- Whether brackets are closed in the order in which they were opened, `stack` being open before. -/
def nests : List Bracket → List Token → Bool
  | stack, [] => stack.isEmpty
  | stack, token :: after =>
      match opened? token, closed? token with
      | some bracket, _ => nests (bracket :: stack) after
      | none, some bracket => stack.head? == some bracket && nests stack.tail after
      | none, none => nests stack after

variable {stack inner outer : List Bracket} {bracket : Bracket} {token : Token}
  {tokens after left right : List Token}

theorem nests_of_opened (h : opened? token = some bracket) :
    nests stack (token :: after) = nests (bracket :: stack) after := by
  rw [nests, h]

theorem nests_of_closed (h : closed? token = some bracket)
    (hnests : nests stack (token :: after) = true) :
    ∃ outer, stack = bracket :: outer ∧ nests outer after = true := by
  rw [nests, opened?_of_closed? h, h] at hnests
  simp only [Bool.and_eq_true, beq_iff_eq] at hnests
  cases stack with
  | nil => cases hnests.1
  | cons top outer => exact ⟨outer, by rw [Option.some.inj hnests.1], hnests.2⟩

theorem nests_of_plain (h : Structure.isBracket token = false) :
    nests stack (token :: after) = nests stack after := by
  rw [Structure.isBracket_eq_false_iff] at h
  rw [nests, h.1, h.2]

theorem nests_nil_of_plain (h : ∀ token ∈ tokens, Structure.isBracket token = false) :
    nests [] tokens = true := by
  induction tokens with
  | nil => rfl
  | cons token tokens ih =>
      obtain ⟨htoken, htokens⟩ := List.forall_mem_cons.mp h
      rw [nests_of_plain htoken]
      exact ih htokens

/-- Induction along balanced tokens. -/
theorem nests_induction {motive : ∀ stack tokens, nests stack tokens = true → Prop}
    (nil : motive [] [] rfl)
    (opened : ∀ stack token after bracket (hopened : opened? token = some bracket)
      (h : nests (bracket :: stack) after = true), motive (bracket :: stack) after h →
        motive stack (token :: after) ((nests_of_opened hopened).trans h))
    (closed : ∀ outer token after bracket (_ : closed? token = some bracket)
      (h : nests (bracket :: outer) (token :: after) = true) (hrest : nests outer after = true),
        motive outer after hrest → motive (bracket :: outer) (token :: after) h)
    (plain : ∀ stack token after (hplain : Structure.isBracket token = false)
      (h : nests stack after = true), motive stack after h →
        motive stack (token :: after) ((nests_of_plain hplain).trans h))
    (h : nests stack tokens = true) : motive stack tokens h := by
  induction tokens generalizing stack with
  | nil =>
      obtain rfl : stack = [] := by simpa [nests] using h
      exact nil
  | cons token after ih =>
      rcases Structure.Builder.bracket_cases token with
        ⟨bracket, hopened⟩ | ⟨bracket, hclosed⟩ | hplain
      · have hrest := (nests_of_opened hopened).symm.trans h
        exact opened stack token after bracket hopened hrest (ih hrest)
      · obtain ⟨outer, rfl, hrest⟩ := nests_of_closed hclosed h
        exact closed outer token after bracket hclosed h hrest (ih hrest)
      · have hrest := (nests_of_plain hplain).symm.trans h
        exact plain stack token after hplain hrest (ih hrest)

theorem exists_nests_right (h : nests stack (left ++ right) = true) :
    ∃ stack, nests stack right = true := by
  induction left generalizing stack with
  | nil => exact ⟨stack, h⟩
  | cons token left ih =>
      rcases Structure.Builder.bracket_cases token with
        ⟨bracket, hopened⟩ | ⟨bracket, hclosed⟩ | hplain
      · rw [List.cons_append, nests_of_opened hopened] at h
        exact ih h
      · obtain ⟨outer, -, hnests⟩ := nests_of_closed hclosed h
        exact ih hnests
      · rw [List.cons_append, nests_of_plain hplain] at h
        exact ih h

theorem nests_cons_of_closed (h : closed? token = some bracket) (hnests : nests outer after = true) :
    nests (bracket :: outer) (token :: after) = true := by
  rw [nests, opened?_of_closed? h, h]
  simpa using hnests

theorem nests_closer (h : closed? token = some bracket) : nests [bracket] [token] = true :=
  nests_cons_of_closed h rfl

theorem nests_append (h : nests inner left = true) :
    nests (inner ++ stack) (left ++ right) = nests stack right := by
  induction h using nests_induction with
  | nil => rfl
  | opened inner token after bracket hopened hnests ih =>
      rw [List.cons_append, nests_of_opened hopened]
      exact ih
  | closed outer token after bracket hclosed hall hnests ih =>
      rw [List.cons_append, List.cons_append, nests, opened?_of_closed? hclosed, hclosed]
      simpa using ih
  | plain inner token after hplain hnests ih =>
      rw [List.cons_append, nests_of_plain hplain]
      exact ih

theorem nests_pass (stack : List Bracket) (h : nests [] left = true) :
    nests stack (left ++ right) = nests stack right :=
  (nests_append h : nests ([] ++ stack) (left ++ right) = nests stack right)

theorem nests_drop {length : Nat} (htake : nests [] (tokens.take length) = true)
    (h : nests stack tokens = true) : nests stack (tokens.drop length) = true := by
  rw [← List.take_append_drop length tokens, nests_pass stack htake] at h
  exact h

/-- Tokens close the same brackets wherever they stand. -/
theorem exists_append_of_nests (hinner : nests inner left = true)
    (h : nests stack (left ++ right) = true) :
    ∃ outer, stack = inner ++ outer ∧ nests outer right = true := by
  induction hinner using nests_induction generalizing stack with
  | nil => exact ⟨stack, rfl, h⟩
  | opened inner token after bracket hopened hnests ih =>
      rw [List.cons_append, nests_of_opened hopened] at h
      obtain ⟨outer, hstack, hright⟩ := ih h
      exact ⟨outer, (List.cons.inj hstack).2, hright⟩
  | closed inner token after bracket hclosed hall hnests ih =>
      obtain ⟨stack, rfl, hafter⟩ := nests_of_closed hclosed h
      obtain ⟨outer, rfl, hright⟩ := ih hafter
      exact ⟨outer, rfl, hright⟩
  | plain inner token after hplain hnests ih =>
      rw [List.cons_append, nests_of_plain hplain] at h
      exact ih h

theorem exists_closed_of_mem (h : nests stack tokens = true) (hmem : bracket ∈ stack) :
    ∃ token ∈ tokens, closed? token = some bracket := by
  induction h using nests_induction with
  | nil => cases hmem
  | opened stack token after inner hopened hnests ih =>
      obtain ⟨other, hother, hclosed⟩ := ih (List.mem_cons_of_mem _ hmem)
      exact ⟨other, List.mem_cons_of_mem _ hother, hclosed⟩
  | closed outer token after inner hclosed hall hnests ih =>
      rcases List.mem_cons.mp hmem with rfl | hmem
      · exact ⟨token, List.mem_cons_self, hclosed⟩
      · obtain ⟨other, hother, hclosed⟩ := ih hmem
        exact ⟨other, List.mem_cons_of_mem _ hother, hclosed⟩
  | plain stack token after hplain hnests ih =>
      obtain ⟨other, hother, hclosed⟩ := ih hmem
      exact ⟨other, List.mem_cons_of_mem _ hother, hclosed⟩

theorem isPunctuation_iff_opened? {sign : String} (h : sign.toList = [opener bracket]) :
    token.isPunctuation sign = true ↔ opened? token = some bracket := by
  rw [opened?_eq_some_iff, Token.isPunctuation, Token.spells, h, Bool.and_eq_true, beq_iff_eq,
    beq_iff_eq]

theorem isPunctuation_iff_closed? {sign : String} (h : sign.toList = [closer bracket]) :
    token.isPunctuation sign = true ↔ closed? token = some bracket := by
  rw [closed?_eq_some_iff, Token.isPunctuation, Token.spells, h, Bool.and_eq_true, beq_iff_eq,
    beq_iff_eq]

theorem countP_round_le (h : nests stack tokens = true) :
    tokens.countP (·.isPunctuation "(") + stack.count .round ≤
      tokens.countP (·.isPunctuation ")") := by
  have hopen : ∀ {token : Token}, token.isPunctuation "(" = true ↔ opened? token = some .round :=
    isPunctuation_iff_opened? rfl
  have hclose : ∀ {token : Token}, token.isPunctuation ")" = true ↔ closed? token = some .round :=
    isPunctuation_iff_closed? rfl
  induction h using nests_induction with
  | nil => exact Nat.le_refl _
  | opened stack token after inner hopened hnests ih =>
      rw [List.countP_cons, List.countP_cons]
      simp only [hopen, hopened, List.count_cons, Option.some.injEq, beq_iff_eq] at ih ⊢
      omega
  | closed outer token after inner hclosed hall hnests ih =>
      rw [List.countP_cons, List.countP_cons]
      simp only [hopen, hclose, hclosed, opened?_of_closed? hclosed, List.count_cons,
        Option.some.injEq, beq_iff_eq, reduceCtorEq, if_false] at ih ⊢
      omega
  | plain stack token after hplain hnests ih =>
      rw [List.countP_cons, List.countP_cons]
      simp only [hopen] at ih ⊢
      have hnone : opened? token ≠ some .round := by
        intro hopened
        rw [Structure.isBracket_of_opened hopened] at hplain
        cases hplain
      rw [if_neg hnone]
      omega

/-- Tokens that are no code have no brackets, so the counts are those of all tokens. -/
theorem countP_round_le_of_split (h : nests [] (tokens.filter (!·.kind.isTrivia)) = true)
    (hsplit : tokens = left ++ right) :
    right.countP (·.isPunctuation "(") ≤ right.countP (·.isPunctuation ")") := by
  have hcode : ∀ sign, (right.filter (!·.kind.isTrivia)).countP (·.isPunctuation sign) =
      right.countP (·.isPunctuation sign) := by
    intro sign
    rw [List.countP_filter]
    refine List.countP_congr fun token _ => ?_
    rcases token with ⟨_ | _, start, text⟩ <;> simp [Token.isPunctuation, TokenKind.isTrivia]
  rw [hsplit, List.filter_append] at h
  obtain ⟨stack, hright⟩ := exists_nests_right h
  have hcount := countP_round_le hright
  rw [hcode, hcode] at hcount
  omega

end CaptureLint.Bracket

namespace CaptureLint.Structure

open CaptureLint.Bracket

variable {stack : List Bracket} {bracket : Bracket} {token : Token} {rest after : List Token}
  (later : List Token)

/-! ## Scans inside a bracket -/

theorem hasColon_append (depth : Nat) (h : nests stack rest = true) (hdepth : depth < stack.length) :
    hasColon depth (rest ++ later) = hasColon depth rest := by
  induction h using nests_induction generalizing depth with
  | nil => cases hdepth
  | opened stack token after inner hopened hnests ih =>
      rw [List.cons_append]
      unfold hasColon
      rw [hopened]
      exact ih _ (Nat.succ_lt_succ hdepth)
  | closed outer token after inner hclosed hall hnests ih =>
      rw [List.cons_append]
      unfold hasColon
      rw [opened?_of_closed? hclosed, hclosed]
      cases depth with
      | zero => rfl
      | succ depth => exact ih _ (Nat.lt_of_succ_lt_succ hdepth)
  | plain stack token after hplain hnests ih =>
      simp only [isBracket, Bool.or_eq_false_iff] at hplain
      rw [List.cons_append]
      unfold hasColon
      simp only [hplain.1, hplain.2, ih _ hdepth, Bool.false_eq_true, if_false]

/-- Neither scan for a capture list goes past a closing brace. -/
theorem squareGroupLength?_append (depth : Nat)
    (h : ∃ token ∈ rest, closed? token = some .curly) :
    squareGroupLength? depth (rest ++ later) = squareGroupLength? depth rest := by
  induction rest generalizing depth with
  | nil => simp at h
  | cons token after ih =>
      rw [List.cons_append, squareGroupLength?, squareGroupLength?]
      by_cases hstop : closed? token = some .curly
      · obtain ⟨hkind, htext⟩ := closed?_eq_some_iff.mp hstop
        simp [Token.isPunctuation, Token.spells, hkind, htext, closer]
      · have hafter : ∃ token ∈ after, closed? token = some .curly := by
          simpa [hstop] using h
        simp only [fun depth => ih depth hafter]

theorem inFollows_append (depth : Nat) (h : ∃ token ∈ rest, closed? token = some .curly) :
    inFollows depth (rest ++ later) = inFollows depth rest := by
  induction rest generalizing depth with
  | nil => simp at h
  | cons token after ih =>
      rw [List.cons_append]
      unfold inFollows
      by_cases hstop : closed? token = some .curly
      · obtain ⟨hkind, htext⟩ := closed?_eq_some_iff.mp hstop
        simp [Token.isPunctuation, Token.isKeyword, Token.spells, hkind, htext, closer]
      · have hafter : ∃ token ∈ after, closed? token = some .curly := by
          simpa [hstop] using h
        simp only [fun depth => ih depth hafter]

/-- The square brackets that a scan counts are closed by the `]` that it ends with. -/
theorem nests_take_squareGroup (inner : List Bracket) {depth length : Nat}
    (h : nests (inner ++ .square :: stack) rest = true) (hdepth : depth = inner.count .square + 1)
    (hlength : squareGroupLength? depth rest = some length) :
    length ≤ rest.length ∧ nests (inner ++ [.square]) (rest.take length) = true := by
  have hopen : ∀ {token : Token}, token.isPunctuation "[" = true ↔ opened? token = some .square :=
    isPunctuation_iff_opened? rfl
  have hclose : ∀ {token : Token}, token.isPunctuation "]" = true ↔ closed? token = some .square :=
    isPunctuation_iff_closed? rfl
  fun_induction squareGroupLength? depth rest generalizing inner length with
  | case1 => cases hlength
  | case2 depth token after hsquare ih =>
      obtain ⟨shorter, hshorter, rfl⟩ := Option.map_eq_some_iff.mp hlength
      have hopened := hopen.mp hsquare
      rw [nests_of_opened hopened] at h
      obtain ⟨hle, htake⟩ := ih (.square :: inner) h (by simp [hdepth]) hshorter
      exact ⟨Nat.succ_le_succ hle, by rw [List.take_succ_cons, nests_of_opened hopened]; exact htake⟩
  | case3 depth token after hsquare hclosed hone =>
      cases hlength
      obtain ⟨outer, hstack, -⟩ := nests_of_closed (hclose.mp hclosed) h
      cases inner with
      | nil => exact ⟨Nat.succ_le_succ (Nat.zero_le _), nests_closer (hclose.mp hclosed)⟩
      | cons bracket inner =>
          cases hstack
          rw [List.count_cons_self] at hdepth
          omega
  | case4 depth token after hsquare hclosed hmore ih =>
      obtain ⟨shorter, hshorter, rfl⟩ := Option.map_eq_some_iff.mp hlength
      obtain ⟨outer, hstack, hrest⟩ := nests_of_closed (hclose.mp hclosed) h
      cases inner with
      | nil =>
          rw [List.count_nil] at hdepth
          omega
      | cons bracket inner =>
          cases hstack
          rw [List.count_cons_self] at hdepth
          obtain ⟨hle, htake⟩ := ih inner hrest (by omega) hshorter
          exact ⟨Nat.succ_le_succ hle, nests_cons_of_closed (hclose.mp hclosed) htake⟩
  | case5 => cases hlength
  | case6 depth token after hsquare hclosed hcurly ih =>
      obtain ⟨shorter, hshorter, rfl⟩ := Option.map_eq_some_iff.mp hlength
      rcases Builder.bracket_cases token with ⟨bracket, hopened⟩ | ⟨bracket, hended⟩ | hplain
      · have hne : bracket ≠ .square := fun heq => hsquare (hopen.mpr (heq ▸ hopened))
        rw [nests_of_opened hopened] at h
        obtain ⟨hle, htake⟩ :=
          ih (bracket :: inner) h (by rw [List.count_cons_of_ne hne, hdepth]) hshorter
        exact ⟨Nat.succ_le_succ hle, by rw [List.take_succ_cons, nests_of_opened hopened]; exact htake⟩
      · have hne : bracket ≠ .square := fun heq => hclosed (hclose.mpr (heq ▸ hended))
        obtain ⟨outer, hstack, hrest⟩ := nests_of_closed hended h
        cases inner with
        | nil =>
            cases hstack
            exact absurd rfl hne
        | cons top inner =>
            cases hstack
            rw [List.count_cons_of_ne hne] at hdepth
            obtain ⟨hle, htake⟩ := ih inner hrest hdepth hshorter
            exact ⟨Nat.succ_le_succ hle, nests_cons_of_closed hended htake⟩
      · rw [nests_of_plain hplain] at h
        obtain ⟨hle, htake⟩ := ih inner h hdepth hshorter
        exact ⟨Nat.succ_le_succ hle, by rw [List.take_succ_cons, nests_of_plain hplain]; exact htake⟩

/-! ## Capture lists -/

def SquaresOpen (tokens : List Token) : Prop :=
  ∀ token ∈ tokens, token.isSymbol "[" = true → opened? token = some .square

theorem captureListLength?_cons (first : Token) (after : List Token) :
    captureListLength? (first :: after) =
      if first.isSymbol "[" then
        (squareGroupLength? 0 (first :: after)).bind fun length =>
          if inFollows 0 ((first :: after).drop length) then some length else none
      else none := rfl

theorem nests_take_group {first : Token} {length : Nat} (hsquares : SquaresOpen (first :: after))
    (h : nests stack (first :: after) = true) (hsymbol : first.isSymbol "[" = true)
    (hgroup : squareGroupLength? 0 (first :: after) = some length) :
    length ≤ (first :: after).length ∧ nests [] ((first :: after).take length) = true := by
  have hopened := hsquares first List.mem_cons_self hsymbol
  have hsquare : first.isPunctuation "[" = true := (isPunctuation_iff_opened? rfl).mpr hopened
  rw [squareGroupLength?, if_pos hsquare] at hgroup
  obtain ⟨shorter, hshorter, rfl⟩ := Option.map_eq_some_iff.mp hgroup
  rw [nests_of_opened hopened] at h
  obtain ⟨hle, htake⟩ := nests_take_squareGroup [] h rfl hshorter
  exact ⟨Nat.succ_le_succ hle, by rw [List.take_succ_cons, nests_of_opened hopened]; exact htake⟩

theorem nests_take_captures {length : Nat} (hsquares : SquaresOpen rest)
    (h : nests stack rest = true) (hlength : captureListLength? rest = some length) :
    length ≤ rest.length ∧ nests [] (rest.take length) = true := by
  cases rest with
  | nil => cases hlength
  | cons first after =>
      simp only [captureListLength?_cons, Option.ite_none_right_eq_some, Option.bind_eq_some_iff,
        Option.some.injEq] at hlength
      obtain ⟨hsymbol, length, hgroup, -, rfl⟩ := hlength
      exact nests_take_group hsquares h hsymbol hgroup

theorem captureListLength?_append (hsquares : SquaresOpen rest)
    (h : nests (.curly :: stack) rest = true) :
    captureListLength? (rest ++ later) = captureListLength? rest := by
  have hbrace := exists_closed_of_mem h List.mem_cons_self
  cases rest with
  | nil => simp at hbrace
  | cons first after =>
      have hgroup := squareGroupLength?_append later 0 hbrace
      rw [List.cons_append] at hgroup ⊢
      rw [captureListLength?_cons, captureListLength?_cons, hgroup]
      by_cases hsymbol : first.isSymbol "[" = true
      · cases hlength : squareGroupLength? 0 (first :: after) with
        | none => rfl
        | some length =>
            -- the closing brace follows the group
            obtain ⟨hle, htake⟩ := nests_take_group hsquares h hsymbol hlength
            have hbrace := exists_closed_of_mem (nests_drop htake h) List.mem_cons_self
            simp only [Option.bind_some, ← List.cons_append, List.drop_append_of_le_length hle,
              inFollows_append later 0 hbrace]
      · rw [if_neg hsymbol, if_neg hsymbol]

/-! ## Runs -/

namespace Builder

variable {lineOf : Nat → Nat} {builder : Builder}

/-- The tokens to be read close the open groups, once those of a capture list have been passed. -/
structure Balanced (builder : Builder) (rest : List Token) : Prop where
  captures_le : builder.captures ≤ rest.length
  nests : nests (builder.groups.map Group.bracket) (rest.drop builder.captures) = true

/-- An opening bracket sees only what stands before the bracket that closes it. -/
theorem act_append_of_opened (hopened : opened? token = some bracket)
    (hcaptures : builder.captures = 0) (hsquares : SquaresOpen after)
    (h : nests (bracket :: builder.groups.map Group.bracket) after = true) :
    builder.act lineOf token (after ++ later) = builder.act lineOf token after ∧
      Balanced (builder.act lineOf token after) after := by
  unfold act
  cases bracket with
  | round =>
      rw [hopened]
      obtain ⟨becomes, outer, inner, hround, -⟩ := openRound_begins false builder token after
      refine ⟨rfl, ?_⟩
      dsimp only
      rw [hround]
      exact ⟨by simp [openGroup, hcaptures], by simpa [openGroup, hcaptures] using h⟩
  | square =>
      rw [hopened]
      refine ⟨?_, ?_⟩
      · simp only [openSquare, hasColon_append later 0 h (Nat.succ_pos _)]
      · exact ⟨by simp [openSquare, openGroup, hcaptures],
          by simpa [openSquare, openGroup, hcaptures] using h⟩
  | curly =>
      rw [hopened]
      refine ⟨?_, ?_⟩
      · simp only [openCurly, captureListLength?_append later hsquares h]
      · dsimp only [openCurly]
        split
        · exact ⟨by simp [openGroup, hcaptures], by simpa [openGroup, hcaptures] using h⟩
        · cases hlength : captureListLength? after with
          | none => exact ⟨Nat.zero_le _, h⟩
          | some length =>
              obtain ⟨hle, htake⟩ := nests_take_captures hsquares h hlength
              exact ⟨hle, nests_drop htake h⟩

theorem isMember_append (before : List Token) (hlater : later.head?.any (·.isSymbol ".") = false) :
    isMember before (after ++ later) = isMember before after := by
  cases after with
  | nil => simp [isMember, hlater]
  | cons next after => rfl

/-- A token is read as if nothing followed the balanced tokens, and leaves them balanced. -/
theorem step_append (lineOf : Nat → Nat) (later : List Token)
    (hsquares : SquaresOpen (token :: after))
    (hlater : later.head?.any (·.isSymbol ".") = false) (h : Balanced builder (token :: after)) :
    builder.step lineOf token (after ++ later) = builder.step lineOf token after ∧
      Balanced (builder.step lineOf token after) after := by
  obtain ⟨hle, hnests⟩ := h
  unfold step
  cases hcaptures : builder.captures with
  | succ captures =>
      rw [hcaptures] at hle hnests
      exact ⟨rfl, Nat.le_of_succ_le_succ hle, hnests⟩
  | zero =>
      rw [hcaptures, List.drop_zero] at hnests
      have hafter : SquaresOpen after := fun other hother =>
        hsquares other (List.mem_cons_of_mem _ hother)
      have hact : builder.act lineOf token (after ++ later) = builder.act lineOf token after ∧
          Balanced (builder.act lineOf token after) after := by
        rcases bracket_cases token with ⟨bracket, hopened⟩ | ⟨bracket, hclosed⟩ | hplain
        · rw [nests_of_opened hopened] at hnests
          exact act_append_of_opened later hopened hcaptures hafter hnests
        · obtain ⟨outer, hstack, hrest⟩ := nests_of_closed hclosed hnests
          obtain ⟨group, groups, hgroups, rfl, rfl⟩ := List.map_eq_cons_iff.mp hstack
          rw [act_of_closed hclosed, act_of_closed hclosed]
          refine ⟨rfl, by simp [hcaptures], ?_⟩
          simpa [hcaptures, hgroups, closeGroups] using hrest
        · obtain ⟨pending, hpending⟩ := act_of_plain lineOf builder after hplain
          rw [nests_of_plain hplain] at hnests
          refine ⟨?_, ?_⟩
          · rw [isBracket_eq_false_iff] at hplain
            simp only [act, hplain.1, hplain.2, pendingAfter,
              isMember_append later builder.before hlater]
          · rw [hpending]
            exact ⟨by simp [hcaptures], by simpa [hcaptures] using hnests⟩
      exact ⟨by dsimp only; rw [hact.1], hact.2.captures_le, hact.2.nests⟩

theorem run_append (hsquares : SquaresOpen rest)
    (hlater : later.head?.any (·.isSymbol ".") = false) (h : Balanced builder rest) :
    builder.run lineOf (rest ++ later) = (builder.run lineOf rest).run lineOf later ∧
      Balanced (builder.run lineOf rest) [] := by
  induction rest generalizing builder with
  | nil => exact ⟨rfl, h⟩
  | cons token after ih =>
      obtain ⟨hstep, hbalanced⟩ := step_append lineOf later hsquares hlater h
      have hafter : SquaresOpen after := fun other hother =>
        hsquares other (List.mem_cons_of_mem _ hother)
      rw [List.cons_append, run, run, hstep]
      exact ih hafter hbalanced

theorem Balanced.settled (h : Balanced builder []) : builder.captures = 0 ∧ builder.groups = [] := by
  refine ⟨Nat.le_zero.mp h.captures_le, ?_⟩
  have hnests := h.nests
  rw [List.drop_nil, Bracket.nests, List.isEmpty_iff, List.map_eq_nil_iff] at hnests
  exact hnests

end Builder

end CaptureLint.Structure
