import CaptureLint.Proofs.Token.Ballot
import CaptureLint.Proofs.Token.Joining
import CaptureLint.Proofs.Token.Progress

/-!
# Code in interpolations

Inside an interpolation a text is read as it is anywhere else, up to the first bracket that closes
more than was opened in it.  So code whose round brackets match, and which leaves nothing open, has
the same tokens in an interpolation as alone, and a literal around it is such code again.
-/

namespace CaptureLint.Token

variable {opened outer : List Interpolation} {base : Interpolation} {before : Option Piece}
  {c : Char} {text rest tail code : List Char} {hashes : Nat}

/-! ## One step -/

def Piece.isSign (sign : Char) (piece : Piece) : Bool := piece == .lexeme .punctuation [sign]

def openBrackets : List Interpolation → Nat
  | [] => 0
  | inner :: outer => inner.depth + openBrackets outer

theorem openBrackets_cutSegment (delimiter : Delimiter) (outer : List Interpolation)
    (lead text : List Char) :
    openBrackets (cutSegment delimiter outer lead text).2.1 = openBrackets outer := by
  rcases opened_cutSegment delimiter outer lead text with hopened | hopened
  · rw [hopened]
  · rw [hopened, openBrackets, Nat.zero_add]

/-- Inside an interpolation a step closes no more brackets than are open, and those open after it
are the ones that were, less the closed ones, and the ones it has opened. -/
theorem openBrackets_cut (hinside : opened ≠ []) (before : Option Piece) (c : Char)
    (rest : List Char) :
    (cut opened before c rest).pieces.countP (Piece.isSign ')') ≤ openBrackets opened ∧
      (cut opened before c rest).pieces.countP (Piece.isSign '(') + openBrackets opened =
        (cut opened before c rest).pieces.countP (Piece.isSign ')') +
          openBrackets (cut opened before c rest).opened := by
  have hsegment : ∀ sign delimiter outer lead text,
      (cutSegment delimiter outer lead text).1.countP (Piece.isSign sign) = 0 :=
    fun sign => count_cutSegment (by decide) [sign]
  rcases char_cases opened c with hblank | ⟨delimiter, outer, rfl, rfl⟩ | hcode
  · rw [cut_blank _ _ _ hblank]
    simp [Piece.isSign]
  · rw [cut_closing, List.countP_cons, List.countP_cons, hsegment, hsegment,
      openBrackets_cutSegment]
    simp [Piece.isSign, openBrackets]
  · cases hopening : Delimiter.opening? (c :: rest) with
    | some delimiter =>
        rw [hcode.cut_opening before hopening]
        simp only [hsegment, openBrackets_cutSegment]
        exact ⟨Nat.zero_le _, trivial⟩
    | none =>
        obtain ⟨inner, outer, rfl⟩ := List.exists_cons_of_ne_nil hinside
        have hlexeme := hcode.cut_lexeme before hopening
        by_cases hopen : c = '('
        · subst hopen
          have hcut : cut (inner :: outer) before '(' rest =
              ⟨[.lexeme .punctuation ['(']], bracketOpened (inner :: outer), 0⟩ := hlexeme
          rw [hcut]
          simp [Piece.isSign, bracketOpened, openBrackets]
          omega
        by_cases hclose : c = ')'
        · -- the bracket closes one in the interpolation, or it would close the interpolation
          subst hclose
          have hcut : cut (inner :: outer) before ')' rest =
              ⟨[.lexeme .punctuation [')']], bracketClosed (inner :: outer), 0⟩ := hlexeme
          have hpos : inner.depth ≠ 0 := by
            intro hzero
            exact hcode.inside inner.delimiter outer rfl (by rw [← hzero])
          rw [hcut]
          simp [Piece.isSign, bracketClosed, openBrackets]
          omega
        · rw [hlexeme]
          simp [Piece.isSign, hopen, hclose]

theorem cutSegment_append_stack (delimiter : Delimiter) (opened below : List Interpolation)
    (lead text : List Char) :
    cutSegment delimiter (opened ++ below) lead text =
      ((cutSegment delimiter opened lead text).1,
        (cutSegment delimiter opened lead text).2.1 ++ below,
        (cutSegment delimiter opened lead text).2.2) := by
  rcases hsegment : segment delimiter 0 text with ⟨length, ending⟩
  cases ending <;> simp only [cutSegment, hsegment, List.cons_append]

theorem IsCode.append_stack (h : IsCode opened c)
    (hopen : ¬ (opened = [] ∧ c = ')' ∧ base.depth = 0)) (outer : List Interpolation) :
    IsCode (opened ++ base :: outer) c where
  nonblank := h.nonblank
  inside := by
    intro delimiter below hc heq
    cases opened with
    | nil => exact hopen ⟨rfl, hc, by rw [(List.cons.inj heq).1]⟩
    | cons inner opened =>
        exact h.inside delimiter opened hc (by rw [(List.cons.inj heq).1])

/-- A bracket of ordinary code counts for the interpolation around it. -/
theorem bracket_append_stack (c : Char) (opened : List Interpolation) (base : Interpolation) :
    ∃ depth, ∀ outer,
      (if c = '(' then bracketOpened (opened ++ base :: outer)
        else if c = ')' then bracketClosed (opened ++ base :: outer) else opened ++ base :: outer) =
      (if c = '(' then bracketOpened opened
        else if c = ')' then bracketClosed opened else opened) ++
          ⟨base.delimiter, depth⟩ :: outer := by
  cases opened with
  | nil =>
      refine ⟨if c = '(' then base.depth + 1 else if c = ')' then base.depth - 1 else base.depth,
        fun outer => ?_⟩
      split
      · rfl
      · split <;> rfl
  | cons inner opened =>
      refine ⟨base.depth, fun outer => ?_⟩
      split
      · rfl
      · split <;> rfl

theorem cut_append_stack (before : Option Piece) (rest : List Char)
    (hopen : ¬ (opened = [] ∧ c = ')' ∧ base.depth = 0)) :
    ∃ depth, ∀ outer, cut (opened ++ base :: outer) before c rest =
      ⟨(cut opened before c rest).pieces,
        (cut opened before c rest).opened ++ ⟨base.delimiter, depth⟩ :: outer,
        (cut opened before c rest).taken⟩ := by
  rcases char_cases opened c with hblank | ⟨delimiter, inner, rfl, rfl⟩ | hcode
  · exact ⟨base.depth, fun outer => by rw [cut_blank _ _ _ hblank, cut_blank _ _ _ hblank]⟩
  · refine ⟨base.depth, fun outer => ?_⟩
    rw [List.cons_append, cut_closing, cut_closing, cutSegment_append_stack]
  · have hcode' := fun outer => hcode.append_stack hopen outer
    cases hopening : Delimiter.opening? (c :: rest) with
    | some delimiter =>
        refine ⟨base.depth, fun outer => ?_⟩
        rw [(hcode' outer).cut_opening before hopening, hcode.cut_opening before hopening,
          cutSegment_append_stack]
    | none =>
        obtain ⟨depth, hbracket⟩ := bracket_append_stack c opened base
        refine ⟨depth, fun outer => ?_⟩
        rw [(hcode' outer).cut_lexeme before hopening, hcode.cut_lexeme before hopening,
          hbracket outer]

/-! ## A whole text -/

/-- Inside an interpolation a text is read as outside: all of it, if at no place more brackets have
been closed than opened, or up to the first bracket that closes more, which closes the
interpolation. -/
theorem piecesFrom_append_stack (opened : List Interpolation) (before : Option Piece)
    (text : List Char) (base : Interpolation) :
    ((∀ outer, piecesFrom (opened ++ base :: outer) before text = piecesFrom opened before text) ∧
      Ballot (Piece.isSign '(') (Piece.isSign ')') (openBrackets (opened ++ [base]))
        (piecesFrom opened before text)) ∨
    ∃ parts last rest, piecesFrom opened before text = parts ++ piecesFrom [] last (')' :: rest) ∧
      (∀ outer, piecesFrom (opened ++ base :: outer) before text =
        parts ++ piecesFrom (⟨base.delimiter, 0⟩ :: outer) last (')' :: rest)) ∧
      Ballot (Piece.isSign '(') (Piece.isSign ')') (openBrackets (opened ++ [base])) parts ∧
      parts.countP (Piece.isSign '(') + openBrackets (opened ++ [base]) =
        parts.countP (Piece.isSign ')') := by
  induction opened, before, text using piecesFrom.induct generalizing base with
  | case1 opened before =>
      refine .inl ⟨fun outer => by rw [piecesFrom_nil, piecesFrom_nil], ?_⟩
      rw [piecesFrom_nil]
      exact Ballot.of_le (Nat.zero_le _)
  | case2 opened before c rest found =>
      rename_i ih
      by_cases hclose : opened = [] ∧ c = ')' ∧ base.depth = 0
      · obtain ⟨rfl, rfl, hzero⟩ := hclose
        obtain ⟨delimiter, depth⟩ := base
        obtain rfl : depth = 0 := hzero
        exact .inr ⟨[], before, rest, rfl, fun outer => rfl, Ballot.of_le (Nat.zero_le _), rfl⟩
      · obtain ⟨depth, hcut⟩ := cut_append_stack before rest hclose
        have hbase : opened ++ [base] ≠ [] := by simp
        have hbrackets := openBrackets_cut hbase before c rest
        rw [hcut []] at hbrackets
        have hle : found.pieces.countP (Piece.isSign ')') ≤ openBrackets (opened ++ [base]) :=
          hbrackets.1
        have hcount : found.pieces.countP (Piece.isSign '(') + openBrackets (opened ++ [base]) =
            found.pieces.countP (Piece.isSign ')') +
              openBrackets (found.opened ++ [⟨base.delimiter, depth⟩]) := hbrackets.2
        have hstep : ∀ outer, piecesFrom (opened ++ base :: outer) before (c :: rest) =
            found.pieces ++ piecesFrom (found.opened ++ ⟨base.delimiter, depth⟩ :: outer)
              found.pieces.getLast? (rest.drop found.taken) := by
          intro outer
          rw [piecesFrom_cons, hcut outer]
        have hplain := piecesFrom_cons opened before c rest
        rcases ih ⟨base.delimiter, depth⟩ with ⟨hsame, hballot⟩ |
          ⟨parts, last, later, hparts, hinside, hballot, hzero⟩
        · refine .inl ⟨fun outer => by rw [hstep, hsame, hplain], ?_⟩
          rw [hplain]
          exact (Ballot.of_le hle).append hcount hballot
        · refine .inr ⟨found.pieces ++ parts, last, later, ?_, fun outer => ?_, ?_, ?_⟩
          · rw [hplain, hparts, List.append_assoc]
          · rw [hstep, hinside, List.append_assoc]
          · exact (Ballot.of_le hle).append hcount hballot
          · rw [List.countP_append, List.countP_append]
            omega

/-! ## Code that matches its brackets -/

/-- Code that leaves nothing open: a closing bracket after it is a token of its own, and its round
brackets match. -/
structure Embeddable (code : List Char) : Prop where
  round : ∃ token, token.isPunctuation ")" = true ∧ tokens (code ++ [')']) = tokens code ++ [token]
  balance : (tokens code).countP (·.isPunctuation "(") = (tokens code).countP (·.isPunctuation ")")
  ballot : Ballot (·.isPunctuation "(") (·.isPunctuation ")") 0 (tokens code)

/-- A backtick that is no end of a name. -/
def HoldsLoneBacktick (code : List Char) : Prop := .lexeme .punctuation ['\x60'] ∈ pieces code

theorem piecesFrom_round (before : Option Piece) (rest : List Char) :
    piecesFrom [] before (')' :: rest) =
      .lexeme .punctuation [')'] :: piecesFrom [] (some (.lexeme .punctuation [')'])) rest := by
  have hcut : cut [] before ')' rest = ⟨[.lexeme .punctuation [')']], [], 0⟩ := rfl
  rw [piecesFrom_cons, hcut]
  rfl

namespace Embeddable

theorem ballot_pieces (h : Embeddable code) :
    Ballot (Piece.isSign '(') (Piece.isSign ')') 0 (pieces code) := by
  intro first second hsplit
  have hle := h.ballot (locate 0 first) _ (by rw [tokens, hsplit, locate_append])
  rw [countP_locate, countP_locate] at hle
  exact hle

theorem balance_pieces (h : Embeddable code) :
    (pieces code).countP (Piece.isSign '(') = (pieces code).countP (Piece.isSign ')') := by
  have hbalance := h.balance
  rw [tokens, countP_locate, countP_locate] at hbalance
  exact hbalance

theorem pieces_round (h : Embeddable code)
    (htail : HoldsLoneBacktick code → '\x60' ∉ tail.takeWhile (· != '\n')) :
    ∃ later, pieces (code ++ ')' :: tail) =
      pieces code ++ .lexeme .punctuation [')'] :: later := by
  obtain ⟨token, hround, htokens⟩ := h.round
  have hclosed : ∀ left right, tokens code = left ++ right →
      right.countP (·.isPunctuation "(") ≤ right.countP (·.isPunctuation ")") := by
    intro left right hsplit
    have hle := h.ballot left right hsplit
    have hbalance := h.balance
    rw [hsplit, List.countP_append, List.countP_append] at hbalance
    omega
  have hnone : ∀ delimiter outer before start,
      locate start (piecesFrom (⟨delimiter, 0⟩ :: outer) before [')']) = [] := by
    intro delimiter outer before start
    simp [piecesFrom_cons, piecesFrom_nil, cut_closing, cutSegment, segment, locate]
  have hlone : .lexeme .punctuation ['\x60'] ∈ pieces code → HoldsLoneBacktick code := id
  have hstop : Stop (HoldsLoneBacktick code) ')' [] := .bracket fun _ => by simp
  obtain ⟨before, hsplit⟩ := pieces_append_stop hlone hclosed hround htokens hstop hnone
  exact ⟨_, by rw [hsplit tail (.bracket htail), piecesFrom_round]⟩

/-- In an interpolation the code is read as alone, and the bracket after it closes the
interpolation. -/
theorem piecesFrom_inside (h : Embeddable code)
    (htail : HoldsLoneBacktick code → '\x60' ∉ tail.takeWhile (· != '\n'))
    (delimiter : Delimiter) (outer : List Interpolation) :
    ∃ last, piecesFrom (⟨delimiter, 0⟩ :: outer) none (code ++ ')' :: tail) =
      pieces code ++ piecesFrom (⟨delimiter, 0⟩ :: outer) last (')' :: tail) := by
  obtain ⟨later, hround⟩ := h.pieces_round htail
  have hballot := h.ballot_pieces
  have hbalance := h.balance_pieces
  rw [pieces] at hround
  rcases piecesFrom_append_stack [] none (code ++ ')' :: tail) ⟨delimiter, 0⟩ with
    ⟨-, hnever⟩ | ⟨parts, last, rest, hparts, hinside, hballot', hzero⟩
  · -- the bracket after the code closes more than was opened
    exfalso
    have hle := hnever (pieces code ++ [.lexeme .punctuation [')']]) later (by rw [hround]; simp)
    rw [List.countP_append, List.countP_append, hbalance] at hle
    exact absurd hle (by simp [openBrackets, Piece.isSign])
  · rw [piecesFrom_round] at hparts
    have hsame : pieces code = parts := by
      refine hballot.unique hballot' ?_ hzero ?_ ?_ (hround.symm.trans hparts)
      · exact hbalance
      · rfl
      · rfl
    -- with the same pieces the same text is left
    have htext := flatMap_text_pieces (code ++ ')' :: tail)
    rw [pieces, hparts, ← hsame, ← piecesFrom_round last rest, List.flatMap_append,
      flatMap_text_pieces, flatMap_text_piecesFrom] at htext
    obtain rfl : rest = tail := (List.cons.inj (List.append_cancel_left htext)).2
    exact ⟨last, by rw [hsame]; exact hinside outer⟩

end Embeddable

/-- The tokens of code in an interpolation are tokens of the text, wherever the interpolation
stands: it may be nested in others to any depth. -/
theorem Embeddable.shift_mem_tokens (h : Embeddable code) {past : List Piece}
    {delimiter : Delimiter}
    (scanned : Scanned text (⟨delimiter, 0⟩ :: outer) (some (.opening hashes)) past
      (code ++ ')' :: tail))
    (htail : HoldsLoneBacktick code → '\x60' ∉ tail.takeWhile (· != '\n')) {token : Token}
    (htoken : token ∈ tokens code) :
    token.shift (Source.bytesOf (past.flatMap Piece.text)) ∈ tokens text := by
  obtain ⟨last, hinside⟩ := h.piecesFrom_inside htail delimiter outer
  rw [piecesFrom_code_start _ none (some (.opening hashes)) _ rfl] at hinside
  rw [tokens, scanned.pieces_eq, hinside, locate_append, locate_append, locate_add]
  exact List.mem_append_right _ (List.mem_append_left _ (List.mem_map_of_mem htoken))

/-! ## Literals around code -/

/-- A literal of one line that holds nothing but an interpolation of the code. -/
def interpolated (hashes : Nat) (code : List Char) : List Char :=
  List.replicate hashes '#' ++ ['"', '\\'] ++ List.replicate hashes '#' ++ ['('] ++ code ++
    [')', '"'] ++ List.replicate hashes '#'

def leftQuote (hashes : Nat) : List Char := List.replicate hashes '#' ++ ['"']

def rightQuote (hashes : Nat) : List Char := '"' :: List.replicate hashes '#'

theorem interpolated_append (hashes : Nat) (code tail : List Char) :
    interpolated hashes code ++ tail = leftQuote hashes ++ ((Piece.opening hashes).text ++
      (code ++ ')' :: (rightQuote hashes ++ tail))) := by
  simp [interpolated, leftQuote, rightQuote, Piece.text]

theorem opening?_leftQuote (hashes : Nat) (rest : List Char) :
    Delimiter.opening? (leftQuote hashes ++ ((Piece.opening hashes).text ++ rest)) =
      some ⟨hashes, false⟩ := by
  have htext : leftQuote hashes ++ ((Piece.opening hashes).text ++ rest) =
      List.replicate hashes '#' ++ '"' :: '\\' :: (List.replicate hashes '#' ++ '(' :: rest) := by
    simp [leftQuote, Piece.text]
  rw [htext]
  unfold Delimiter.opening?
  dsimp only
  rw [takeWhile_hashes hashes (by decide), List.drop_left, List.length_replicate]
  rfl

theorem cutSegment_opening {lead : List Char} (hne : lead ≠ []) (hashes : Nat) (multiline : Bool)
    (opened : List Interpolation) (rest : List Char) :
    cutSegment ⟨hashes, multiline⟩ opened lead ((Piece.opening hashes).text ++ rest) =
      ([.lexeme .string lead, .opening hashes], ⟨⟨hashes, multiline⟩, 0⟩ :: opened,
        hashes + 2) := by
  have htext : (Piece.opening hashes).text ++ rest =
      '\\' :: (List.replicate hashes '#' ++ '(' :: rest) := by
    simp [Piece.text]
  have hinterpolates : Delimiter.interpolates ⟨hashes, multiline⟩
      (List.replicate hashes '#' ++ '(' :: rest) = true := by
    simp [Delimiter.interpolates, Delimiter.escapes]
  have hsegment : segment ⟨hashes, multiline⟩ 0
      ('\\' :: (List.replicate hashes '#' ++ '(' :: rest)) = (0, .interpolation) := by
    rw [segment, if_pos ⟨rfl, hinterpolates⟩]
  rw [htext, cutSegment, hsegment]
  simp [hne]

theorem cutSegment_rightQuote (hashes : Nat) (opened : List Interpolation) (rest : List Char) :
    cutSegment ⟨hashes, false⟩ opened [] (rightQuote hashes ++ rest) =
      ([.lexeme .string (rightQuote hashes)], opened, hashes + 1) := by
  have hclosing : Delimiter.closing ⟨hashes, false⟩ = rightQuote hashes := rfl
  have hprefix : (rightQuote hashes).isPrefixOf (rightQuote hashes ++ rest) = true :=
    List.isPrefixOf_iff_prefix.mpr (List.prefix_append _ _)
  have hwidth : Delimiter.width ⟨hashes, false⟩ = hashes + 1 := Nat.add_comm _ _
  have hsegment : segment ⟨hashes, false⟩ 0 (rightQuote hashes ++ rest) =
      (hashes + 1, .closed) := by
    rw [rightQuote, List.cons_append, segment, if_neg (by simp), hclosing, hwidth, if_pos]
    exact ⟨rfl, hprefix⟩
  have hlength : (rightQuote hashes).length = hashes + 1 := by simp [rightQuote]
  have htake : (rightQuote hashes ++ rest).take (hashes + 1) = rightQuote hashes := by
    rw [← hlength, List.take_left]
  simp only [cutSegment, hsegment, htake, List.nil_append]
  rfl

theorem piecesFrom_leftQuote (opened : List Interpolation) (before : Option Piece) (hashes : Nat)
    (rest : List Char) :
    piecesFrom opened before (leftQuote hashes ++ ((Piece.opening hashes).text ++ rest)) =
      .lexeme .string (leftQuote hashes) :: .opening hashes ::
        piecesFrom (⟨⟨hashes, false⟩, 0⟩ :: opened) none rest := by
  have hopening := opening?_leftQuote hashes rest
  have hne : leftQuote hashes ≠ [] := by simp [leftQuote]
  have hsegment := cutSegment_opening hne hashes false opened rest
  have hwidth : Delimiter.width ⟨hashes, false⟩ = (leftQuote hashes).length := by
    simp [Delimiter.width, Delimiter.quotes, leftQuote, Nat.add_comm]
  have hopen : hashes + 2 = (Piece.opening hashes).text.length := by simp [Piece.text]
  generalize hbody : (Piece.opening hashes).text ++ rest = body at *
  obtain ⟨c, lead, hlead⟩ := List.exists_cons_of_ne_nil hne
  have hcode : IsCode opened c := by
    have hmem : c ∈ leftQuote hashes := by
      rw [hlead]
      exact List.mem_cons_self
    rcases List.mem_append.mp hmem with hhash | hquote
    · rw [List.eq_of_mem_replicate hhash]
      exact ⟨by decide, fun _ _ hc => absurd hc (by decide)⟩
    · rw [List.mem_singleton.mp hquote]
      exact ⟨by decide, fun _ _ hc => absurd hc (by decide)⟩
  have htext : leftQuote hashes ++ body = c :: (lead ++ body) := by rw [hlead, List.cons_append]
  rw [htext] at hopening
  have hcut : cut opened before c (lead ++ body) =
      ⟨[.lexeme .string (leftQuote hashes), .opening hashes], ⟨⟨hashes, false⟩, 0⟩ :: opened,
        hashes + 2 + (leftQuote hashes).length - 1⟩ := by
    rw [hcode.cut_opening before hopening, ← htext, hwidth, List.take_left, List.drop_left,
      hsegment]
  have hrest : (lead ++ body).drop (hashes + 2 + (leftQuote hashes).length - 1) = rest := by
    have hlength : hashes + 2 + (leftQuote hashes).length - 1 = lead.length + (hashes + 2) := by
      rw [hlead, List.length_cons]
      omega
    rw [hlength, ← List.drop_drop, List.drop_left, hopen, ← hbody, List.drop_left]
  have hnone := piecesFrom_code_start (⟨⟨hashes, false⟩, 0⟩ :: opened) (some (.opening hashes)) none
    rest rfl
  rw [htext, piecesFrom_cons, hcut, hrest, ← hnone]
  rfl

/-- The quote after an interpolation is a lexeme, and after it comes what was read before the
literal. -/
theorem piecesFrom_rightQuote (opened : List Interpolation) (before : Option Piece) (hashes : Nat)
    (rest : List Char) :
    piecesFrom (⟨⟨hashes, false⟩, 0⟩ :: opened) before (')' :: (rightQuote hashes ++ rest)) =
      .closing :: .lexeme .string (rightQuote hashes) ::
        piecesFrom opened (some (.lexeme .string (rightQuote hashes))) rest := by
  have hlength : hashes + 1 = (rightQuote hashes).length := by simp [rightQuote]
  rw [piecesFrom_cons, cut_closing, cutSegment_rightQuote]
  dsimp only
  rw [hlength, List.drop_left]
  rfl

/-- Wherever code is read, a literal around code is read as two parts of a literal and the code. -/
theorem Embeddable.piecesFrom_interpolated (h : Embeddable code)
    (htail : HoldsLoneBacktick code → '\x60' ∉ tail.takeWhile (· != '\n'))
    (opened : List Interpolation) (before : Option Piece) (hashes : Nat) :
    piecesFrom opened before (interpolated hashes code ++ tail) =
      .lexeme .string (leftQuote hashes) :: .opening hashes :: (pieces code ++
        .closing :: .lexeme .string (rightQuote hashes) ::
          piecesFrom opened (some (.lexeme .string (rightQuote hashes))) tail) := by
  have hquote : HoldsLoneBacktick code →
      '\x60' ∉ (rightQuote hashes ++ tail).takeWhile (· != '\n') := by
    intro hlone
    have hline : ∀ c ∈ rightQuote hashes, (c != '\n') = true ∧ c ≠ '\x60' := by
      intro c hc
      rcases List.mem_cons.mp hc with rfl | hc
      · decide
      · rw [List.eq_of_mem_replicate hc]
        decide
    rw [List.takeWhile_append_of_pos fun c hc => (hline c hc).1, List.mem_append]
    rintro (hmem | hmem)
    · exact (hline _ hmem).2 rfl
    · exact htail hlone hmem
  obtain ⟨last, hinside⟩ := h.piecesFrom_inside hquote ⟨hashes, false⟩ opened
  rw [interpolated_append, piecesFrom_leftQuote, hinside, piecesFrom_rightQuote]

theorem bytesOf_hashes (hashes : Nat) : Source.bytesOf (List.replicate hashes '#') = hashes := by
  induction hashes with
  | zero => rfl
  | succ hashes ih =>
      rw [List.replicate_succ, Source.bytesOf_cons, ih, Nat.add_comm]
      rfl

theorem Embeddable.tokens_interpolated_append (h : Embeddable code) (hashes : Nat)
    (tail : List Char)
    (htail : HoldsLoneBacktick code → '\x60' ∉ tail.takeWhile (· != '\n')) :
    tokens (interpolated hashes code ++ tail) =
      ⟨.string, 0, leftQuote hashes⟩ :: ((tokens code).map (·.shift (2 * hashes + 3)) ++
        ⟨.string, 2 * hashes + 4 + Source.bytesOf code, rightQuote hashes⟩ ::
          locate (3 * hashes + 5 + Source.bytesOf code)
            (piecesFrom [] (some (.lexeme .string (rightQuote hashes))) tail)) := by
  have hleft : Source.bytesOf (leftQuote hashes) = hashes + 1 := by
    rw [leftQuote, Source.bytesOf_append, bytesOf_hashes]
    rfl
  have hright : Source.bytesOf (rightQuote hashes) = 1 + hashes := by
    rw [rightQuote, Source.bytesOf_cons, bytesOf_hashes]
    rfl
  have hopen : Source.bytesOf (Piece.opening hashes).text = 1 + (hashes + 1) := by
    rw [Piece.text, Source.bytesOf_cons, Source.bytesOf_append, bytesOf_hashes]
    rfl
  have hlexeme : ∀ start literal parts, locate start (.lexeme .string literal :: parts) =
      ⟨.string, start, literal⟩ :: locate (start + Source.bytesOf literal) parts :=
    fun _ _ _ => rfl
  have hopening : ∀ start parts, locate start (.opening hashes :: parts) =
      locate (start + Source.bytesOf (Piece.opening hashes).text) parts := fun _ _ => rfl
  have hclosing : ∀ start parts, locate start (.closing :: parts) = locate (start + 1) parts :=
    fun _ _ => rfl
  have hcode : locate (2 * hashes + 3) (pieces code) =
      (tokens code).map (·.shift (2 * hashes + 3)) := by
    have hadd := locate_add 0 (2 * hashes + 3) (pieces code)
    rwa [Nat.zero_add] at hadd
  have hstart : 0 + (hashes + 1) + (1 + (hashes + 1)) = 2 * hashes + 3 := by omega
  have hstop : 2 * hashes + 3 + Source.bytesOf code + 1 = 2 * hashes + 4 + Source.bytesOf code := by
    omega
  have hend : 2 * hashes + 4 + Source.bytesOf code + (1 + hashes) =
      3 * hashes + 5 + Source.bytesOf code := by omega
  rw [tokens, pieces, h.piecesFrom_interpolated htail, hlexeme, hopening, hleft, hopen, hstart,
    locate_append, flatMap_text_pieces, hcode, hclosing, hstop, hlexeme, hright, hend]

theorem Embeddable.tokens_interpolated (h : Embeddable code) (hashes : Nat) :
    tokens (interpolated hashes code) =
      ⟨.string, 0, leftQuote hashes⟩ :: ((tokens code).map (·.shift (2 * hashes + 3)) ++
        [⟨.string, 2 * hashes + 4 + Source.bytesOf code, rightQuote hashes⟩]) := by
  have htokens := h.tokens_interpolated_append hashes [] fun _ => by simp
  rw [piecesFrom_nil, List.append_nil] at htokens
  exact htokens

theorem Embeddable.countP_interpolated (h : Embeddable code) (hashes : Nat) (sign : String) :
    (tokens (Token.interpolated hashes code)).countP (·.isPunctuation sign) =
      (tokens code).countP (·.isPunctuation sign) := by
  have hquote : ∀ start literal, isPunctuation ⟨.string, start, literal⟩ sign = false :=
    fun _ _ => rfl
  rw [h.tokens_interpolated, List.countP_cons, List.countP_append, List.countP_map,
    List.countP_singleton, hquote, hquote]
  rfl

/-- A literal around code is code that leaves nothing open, so literals nest to any depth. -/
theorem Embeddable.interpolated (h : Embeddable code) (hashes : Nat) :
    Embeddable (interpolated hashes code) where
  round := by
    refine ⟨⟨.punctuation, 3 * hashes + 5 + Source.bytesOf code, [')']⟩, rfl, ?_⟩
    rw [h.tokens_interpolated, h.tokens_interpolated_append hashes [')'] fun _ => by decide]
    simp [piecesFrom_round, piecesFrom_nil, locate]
  balance := by
    rw [h.countP_interpolated, h.countP_interpolated]
    exact h.balance
  ballot := by
    have hcode : Ballot (·.isPunctuation "(") (·.isPunctuation ")") 0
        ((tokens code).map (·.shift (2 * hashes + 3))) := Ballot.map _ h.ballot
    have hbalance :
        ((tokens code).map (·.shift (2 * hashes + 3))).countP (·.isPunctuation "(") + 0 =
          ((tokens code).map (·.shift (2 * hashes + 3))).countP (·.isPunctuation ")") + 0 := by
      rw [List.countP_map, List.countP_map]
      exact h.balance
    rw [h.tokens_interpolated, ← List.singleton_append]
    refine (Ballot.of_le (Nat.zero_le _)).append rfl (hcode.append hbalance ?_)
    exact Ballot.of_le (Nat.le_refl _)

end CaptureLint.Token
