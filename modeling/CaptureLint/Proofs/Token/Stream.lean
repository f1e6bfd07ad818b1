import CaptureLint.Proofs.Source.Conversion
import CaptureLint.Token.Lexer

/-!
# The token stream of a text

Every statement is about `cut`, the one step that the whole text is read by.  The pieces of a text
put together are the text, no piece is empty, and a lexeme that is not part of a string literal is a
step of its own, after which reading goes on in ordinary code.  For the tokens of a source this
gives that they are excerpts of the text, not empty, in order and disjoint, inside interpolations
too.
-/

namespace CaptureLint.Token

/-! ## Segments of string literals -/

theorem eq_of_interpolates {delimiter : Delimiter} {text : List Char}
    (h : delimiter.interpolates text = true) :
    ∃ rest, text = List.replicate delimiter.hashes '#' ++ '(' :: rest := by
  simp only [Delimiter.interpolates, Delimiter.escapes, Bool.and_eq_true, beq_iff_eq] at h
  obtain ⟨hhashes, hround⟩ := h
  have hsigns : text.takeWhile (· == '#') = List.replicate delimiter.hashes '#' := by
    rw [List.eq_replicate_iff]
    refine ⟨hhashes, fun c hc => ?_⟩
    simpa using List.all_eq_true.mp (List.all_takeWhile (p := (· == '#')) (l := text)) c hc
  have hsplit := List.takeWhile_append_dropWhile (p := (· == '#')) (l := text)
  rw [← hsplit, List.getElem?_append_right (by omega), hhashes, Nat.sub_self,
    List.getElem?_eq_some_iff] at hround
  obtain ⟨hlt, hget⟩ := hround
  refine ⟨(text.dropWhile (· == '#')).drop 1, ?_⟩
  rw [← hsigns, ← hget, ← List.drop_eq_getElem_cons hlt, List.drop_zero, hsplit]

/-- A segment that an interpolation ends is followed by the signs that open it. -/
theorem drop_segment_of_interpolation {delimiter : Delimiter} {escaped length : Nat}
    {text : List Char} (h : segment delimiter escaped text = (length, .interpolation)) :
    ∃ rest, text.drop length = (Piece.opening delimiter.hashes).text ++ rest := by
  induction text generalizing escaped length with
  | nil => simp [segment] at h
  | cons c text ih =>
      cases escaped with
      | succ escaped =>
          simp only [segment, Prod.mk.injEq] at h
          obtain ⟨rfl, hending⟩ := h
          simpa using ih (Prod.ext rfl hending)
      | zero =>
          simp only [segment] at h
          split at h
          · rename_i hopen
            obtain ⟨rfl, hinterpolates⟩ := hopen
            obtain ⟨rest, rfl⟩ := eq_of_interpolates hinterpolates
            cases h
            exact ⟨rest, by simp [Piece.text]⟩
          · split at h
            · simp at h
            · split at h
              · simp at h
              · simp only [Prod.mk.injEq] at h
                obtain ⟨rfl, hending⟩ := h
                simpa using ih (Prod.ext rfl hending)

/-! ## One step -/

theorem flatMap_text_cutSegment (delimiter : Delimiter) (opened : List Interpolation)
    (lead text : List Char) :
    (cutSegment delimiter opened lead text).1.flatMap Piece.text ++
      text.drop (cutSegment delimiter opened lead text).2.2 = lead ++ text := by
  rcases hsegment : segment delimiter 0 text with ⟨length, ending⟩
  have hliteral : (if (lead ++ text.take length).isEmpty then []
      else [Piece.lexeme .string (lead ++ text.take length)]).flatMap Piece.text =
        lead ++ text.take length := by
    split
    · simp_all
    · simp [Piece.text]
  cases ending with
  | interpolation =>
      obtain ⟨rest, hrest⟩ := drop_segment_of_interpolation hsegment
      have hwidth : (Piece.opening delimiter.hashes).text.length = delimiter.hashes + 2 := by
        simp [Piece.text]
      simp only [cutSegment, hsegment, List.flatMap_append, hliteral, List.flatMap_cons,
        List.flatMap_nil, List.append_nil, Nat.add_assoc, ← List.drop_drop, ← hwidth]
      rw [hrest, List.drop_left, List.append_assoc, List.append_assoc, ← hrest,
        List.take_append_drop]
  | closed | broken =>
      simp only [cutSegment, hsegment, hliteral, List.append_assoc, List.take_append_drop]

theorem mem_cutSegment {delimiter : Delimiter} {opened : List Interpolation}
    {lead text : List Char} {piece : Piece}
    (h : piece ∈ (cutSegment delimiter opened lead text).1) :
    (∃ literal, piece = .lexeme .string literal ∧ literal ≠ []) ∨
      ∃ hashes, piece = .opening hashes := by
  rcases hsegment : segment delimiter 0 text with ⟨length, ending⟩
  have hliteral : ∀ {piece}, (piece ∈ if (lead ++ text.take length).isEmpty then []
      else [Piece.lexeme .string (lead ++ text.take length)]) →
        ∃ literal, piece = .lexeme .string literal ∧ literal ≠ [] := by
    intro piece hpiece
    split at hpiece
    · simp at hpiece
    · rename_i hne
      exact ⟨_, List.mem_singleton.mp hpiece, by simpa [List.isEmpty_iff] using hne⟩
  cases ending with
  | interpolation =>
      simp only [cutSegment, hsegment, List.mem_append, List.mem_singleton] at h
      rcases h with h | rfl
      · exact .inl (hliteral h)
      · exact .inr ⟨_, rfl⟩
  | closed | broken =>
      simp only [cutSegment, hsegment] at h
      exact .inl (hliteral h)

/-- Everything that one step can do: pass a blank, read a segment after a closing bracket or after
the start of a literal, or read one lexeme. -/
theorem cut_cases (opened : List Interpolation) (before : Option Piece) (c : Char)
    (rest : List Char) :
    (cut opened before c rest = ⟨[.blank c], opened, 0⟩) ∨
    (∃ delimiter outer, c = ')' ∧ (cut opened before c rest).pieces =
        .closing :: (cutSegment delimiter outer [] rest).1 ∧
      (cut opened before c rest).taken = (cutSegment delimiter outer [] rest).2.2) ∨
    (∃ delimiter outer lead body, lead ++ body = c :: rest ∧ lead ≠ [] ∧
      (cut opened before c rest).pieces = (cutSegment delimiter outer lead body).1 ∧
      rest.drop (cut opened before c rest).taken =
        body.drop (cutSegment delimiter outer lead body).2.2) ∨
    (∃ kind length, (cut opened before c rest).pieces =
        [.lexeme kind (c :: rest.take length)] ∧
      (cut opened before c rest).taken = length) := by
  unfold cut
  split
  · exact .inl rfl
  · split
    · exact .inr (.inl ⟨_, _, rfl, rfl, rfl⟩)
    · split
      · rename_i delimiter hopening
        have hwidth : 0 < delimiter.width := by
          simp only [Delimiter.width, Delimiter.quotes]
          split <;> omega
        refine .inr (.inr (.inl ⟨delimiter, opened, (c :: rest).take delimiter.width,
          (c :: rest).drop delimiter.width, List.take_append_drop _ _, ?_, rfl, ?_⟩))
        · simp only [ne_eq, List.take_eq_nil_iff]
          simp
          omega
        · dsimp only
          obtain ⟨width, hsucc⟩ : ∃ width, delimiter.width = width + 1 :=
            ⟨delimiter.width - 1, by omega⟩
          rw [hsucc, List.drop_succ_cons, List.drop_drop, Nat.add_succ_sub_one, Nat.add_comm]
      · exact .inr (.inr (.inr ⟨_, _, rfl, rfl⟩))

theorem flatMap_text_cut (opened : List Interpolation) (before : Option Piece) (c : Char)
    (rest : List Char) :
    (cut opened before c rest).pieces.flatMap Piece.text ++
      rest.drop (cut opened before c rest).taken = c :: rest := by
  rcases cut_cases opened before c rest with h | ⟨delimiter, outer, rfl, hpieces, htaken⟩ |
    ⟨delimiter, outer, lead, body, hsplit, -, hpieces, htaken⟩ | ⟨kind, length, hpieces, htaken⟩
  · simp [h, Piece.text]
  · have hsegment := flatMap_text_cutSegment delimiter outer [] rest
    simp only [hpieces, htaken, List.flatMap_cons, Piece.text, List.append_assoc, hsegment]
    rfl
  · rw [hpieces, htaken, flatMap_text_cutSegment, hsplit]
  · simp [hpieces, htaken, Piece.text]

theorem text_ne_nil_of_mem_cut {opened : List Interpolation} {before : Option Piece} {c : Char}
    {rest : List Char} {piece : Piece} (h : piece ∈ (cut opened before c rest).pieces) :
    piece.text ≠ [] := by
  have hsegment : ∀ {delimiter outer lead body},
      piece ∈ (cutSegment delimiter outer lead body).1 → piece.text ≠ [] := by
    intro delimiter outer lead body hpiece
    rcases mem_cutSegment hpiece with ⟨literal, rfl, hne⟩ | ⟨hashes, rfl⟩
    · exact hne
    · simp [Piece.text]
  rcases cut_cases opened before c rest with hcut | ⟨delimiter, outer, -, hpieces, -⟩ |
    ⟨delimiter, outer, lead, body, -, -, hpieces, -⟩ | ⟨kind, length, hpieces, -⟩
  · rw [hcut] at h
    simp_all [Piece.text]
  · rw [hpieces, List.mem_cons] at h
    rcases h with rfl | h
    · simp [Piece.text]
    · exact hsegment h
  · rw [hpieces] at h
    exact hsegment h
  · rw [hpieces] at h
    simp_all [Piece.text]

/-- A lexeme that is no part of a string literal takes up its whole step. -/
theorem pieces_cut_eq_singleton {opened : List Interpolation} {before : Option Piece} {c : Char}
    {rest text : List Char} {kind : TokenKind} (hkind : kind ≠ .string)
    (h : .lexeme kind text ∈ (cut opened before c rest).pieces) :
    (cut opened before c rest).pieces = [.lexeme kind text] := by
  have hsegment : ∀ {delimiter outer lead body},
      .lexeme kind text ∉ (cutSegment delimiter outer lead body).1 := by
    intro delimiter outer lead body hpiece
    rcases mem_cutSegment hpiece with ⟨literal, heq, -⟩ | ⟨hashes, heq⟩
    · exact hkind (Piece.lexeme.inj heq).1
    · cases heq
  rcases cut_cases opened before c rest with hcut | ⟨delimiter, outer, -, hpieces, -⟩ |
    ⟨delimiter, outer, lead, body, -, -, hpieces, -⟩ | ⟨other, length, hpieces, -⟩
  · rw [hcut] at h
    simp at h
  · rw [hpieces] at h
    simp [hsegment] at h
  · rw [hpieces] at h
    exact absurd h hsegment
  · rw [hpieces] at h ⊢
    rw [List.mem_singleton.mp h]

/-! ## The pieces of a text -/

theorem piecesFrom_nil (opened : List Interpolation) (before : Option Piece) :
    piecesFrom opened before [] = [] := by
  rw [piecesFrom.eq_def]

theorem piecesFrom_cons (opened : List Interpolation) (before : Option Piece) (c : Char)
    (rest : List Char) :
    piecesFrom opened before (c :: rest) =
      (cut opened before c rest).pieces ++
        piecesFrom (cut opened before c rest).opened (cut opened before c rest).pieces.getLast?
          (rest.drop (cut opened before c rest).taken) := by
  rw [piecesFrom.eq_def]

/-- The pieces of a text put together are the text. -/
theorem flatMap_text_piecesFrom (opened : List Interpolation) (before : Option Piece)
    (text : List Char) : (piecesFrom opened before text).flatMap Piece.text = text := by
  induction opened, before, text using piecesFrom.induct with
  | case1 => simp [piecesFrom_nil]
  | case2 opened before c rest _ ih =>
      rw [piecesFrom_cons, List.flatMap_append, ih, flatMap_text_cut]

theorem flatMap_text_pieces (text : List Char) : (pieces text).flatMap Piece.text = text :=
  flatMap_text_piecesFrom [] none text

theorem text_ne_nil_of_mem_piecesFrom {opened : List Interpolation} {before : Option Piece}
    {text : List Char} {piece : Piece} (h : piece ∈ piecesFrom opened before text) :
    piece.text ≠ [] := by
  induction opened, before, text using piecesFrom.induct with
  | case1 => simp [piecesFrom_nil] at h
  | case2 opened before c rest _ ih =>
      rw [piecesFrom_cons, List.mem_append] at h
      rcases h with h | h
      · exact text_ne_nil_of_mem_cut h
      · exact ih h

/-- A lexeme that is no part of a string literal is found by a step of its own. -/
theorem exists_cut_of_lexeme {opened : List Interpolation} {before : Option Piece}
    {text literal : List Char} {kind : TokenKind} {first second : List Piece}
    (hkind : kind ≠ .string)
    (h : piecesFrom opened before text = first ++ .lexeme kind literal :: second) :
    ∃ inner last c rest, (cut inner last c rest).pieces = [.lexeme kind literal] ∧
      second = piecesFrom (cut inner last c rest).opened (some (.lexeme kind literal))
        (rest.drop (cut inner last c rest).taken) := by
  induction opened, before, text using piecesFrom.induct generalizing first with
  | case1 => simp [piecesFrom_nil] at h
  | case2 opened before c rest found =>
      rename_i ih
      rw [piecesFrom_cons, List.append_eq_append_iff] at h
      -- either the lexeme comes after this step, or it belongs to it and is all of it
      rcases h with ⟨later, -, hlater⟩ | ⟨tail, hstep, hlater⟩
      · exact ih hlater
      · cases tail with
        | nil => exact ih (hlater.symm.trans (List.nil_append _).symm)
        | cons piece tail =>
            simp only [List.cons_append, List.cons.injEq] at hlater
            obtain ⟨rfl, hsecond⟩ := hlater
            have hmem : .lexeme kind literal ∈ (cut opened before c rest).pieces := by
              rw [hstep]
              simp
            have hone := pieces_cut_eq_singleton hkind hmem
            rw [hone] at hstep
            have hnil : first = [] ∧ tail = [] := by
              have hlengths := congrArg List.length hstep
              simp only [List.length_append, List.length_cons, List.length_nil] at hlengths
              exact ⟨List.length_eq_zero_iff.mp (by omega),
                List.length_eq_zero_iff.mp (by omega)⟩
            rw [hnil.2, hone, List.nil_append] at hsecond
            exact ⟨opened, before, c, rest, hone, hsecond⟩

/-- After a lexeme that is no part of a string literal, reading goes on in ordinary code with the
text that is left. -/
theorem piecesFrom_after_lexeme {opened : List Interpolation} {before : Option Piece}
    {text literal : List Char} {kind : TokenKind} {first second : List Piece}
    (hkind : kind ≠ .string)
    (h : piecesFrom opened before text = first ++ .lexeme kind literal :: second) :
    ∃ inner, second =
      piecesFrom inner (some (.lexeme kind literal)) (second.flatMap Piece.text) := by
  obtain ⟨inner, last, c, rest, -, hsecond⟩ := exists_cut_of_lexeme hkind h
  refine ⟨(cut inner last c rest).opened, ?_⟩
  conv => rhs; rw [hsecond, flatMap_text_piecesFrom]
  exact hsecond

/-! ## Blanks and separators -/

theorem cut_blank (opened : List Interpolation) (before : Option Piece) {c : Char}
    (rest : List Char) (h : Text.isBlank c = true) :
    cut opened before c rest = ⟨[.blank c], opened, 0⟩ := by
  unfold cut
  rw [if_pos h]

theorem piecesFrom_blanks (opened : List Interpolation) (before : Option Piece)
    {blanks : List Char} (text : List Char) (h : Text.allBlank blanks = true) :
    ∃ last, piecesFrom opened before (blanks ++ text) =
      blanks.map Piece.blank ++ piecesFrom opened last text := by
  induction blanks generalizing before with
  | nil => exact ⟨before, rfl⟩
  | cons c blanks ih =>
      simp only [Text.allBlank, List.all_cons, Bool.and_eq_true] at h
      obtain ⟨last, hlast⟩ := ih (some (.blank c)) h.2
      refine ⟨last, ?_⟩
      rw [List.cons_append, piecesFrom_cons, cut_blank _ _ _ h.1]
      exact congrArg (Piece.blank c :: ·) hlast

theorem piecesFrom_square (opened : List Interpolation) (before : Option Piece)
    (rest : List Char) :
    ∃ inner, piecesFrom opened before ('[' :: rest) =
      .lexeme .punctuation ['['] :: piecesFrom inner (some (.lexeme .punctuation ['['])) rest := by
  have hcut : cut opened before '[' rest = ⟨[.lexeme .punctuation ['[']], opened, 0⟩ := by
    unfold cut
    rw [if_neg (by decide)]
    split
    · contradiction
    · rfl
  rw [piecesFrom_cons, hcut]
  exact ⟨opened, rfl⟩

/-! ## The tokens of a text -/

theorem related_of_pairwise {α : Type} {related : α → α → Prop} {items : List α} {first second : α}
    (h : items.Pairwise related) (hfirst : first ∈ items) (hsecond : second ∈ items) :
    first = second ∨ related first second ∨ related second first := by
  obtain ⟨before, after, rfl⟩ := List.append_of_mem hfirst
  rw [List.pairwise_append, List.pairwise_cons] at h
  rw [List.mem_append, List.mem_cons] at hsecond
  rcases hsecond with hbefore | rfl | hafter
  · exact .inr (.inr (h.2.2 second hbefore first List.mem_cons_self))
  · exact .inl rfl
  · exact .inr (.inl (h.2.1.1 second hafter))

/-- Tokens that are not empty, each ending no later than the next one starts. -/
structure Ordered (tokens : List Token) : Prop where
  nonempty : ∀ token ∈ tokens, token.start < token.stop
  apart : tokens.Pairwise fun first second => first.stop ≤ second.start

theorem Ordered.filter {tokens : List Token} (h : Ordered tokens) (keep : Token → Bool) :
    Ordered (tokens.filter keep) :=
  ⟨fun token htoken => h.nonempty token (List.mem_filter.mp htoken).1, h.apart.filter keep⟩

theorem Ordered.starts {tokens : List Token} (h : Ordered tokens) :
    tokens.Pairwise (·.start < ·.start) := by
  refine h.apart.imp_of_mem ?_
  intro first second hfirst _ hle
  exact Nat.lt_of_lt_of_le (h.nonempty first hfirst) hle

theorem locate_split {start : Nat} {parts : List Piece} {before after : List Token}
    {token : Token} (h : locate start parts = before ++ token :: after) :
    ∃ first second, parts = first ++ .lexeme token.kind token.text :: second ∧
      token.start = start + Source.bytesOf (first.flatMap Piece.text) ∧
      after = locate token.stop second := by
  induction parts generalizing start before with
  | nil => simp [locate] at h
  | cons piece parts ih =>
      have hlater : ∀ {before}, locate (start + Source.bytesOf piece.text) parts =
          before ++ token :: after → ∃ first second,
            piece :: parts = first ++ .lexeme token.kind token.text :: second ∧
            token.start = start + Source.bytesOf (first.flatMap Piece.text) ∧
            after = locate token.stop second := by
        intro before hrest
        obtain ⟨first, second, rfl, hstart, hafter⟩ := ih hrest
        refine ⟨piece :: first, second, rfl, ?_, hafter⟩
        rw [hstart, List.flatMap_cons, Source.bytesOf_append, Nat.add_assoc]
      cases piece with
      | lexeme kind text =>
          cases before with
          | nil =>
              simp only [locate, List.nil_append, List.cons.injEq] at h
              obtain ⟨rfl, rfl⟩ := h
              exact ⟨[], parts, rfl, by simp, rfl⟩
          | cons head before =>
              simp only [locate, List.cons_append, List.cons.injEq] at h
              exact hlater h.2
      | blank c => exact hlater h
      | opening hashes => exact hlater h
      | closing => exact hlater h

theorem le_start_of_mem_locate {start : Nat} {parts : List Piece} {token : Token}
    (h : token ∈ locate start parts) : start ≤ token.start := by
  obtain ⟨before, after, hsplit⟩ := List.append_of_mem h
  obtain ⟨first, -, -, hstart, -⟩ := locate_split hsplit
  omega

theorem ordered_locate {start : Nat} {parts : List Piece}
    (h : ∀ piece ∈ parts, piece.text ≠ []) : Ordered (locate start parts) := by
  constructor
  · intro token htoken
    obtain ⟨before, after, hsplit⟩ := List.append_of_mem htoken
    obtain ⟨first, second, rfl, -, -⟩ := locate_split hsplit
    have hpos := Source.bytesOf_pos (h (.lexeme token.kind token.text) (by simp))
    simp only [Piece.text] at hpos
    rw [stop_eq]
    omega
  · clear h
    induction parts generalizing start with
    | nil => exact List.Pairwise.nil
    | cons piece parts ih =>
        cases piece with
        | lexeme kind text =>
            exact List.Pairwise.cons (fun token htoken => le_start_of_mem_locate htoken) ih
        | blank c => exact ih
        | opening hashes => exact ih
        | closing => exact ih

theorem locate_blanks (blanks : List Char) (start : Nat) (parts : List Piece) :
    locate start (blanks.map Piece.blank ++ parts) =
      locate (start + Source.bytesOf blanks) parts := by
  induction blanks generalizing start with
  | nil => simp
  | cons c blanks ih =>
      rw [List.map_cons, List.cons_append, locate, ih, Source.bytesOf_cons, Nat.add_assoc]
      · simp [Piece.text]
      · simp

theorem ordered_tokens (text : List Char) : Ordered (tokens text) :=
  ordered_locate fun _ hpiece => text_ne_nil_of_mem_piecesFrom hpiece

end CaptureLint.Token

namespace CaptureLint.Source

open Token

variable {source : Source}

theorem ordered_tokens (source : Source) : Ordered source.tokens :=
  Token.ordered_tokens source.chars

theorem exists_excerpt_of_mem_tokens {token : Token} (h : token ∈ source.tokens) :
    ∃ before after, source.chars = before ++ token.text ++ after ∧
      token.start = bytesOf before := by
  obtain ⟨left, right, hsplit⟩ := List.append_of_mem h
  obtain ⟨first, second, hparts, hstart, -⟩ := locate_split hsplit
  refine ⟨first.flatMap Piece.text, second.flatMap Piece.text, ?_, by simpa using hstart⟩
  rw [← flatMap_text_pieces source.chars, hparts]
  simp [Piece.text]

theorem isBoundary_of_mem_tokens {token : Token} (h : token ∈ source.tokens) :
    source.IsBoundary token.start ∧ source.IsBoundary token.stop := by
  obtain ⟨before, after, hchars, hstart⟩ := exists_excerpt_of_mem_tokens h
  refine ⟨⟨before, token.text ++ after, by rw [hchars, List.append_assoc], hstart⟩,
    ⟨before ++ token.text, after, hchars, ?_⟩⟩
  rw [token.stop_eq, hstart, bytesOf_append]

theorem stop_le_byteLength (source : Source) {token : Token} (h : token ∈ source.tokens) :
    token.stop ≤ source.byteLength := by
  obtain ⟨before, after, hchars, hstop⟩ := (isBoundary_of_mem_tokens h).2
  rw [hstop, byteLength, hchars, bytesOf_append]
  exact Nat.le_add_right _ _

/-- When only blanks separate a token that is no part of a string literal from a `[`, this bracket
is the next token. -/
theorem tokens_square_after {left right : List Token} {token : Token}
    {before blanks rest : List Char} (htokens : source.tokens = left ++ token :: right)
    (hkind : token.kind ≠ .string)
    (hchars : source.chars = before ++ token.text ++ (blanks ++ '[' :: rest))
    (hstart : token.start = bytesOf before) (hblank : Text.allBlank blanks = true) :
    ∃ later, right = ⟨.punctuation, token.stop + bytesOf blanks, ['[']⟩ :: later := by
  obtain ⟨first, second, hparts, hfirst, rfl⟩ := locate_split htokens
  have htext : source.chars =
      first.flatMap Piece.text ++ (token.text ++ second.flatMap Piece.text) := by
    rw [← flatMap_text_pieces source.chars, hparts]
    simp [Piece.text]
  -- the text after the token is the text of the pieces after it
  have hsecond : second.flatMap Piece.text = blanks ++ '[' :: rest := by
    rw [List.append_assoc] at hchars
    have hunique := excerpt_unique htext hchars (by rw [← hstart, hfirst, Nat.zero_add])
    exact List.append_cancel_left hunique.2
  obtain ⟨inner, hinner⟩ := piecesFrom_after_lexeme hkind hparts
  obtain ⟨last, hlast⟩ := piecesFrom_blanks inner (some (.lexeme token.kind token.text))
    ('[' :: rest) hblank
  obtain ⟨after, hafter⟩ := piecesFrom_square inner last rest
  rw [hsecond, hlast, hafter] at hinner
  rw [hinner, locate_blanks]
  exact ⟨_, rfl⟩

end CaptureLint.Source
