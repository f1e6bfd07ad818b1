import CaptureLint.Proofs.Token.Stop

/-!
# Tokens of joined texts

A text that leaves no string, comment or interpolation open can be followed by a newline and any
other text: the tokens of both are found.  What is left open shows when a closing bracket is
written on the next line: a string or comment takes it up, and an interpolation is closed by it or
has brackets open.
-/

namespace CaptureLint.Token

variable {opened outer : List Interpolation} {before : Option Piece} {c : Char}
  {text rest lead : List Char} {past first second : List Piece}

/-! ## Places of joined pieces -/

theorem locate_append (start : Nat) (first second : List Piece) :
    locate start (first ++ second) =
      locate start first ++ locate (start + Source.bytesOf (first.flatMap Piece.text)) second := by
  induction first generalizing start with
  | nil => simp [locate]
  | cons piece first ih =>
      cases piece <;> simp [locate, ih, Source.bytesOf_append, Piece.text, Nat.add_assoc]

theorem locate_add (start distance : Nat) (parts : List Piece) :
    locate (start + distance) parts = (locate start parts).map (·.shift distance) := by
  induction parts generalizing start with
  | nil => rfl
  | cons piece parts ih =>
      have hstep : ∀ bytes, locate (start + distance + bytes) parts =
          (locate (start + bytes) parts).map (·.shift distance) := by
        intro bytes
        rw [← ih, Nat.add_right_comm]
      cases piece <;> simp [locate, hstep, shift]

theorem countP_locate (start : Nat) (parts : List Piece) (sign : String) :
    (locate start parts).countP (·.isPunctuation sign) =
      parts.count (.lexeme .punctuation sign.toList) := by
  induction parts generalizing start with
  | nil => rfl
  | cons piece parts ih =>
      cases piece with
      | lexeme kind text =>
          rw [locate, List.countP_cons, List.count_cons, ih]
          simp [isPunctuation, spells]
      | blank c => rw [locate, List.count_cons_of_ne (by simp), ih]; simp
      | opening hashes => rw [locate, List.count_cons_of_ne (by simp), ih]; simp
      | closing => rw [locate, List.count_cons_of_ne (by simp), ih]; simp

/-! ## Brackets of interpolations -/

/-- The pieces `past` leave the interpolations `opened` open: since the innermost one was opened, the
round brackets opened are those closed and `depth` more. -/
def Leaves : List Interpolation → List Piece → Prop
  | [], _ => True
  | inner :: outer, past => ∃ earlier later, past = earlier ++ later ∧
      later.count (.lexeme .punctuation ['(']) =
        later.count (.lexeme .punctuation [')']) + inner.depth ∧
      Leaves outer earlier

theorem Leaves.append (h : Leaves opened first)
    (hcount : second.count (.lexeme .punctuation ['(']) =
      second.count (.lexeme .punctuation [')'])) : Leaves opened (first ++ second) := by
  cases opened with
  | nil => trivial
  | cons inner outer =>
      obtain ⟨earlier, later, rfl, hdepth, houter⟩ := h
      refine ⟨earlier, later ++ second, List.append_assoc _ _ _, ?_, houter⟩
      rw [List.count_append, List.count_append]
      omega

/-- A segment holds no piece that is a lexeme but no part of a literal. -/
theorem count_cutSegment {kind : TokenKind} (hkind : kind ≠ .string) (literal : List Char)
    (delimiter : Delimiter) (outer : List Interpolation) (lead text : List Char) :
    (cutSegment delimiter outer lead text).1.count (.lexeme kind literal) = 0 := by
  rw [List.count_eq_zero]
  intro hmem
  rcases mem_cutSegment hmem with ⟨other, heq, -⟩ | ⟨hashes, heq⟩
  · exact hkind (Piece.lexeme.inj heq).1
  · cases heq

theorem opened_cutSegment (delimiter : Delimiter) (outer : List Interpolation)
    (lead text : List Char) :
    (cutSegment delimiter outer lead text).2.1 = outer ∨
      (cutSegment delimiter outer lead text).2.1 = ⟨delimiter, 0⟩ :: outer := by
  rcases hsegment : segment delimiter 0 text with ⟨length, ending⟩
  cases ending with
  | interpolation => exact .inr (by rw [cutSegment, hsegment])
  | closed | broken => exact .inl (by rw [cutSegment, hsegment])

theorem Leaves.cutSegment (delimiter : Delimiter) (lead text : List Char)
    (h : Leaves outer past) :
    Leaves (cutSegment delimiter outer lead text).2.1
      (past ++ (cutSegment delimiter outer lead text).1) := by
  have hkind : TokenKind.punctuation ≠ .string := by decide
  have hpast := h.append ((count_cutSegment hkind ['('] delimiter outer lead text).trans
    (count_cutSegment hkind [')'] delimiter outer lead text).symm)
  rcases opened_cutSegment delimiter outer lead text with hopened | hopened
  · rw [hopened]
    exact hpast
  · rw [hopened]
    exact ⟨_, [], (List.append_nil _).symm, rfl, hpast⟩

theorem Leaves.lexeme {kind : TokenKind} {literal : List Char} (h : Leaves opened past)
    (hcode : IsCode opened c)
    (hround : c = '(' ∨ c = ')' → kind = .punctuation ∧ literal = []) :
    Leaves
      (if c = '(' then bracketOpened opened else if c = ')' then bracketClosed opened else opened)
      (past ++ [.lexeme kind (c :: literal)]) := by
  cases opened with
  | nil => simp [bracketOpened, bracketClosed, Leaves]
  | cons inner outer =>
      obtain ⟨earlier, later, rfl, hdepth, houter⟩ := id h
      by_cases hopen : c = '('
      · obtain ⟨rfl, rfl⟩ := hround (.inl hopen)
        subst hopen
        refine ⟨earlier, later ++ [_], List.append_assoc _ _ _, ?_, houter⟩
        simp
        omega
      by_cases hclose : c = ')'
      · -- the bracket closes one in the interpolation, or it would close the interpolation
        have hpos : inner.depth ≠ 0 := by
          intro hzero
          exact hcode.inside inner.delimiter outer hclose (by rw [← hzero])
        obtain ⟨rfl, rfl⟩ := hround (.inr hclose)
        subst hclose
        refine ⟨earlier, later ++ [_], List.append_assoc _ _ _, ?_, houter⟩
        simp
        omega
      · rw [if_neg hopen, if_neg hclose]
        exact h.append (by simp [hopen, hclose])

theorem Leaves.cut (before : Option Piece) (c : Char) (rest : List Char) (h : Leaves opened past) :
    Leaves (cut opened before c rest).opened (past ++ (cut opened before c rest).pieces) := by
  rcases char_cases opened c with hblank | ⟨delimiter, outer, rfl, rfl⟩ | hcode
  · rw [cut_blank _ _ _ hblank]
    exact h.append (by simp)
  · obtain ⟨earlier, later, rfl, hdepth, houter⟩ := h
    have hclosed : Leaves outer (earlier ++ (later ++ [.closing])) :=
      houter.append (by simpa using hdepth)
    rw [cut_closing]
    simpa using hclosed.cutSegment delimiter [] rest
  · cases hopening : Delimiter.opening? (c :: rest) with
    | none =>
        rw [hcode.cut_lexeme before hopening]
        refine h.lexeme hcode ?_
        rintro (rfl | rfl) <;> exact ⟨rfl, rfl⟩
    | some delimiter =>
        rw [hcode.cut_opening before hopening]
        exact h.cutSegment delimiter _ _

/-! ## Pieces of joined texts -/

/-- A text in front of a stop is cut as it is without it, or a lexeme straddles the stop, whatever
follows. -/
theorem piecesFrom_append_stop {lone : Prop} (sign : Char)
    (hlone : .lexeme .punctuation ['\x60'] ∈ piecesFrom opened before text → lone)
    (h : Leaves opened past) :
    (∃ opened' before', Leaves opened' (past ++ piecesFrom opened before text) ∧
      ∀ tail, Stop lone sign tail → piecesFrom opened before (text ++ sign :: tail) =
        piecesFrom opened before text ++ piecesFrom opened' before' (sign :: tail)) ∨
    ∀ tail, Stop lone sign tail →
      Straddles text.length (piecesFrom opened before (text ++ sign :: tail)) := by
  induction opened, before, text using piecesFrom.induct generalizing past with
  | case1 opened before =>
      rw [piecesFrom_nil, List.append_nil]
      exact .inl ⟨opened, before, h, fun _ _ => rfl⟩
  | case2 opened before c rest found =>
      rename_i ih
      rw [piecesFrom_cons, List.mem_append] at hlone
      rcases cut_append_stop sign fun hmem => hlone (.inl hmem) with ⟨hle, hsame⟩ | hstraddles
      · have hcons : ∀ tail, Stop lone sign tail →
            piecesFrom opened before (c :: rest ++ sign :: tail) = found.pieces ++
              piecesFrom found.opened found.pieces.getLast?
                (rest.drop found.taken ++ sign :: tail) := by
          intro tail hstop
          rw [List.cons_append, piecesFrom_cons, hsame tail hstop,
            List.drop_append_of_le_length hle]
        rw [piecesFrom_cons opened before c rest, ← List.append_assoc]
        rcases ih (fun hmem => hlone (.inr hmem)) (h.cut before c rest) with
          ⟨opened', before', hleaves, hrest⟩ | hstraddles
        · refine .inl ⟨opened', before', hleaves, fun tail hstop => ?_⟩
          rw [hcons tail hstop, hrest tail hstop, ← List.append_assoc]
        · refine .inr fun tail hstop => ?_
          obtain ⟨first, kind, literal, later, hpieces, hle, hkind, hlt⟩ := hstraddles tail hstop
          have hlength : (found.pieces.flatMap Piece.text).length + (rest.drop found.taken).length =
              (c :: rest).length := by
            rw [← List.length_append]
            exact congrArg List.length (flatMap_text_cut opened before c rest)
          refine ⟨found.pieces ++ first, kind, literal, later, ?_, ?_⟩
          · rw [hcons tail hstop, hpieces, List.append_assoc]
          · rw [List.flatMap_append, List.length_append, ← hlength]
            exact ⟨by omega, fun hne => Nat.add_lt_add_left (hkind hne) _, by omega⟩
      · refine .inr fun tail hstop => ?_
        obtain ⟨first, kind, literal, later, hpieces, hbounds⟩ := hstraddles tail hstop
        rw [List.cons_append, piecesFrom_cons, hpieces, List.append_assoc]
        exact ⟨first, kind, literal, _, rfl, hbounds⟩

theorem exists_token_of_mem_pieces {kind : TokenKind} {literal : List Char}
    (h : pieces text = first ++ .lexeme kind literal :: second) :
    ⟨kind, Source.bytesOf (first.flatMap Piece.text), literal⟩ ∈ tokens text := by
  rw [tokens, h, locate_append, Nat.zero_add, locate]
  simp

theorem not_straddles {token : Token} {follow : List Char}
    (hround : token.isPunctuation ")" = true)
    (h : tokens (text ++ follow) = tokens text ++ [token]) :
    ¬ Straddles text.length (pieces (text ++ follow)) := by
  rintro ⟨first, kind, literal, later, hpieces, -, hkind, hlt⟩
  have hmem := exists_token_of_mem_pieces hpieces
  have htext := flatMap_text_pieces (text ++ follow)
  rw [hpieces, List.flatMap_append, List.flatMap_cons] at htext
  rw [h, List.mem_append, List.mem_singleton] at hmem
  rcases hmem with hmem | rfl
  · -- a token of the text ends inside the text
    have hsource : _ ∈ Source.tokens ⟨none, text⟩ := hmem
    obtain ⟨left, right, hchars, hstart⟩ := Source.exists_excerpt_of_mem_tokens hsource
    have hsplit : text = left ++ literal ++ right := hchars
    have hleft : Source.chars ⟨none, text ++ follow⟩ = left ++ (literal ++ right ++ follow) := by
      rw [hsplit]
      simp
    have hfirst := (Source.excerpt_unique hleft htext.symm hstart.symm).1
    have hlength := congrArg List.length hsplit
    rw [← hfirst] at hlt
    simp only [List.length_append] at hlength
    omega
  · -- the bracket is no part of a literal, and it is one character
    simp only [isPunctuation, spells, Bool.and_eq_true, beq_iff_eq] at hround
    obtain ⟨rfl, hliteral⟩ := hround
    obtain rfl : literal = [')'] := hliteral
    have hbefore := hkind (by decide)
    rw [List.length_singleton] at hlt
    omega

/-- A text that opens no bracket without closing it, and after which a closing bracket that would
close an interpolation is a token, leaves nothing open: a text after the stop is cut as ordinary
code. -/
theorem pieces_append_stop {lone : Prop} {token : Token} {sign : Char} {tail : List Char}
    (hlone : .lexeme .punctuation ['\x60'] ∈ pieces text → lone)
    (hclosed : ∀ left right, tokens text = left ++ right →
      right.countP (·.isPunctuation "(") ≤ right.countP (·.isPunctuation ")"))
    (hround : token.isPunctuation ")" = true)
    (h : tokens (text ++ sign :: tail) = tokens text ++ [token]) (hstop : Stop lone sign tail)
    (hnone : ∀ delimiter outer before start,
      locate start (piecesFrom (⟨delimiter, 0⟩ :: outer) before (sign :: tail)) = []) :
    ∃ before, ∀ tail, Stop lone sign tail →
      pieces (text ++ sign :: tail) = pieces text ++ piecesFrom [] before (sign :: tail) := by
  have hleaves : Leaves [] [] := trivial
  rcases piecesFrom_append_stop sign hlone hleaves with
    ⟨opened, before, hleaves, hsame⟩ | hstraddles
  · cases opened with
    | nil => exact ⟨before, hsame⟩
    | cons inner outer =>
        exfalso
        obtain ⟨delimiter, depth⟩ := inner
        cases depth with
        | zero =>
            -- the bracket closes the interpolation and is no token
            rw [tokens, pieces, hsame tail hstop, locate_append, hnone, List.append_nil] at h
            exact absurd (congrArg List.length h) (by simp [tokens, pieces])
        | succ depth =>
            -- a bracket that the interpolation leaves open is not closed in the text
            obtain ⟨earlier, later, hsplit, hdepth, -⟩ := hleaves
            rw [List.nil_append] at hsplit
            have hle := hclosed _ _ (by rw [tokens, pieces, hsplit, locate_append])
            rw [countP_locate, countP_locate] at hle
            have hopened : later.count (.lexeme .punctuation "(".toList) =
                later.count (.lexeme .punctuation ")".toList) + (depth + 1) := hdepth
            omega
  · exact absurd (hstraddles tail hstop) (not_straddles hround h)

theorem pieces_append_newline {token : Token}
    (hclosed : ∀ left right, tokens text = left ++ right →
      right.countP (·.isPunctuation "(") ≤ right.countP (·.isPunctuation ")"))
    (hround : token.isPunctuation ")" = true)
    (h : tokens (text ++ ['\n', ')']) = tokens text ++ [token]) :
    ∃ before, ∀ tail,
      pieces (text ++ '\n' :: tail) = pieces text ++ piecesFrom [] before ('\n' :: tail) := by
  have hnone : ∀ delimiter outer before start,
      locate start (piecesFrom (⟨delimiter, 0⟩ :: outer) before ['\n', ')']) = [] := by
    intro delimiter outer before start
    simp [piecesFrom_cons, piecesFrom_nil, cut_blank, cut_closing, cutSegment, segment, locate,
      show Text.isBlank '\n' = true by decide]
  obtain ⟨before, hsplit⟩ :=
    pieces_append_stop (fun _ => True.intro) hclosed hround h (.newline _) hnone
  exact ⟨before, fun tail => hsplit tail (.newline tail)⟩

/-! ## A semicolon between two texts -/

theorem piecesFrom_code_start (opened : List Interpolation) (before before' : Option Piece)
    (text : List Char) (h : before.any Piece.takesSuffix = before'.any Piece.takesSuffix) :
    piecesFrom opened before text = piecesFrom opened before' text := by
  cases text with
  | nil => rw [piecesFrom_nil, piecesFrom_nil]
  | cons c text =>
      have hcut : cut opened before c text = cut opened before' c text := by
        unfold cut
        rw [h]
      rw [piecesFrom_cons, piecesFrom_cons, hcut]

theorem piecesFrom_newline (opened : List Interpolation) (before : Option Piece) (text : List Char) :
    piecesFrom opened before ('\n' :: text) = .blank '\n' :: piecesFrom opened none text := by
  have hcode := piecesFrom_code_start opened (some (.blank '\n')) none text rfl
  rw [piecesFrom_cons, cut_blank _ _ _ (by decide), List.drop_zero]
  exact congrArg (Piece.blank '\n' :: ·) hcode

theorem piecesFrom_semicolon (before : Option Piece) (text : List Char) :
    piecesFrom [] before (';' :: text) =
      .lexeme .punctuation [';'] :: piecesFrom [] (some (.lexeme .punctuation [';'])) text := by
  have hcut : cut [] before ';' text = ⟨[.lexeme .punctuation [';']], [], 0⟩ := rfl
  rw [piecesFrom_cons, hcut]
  rfl

/-- A semicolon on a line of its own parts the tokens of two texts. -/
theorem tokens_join {first : List Char} {token : Token} (second : List Char)
    (hclosed : ∀ left right, tokens first = left ++ right →
      right.countP (·.isPunctuation "(") ≤ right.countP (·.isPunctuation ")"))
    (hround : token.isPunctuation ")" = true)
    (h : tokens (first ++ ['\n', ')']) = tokens first ++ [token]) :
    tokens (first ++ '\n' :: ';' :: '\n' :: second) =
      tokens first ++ ⟨.punctuation, Source.bytesOf first + 1, [';']⟩ ::
        (tokens second).map (·.shift (Source.bytesOf first + 3)) := by
  obtain ⟨before, hsplit⟩ := pieces_append_newline hclosed hround h
  have hblank : ∀ start parts, locate start (.blank '\n' :: parts) = locate (start + 1) parts :=
    fun _ _ => rfl
  have hsemicolon : ∀ start parts, locate start (.lexeme .punctuation [';'] :: parts) =
      ⟨.punctuation, start, [';']⟩ :: locate (start + 1) parts := fun _ _ => rfl
  have hsecond := locate_add 0 (Source.bytesOf first + 3) (pieces second)
  rw [Nat.zero_add] at hsecond
  rw [tokens, hsplit, piecesFrom_newline, piecesFrom_semicolon, piecesFrom_newline, locate_append,
    flatMap_text_pieces, hblank, hsemicolon, hblank, Nat.zero_add, tokens, tokens, ← hsecond]
  rfl

end CaptureLint.Token
