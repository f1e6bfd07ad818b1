import CaptureLint.Proofs.Token.Veil

/-!
# Comments among the pieces of a text

A step that is no comment does not depend on the comments behind it, and a comment that is blanked
out leaves blanks, after which reading goes on as it does after the comment.  So the pieces of a text
whose comments are blanked out are its own, with blanks in the place of the comments.
-/

namespace CaptureLint.Token

variable {c : Char} {text text' tail tail' : List Char} {opened : List Interpolation}
  {before before' : Option Piece} {delimiter : Delimiter}

/-! ## Segments of string literals -/

theorem Veils.escapes (h : Veils text text') (delimiter : Delimiter) :
    delimiter.escapes text' = delimiter.escapes text := by
  rw [Delimiter.escapes, Delimiter.escapes, h.takeWhile (by decide) (by decide)]

theorem Veils.interpolates (h : Veils text text') (delimiter : Delimiter) :
    delimiter.interpolates text' = delimiter.interpolates text := by
  rw [Delimiter.interpolates, Delimiter.interpolates, h.escapes]
  cases hescapes : delimiter.escapes text with
  | false => rfl
  | true =>
      -- the bracket is looked for right after the number signs
      have hsame := h.escapes delimiter
      rw [hescapes] at hsame
      rw [Delimiter.escapes, beq_iff_eq] at hescapes hsame
      have hround := h.getElem?_takeWhile (p := (· == '#')) (c := '(') (by decide) (by decide)
        (by decide) (by decide)
      rw [hescapes, hsame] at hround
      rw [Bool.true_and, Bool.true_and, Bool.eq_iff_iff, beq_iff_eq, beq_iff_eq]
      exact hround

theorem Veils.closing (h : Veils text text') (delimiter : Delimiter) :
    delimiter.closing.isPrefixOf text' = delimiter.closing.isPrefixOf text := by
  have hsigns : ∀ d ∈ delimiter.closing, d = '"' ∨ d = '#' := by
    intro d hd
    rw [Delimiter.closing, List.mem_append] at hd
    exact hd.imp List.eq_of_mem_replicate List.eq_of_mem_replicate
  refine h.isPrefixOf (fun hmem => ?_) fun hmem => ?_
  · rcases hsigns _ hmem with heq | heq <;> cases heq
  · rcases hsigns _ hmem with heq | heq <;> cases heq

def segmentTaken (delimiter : Delimiter) : Nat × SegmentEnd → Nat
  | (length, .interpolation) => length + delimiter.hashes + 2
  | (length, _) => length

theorem segmentTaken_succ (delimiter : Delimiter) (length : Nat) (ending : SegmentEnd) :
    segmentTaken delimiter (length + 1, ending) = segmentTaken delimiter (length, ending) + 1 := by
  cases ending with
  | interpolation =>
      simp only [segmentTaken]
      omega
  | closed | broken => rfl

theorem segment_succ (delimiter : Delimiter) (escaped : Nat) (c : Char) (text : List Char) :
    segment delimiter (escaped + 1) (c :: text) =
      ((segment delimiter escaped text).1 + 1, (segment delimiter escaped text).2) := rfl

theorem width_pos (delimiter : Delimiter) : 0 < delimiter.width := by
  simp only [Delimiter.width, Delimiter.quotes]
  split <;> omega

/-- A segment that is over at the start of a step is over there in veiled text. -/
theorem Veils.segment_nil (h : Veils tail tail') (escaped : Nat)
    (htaken : segmentTaken delimiter (Token.segment delimiter escaped tail) = 0) :
    Token.segment delimiter escaped tail' = Token.segment delimiter escaped tail := by
  have hnext : ∀ {length : Nat} {ending : SegmentEnd},
      segmentTaken delimiter (length + 1, ending) ≠ 0 := by
    intro length ending
    rw [segmentTaken_succ]
    omega
  have hwidth := width_pos delimiter
  cases h with
  | nil => rfl
  | @same c text text' h =>
      cases escaped with
      | succ escaped => exact absurd htaken hnext
      | zero =>
          rw [Token.segment] at htaken
          split at htaken
          · simp [segmentTaken] at htaken
          · split at htaken
            · simp only [segmentTaken] at htaken
              omega
            · split at htaken
              · rename_i hline
                obtain ⟨rfl, hone⟩ := hline
                simp [Token.segment, hone]
              · exact absurd htaken hnext
  | comment =>
      cases escaped with
      | succ escaped => exact absurd htaken hnext
      | zero =>
          rw [Token.segment, if_neg (by simp), if_neg (by simp), if_neg (by simp)] at htaken
          exact absurd htaken hnext

/-- A segment that ends with a step is the same in front of veiled text. -/
theorem Veils.segment (h : Veils tail tail') (escaped : Nat) (text : List Char)
    (htaken : segmentTaken delimiter (Token.segment delimiter escaped (text ++ tail)) ≤
      text.length) :
    Token.segment delimiter escaped (text ++ tail') =
      Token.segment delimiter escaped (text ++ tail) := by
  induction text generalizing escaped with
  | nil => exact h.segment_nil escaped (Nat.le_zero.mp htaken)
  | cons c text ih =>
      have hgo : ∀ escaped, segmentTaken delimiter
          ((Token.segment delimiter escaped (text ++ tail)).1 + 1,
            (Token.segment delimiter escaped (text ++ tail)).2) ≤ text.length + 1 →
          Token.segment delimiter escaped (text ++ tail') =
            Token.segment delimiter escaped (text ++ tail) := by
        intro escaped hle
        rw [segmentTaken_succ] at hle
        exact ih escaped (Nat.le_of_succ_le_succ hle)
      rw [List.cons_append] at htaken ⊢
      cases escaped with
      | succ escaped =>
          rw [List.cons_append, segment_succ, segment_succ, hgo escaped htaken]
      | zero =>
          have hrest := h.append text
          rw [List.cons_append, Token.segment, Token.segment, hrest.interpolates,
            (Veils.same c hrest).closing, hrest.escapes]
          rw [Token.segment] at htaken
          split
          · rfl
          · rename_i hopen
            rw [if_neg hopen] at htaken
            split
            · rfl
            · rename_i hclosed
              rw [if_neg hclosed] at htaken
              split
              · rfl
              · rename_i hline
                rw [if_neg hline] at htaken
                dsimp only
                rw [hgo _ htaken]

theorem cutSegment_taken (delimiter : Delimiter) (opened : List Interpolation)
    (lead text : List Char) :
    (cutSegment delimiter opened lead text).2.2 =
      segmentTaken delimiter (segment delimiter 0 text) := by
  rcases hsegment : segment delimiter 0 text with ⟨length, ending⟩
  cases ending with
  | interpolation | closed | broken => simp only [cutSegment, hsegment, segmentTaken]

theorem le_segmentTaken (delimiter : Delimiter) (found : Nat × SegmentEnd) :
    found.1 ≤ segmentTaken delimiter found := by
  rcases found with ⟨length, ending⟩
  cases ending with
  | interpolation =>
      simp only [segmentTaken]
      omega
  | closed | broken => exact Nat.le_refl _

theorem Veils.cutSegment (h : Veils tail tail') (opened : List Interpolation)
    (lead text : List Char)
    (htaken : (cutSegment delimiter opened lead (text ++ tail)).2.2 = text.length) :
    cutSegment delimiter opened lead (text ++ tail') =
      cutSegment delimiter opened lead (text ++ tail) := by
  rw [cutSegment_taken] at htaken
  have hsegment := h.segment 0 text (Nat.le_of_eq htaken)
  have hle := le_segmentTaken delimiter (Token.segment delimiter 0 (text ++ tail))
  rw [htaken] at hle
  simp only [Token.cutSegment, hsegment, List.take_append_of_le_length hle]

/-! ## Steps -/

theorem startsComment_iff {rest : List Char} :
    startsComment (c :: rest) = true ↔
      c = '/' ∧ (rest.head? = some '/' ∨ rest.head? = some '*') := by
  simp [startsComment, opensComment]

theorem cut_of_startsComment (opened : List Interpolation) (before : Option Piece)
    {rest : List Char} (h : startsComment (c :: rest) = true) :
    c = '/' ∧ ∃ sign body, (sign = '/' ∨ sign = '*') ∧
      (cut opened before c rest).pieces = [.lexeme .comment ('/' :: sign :: body)] ∧
      (cut opened before c rest).opened = opened := by
  obtain ⟨rfl, hsign⟩ := startsComment_iff.mp h
  have hcode : IsCode opened '/' := ⟨by decide, fun _ _ heq => by cases heq⟩
  have hopening : Delimiter.opening? ('/' :: rest) = none :=
    opening?_of_ne 0 (by decide) (by decide) rest
  refine ⟨rfl, ?_⟩
  rw [hcode.cut_lexeme before hopening]
  dsimp only
  rw [if_neg (by decide), if_neg (by decide)]
  cases rest with
  | nil => simp at hsign
  | cons sign rest =>
      rcases hsign with hsign | hsign
      · obtain rfl : sign = '/' := Option.some.inj hsign
        rw [lexemeAt, if_pos ⟨rfl, rfl⟩]
        exact ⟨'/', rest.take (lineLength rest), .inl rfl, rfl, rfl⟩
      · obtain rfl : sign = '*' := Option.some.inj hsign
        rw [lexemeAt, if_neg (by simp), if_pos ⟨rfl, rfl⟩, Nat.add_comm]
        exact ⟨'*', rest.take (blockCommentLength 1 rest), .inr rfl, rfl, rfl⟩

theorem not_comment_of_mem_cut {rest literal : List Char}
    (h : startsComment (c :: rest) = false) :
    .lexeme .comment literal ∉ (cut opened before c rest).pieces := by
  intro hmem
  have hcut := pieces_cut_eq_singleton (by decide) hmem
  obtain ⟨hslash, hsign⟩ := lexemeAt_comment (lexemeAt_of_cut (by decide) hcut).1
  rw [startsComment_iff.mpr ⟨hslash, hsign.imp And.left And.left⟩] at h
  cases h

/-- A step that is no comment is the same in front of veiled text. -/
theorem VeilsAt.cut (h : VeilsAt tail tail') {text : List Char}
    (hbound : before'.any Piece.takesSuffix = before.any Piece.takesSuffix)
    (hcode : startsComment (c :: (text ++ tail)) = false)
    (htaken : (cut opened before c (text ++ tail)).taken = text.length) :
    cut opened before' c (text ++ tail') = cut opened before c (text ++ tail) := by
  have hveils := (h.veils.append text).same c
  rcases char_cases opened c with hblank | ⟨delimiter, outer, rfl, rfl⟩ | hread
  · rw [cut_blank _ _ _ hblank, cut_blank _ _ _ hblank]
  · rw [cut_closing] at htaken
    rw [cut_closing, cut_closing, h.veils.cutSegment outer [] text htaken]
  · cases hopening : Delimiter.opening? (c :: (text ++ tail)) with
    | none =>
        rw [hread.cut_lexeme before hopening] at htaken ⊢
        rw [hread.cut_lexeme before' (hveils.opening?.trans hopening), hbound]
        rcases hlexeme : Token.lexemeAt (before.any Piece.takesSuffix) c (text ++ tail) with
          ⟨kind, length⟩
        rw [hlexeme] at htaken
        obtain rfl : length = text.length := htaken
        have hkind : kind ≠ .comment := by
          rintro rfl
          obtain ⟨hslash, hsign⟩ := lexemeAt_comment hlexeme
          rw [startsComment_iff.mpr ⟨hslash, hsign.imp And.left And.left⟩] at hcode
          cases hcode
        dsimp only
        rw [h.lexemeAt hkind hlexeme, List.take_left, List.take_left]
    | some delimiter =>
        have hwidth := width_pos delimiter
        rw [hread.cut_opening before hopening] at htaken ⊢
        rw [hread.cut_opening before' (hveils.opening?.trans hopening)]
        have hwhole : (Token.cutSegment delimiter opened ((c :: (text ++ tail)).take delimiter.width)
            ((c :: (text ++ tail)).drop delimiter.width)).2.2 + delimiter.width - 1 =
              text.length := htaken
        have hle : delimiter.width ≤ (c :: text).length := by
          rw [List.length_cons]
          omega
        have hlength : ((c :: text).drop delimiter.width).length + delimiter.width =
            text.length + 1 := by
          rw [List.length_drop, List.length_cons]
          rw [List.length_cons] at hle
          omega
        simp only [← List.cons_append, List.take_append_of_le_length hle,
          List.drop_append_of_le_length hle] at hwhole ⊢
        rw [h.veils.cutSegment opened _ _ (by omega)]

/-! ## Pieces -/

/-- What a piece becomes when comments are blanked out. -/
def Piece.veiled : Piece → List Piece
  | lexeme .comment text => (veil text).map blank
  | piece => [piece]

/-- The text of some pieces with the comments among them blanked out. -/
def veiledText (parts : List Piece) : List Char := (parts.flatMap Piece.veiled).flatMap Piece.text

theorem veiledText_append (first second : List Piece) :
    veiledText (first ++ second) = veiledText first ++ veiledText second := by
  rw [veiledText, List.flatMap_append, List.flatMap_append]
  rfl

theorem flatMap_text_blanks (blanks : List Char) :
    (blanks.map Piece.blank).flatMap Piece.text = blanks := by
  induction blanks with
  | nil => rfl
  | cons c blanks ih => rw [List.map_cons, List.flatMap_cons, ih]; rfl

theorem veiledText_comment (text : List Char) : veiledText [.lexeme .comment text] = veil text := by
  rw [veiledText, List.flatMap_singleton, Piece.veiled, flatMap_text_blanks]

theorem veiled_of_code {piece : Piece} (h : ∀ literal, piece ≠ .lexeme .comment literal) :
    piece.veiled = [piece] := by
  unfold Piece.veiled
  split
  · exact absurd rfl (h _)
  · rfl

theorem flatMap_veiled_of_code {parts : List Piece}
    (h : ∀ literal, .lexeme .comment literal ∉ parts) : parts.flatMap Piece.veiled = parts := by
  induction parts with
  | nil => rfl
  | cons piece parts ih =>
      have hpiece : piece.veiled = [piece] := by
        refine veiled_of_code fun literal heq => h literal ?_
        rw [heq]
        exact List.mem_cons_self
      rw [List.flatMap_cons, hpiece, ih fun literal hmem => h literal (List.mem_cons_of_mem _ hmem)]
      rfl

/-- After blanks, reading goes on as at the start of a text. -/
theorem piecesFrom_blanks_code (opened : List Interpolation) (before : Option Piece)
    {blanks : List Char} (text : List Char) (h : Text.allBlank blanks = true) (hne : blanks ≠ []) :
    piecesFrom opened before (blanks ++ text) =
      blanks.map Piece.blank ++ piecesFrom opened none text := by
  induction blanks generalizing before with
  | nil => exact absurd rfl hne
  | cons c blanks ih =>
      simp only [Text.allBlank, List.all_cons, Bool.and_eq_true] at h
      rw [List.cons_append, piecesFrom_cons, cut_blank _ _ _ h.1]
      by_cases hlast : blanks = []
      · subst hlast
        exact congrArg (Piece.blank c :: ·)
          (piecesFrom_code_start opened (some (.blank c)) none text rfl)
      · exact congrArg (Piece.blank c :: ·) (ih (some (.blank c)) h.2 hlast)

theorem exists_step (opened : List Interpolation) (before : Option Piece) (c : Char)
    (rest : List Char) : ∃ taken, rest = taken ++ rest.drop (cut opened before c rest).taken ∧
      (cut opened before c rest).pieces.flatMap Piece.text = c :: taken ∧
      (rest.drop (cut opened before c rest).taken ≠ [] →
        (cut opened before c rest).taken = taken.length) := by
  have htext := flatMap_text_cut opened before c rest
  have hlength := congrArg List.length htext
  rw [List.length_append, List.length_drop, List.length_cons] at hlength
  cases hpieces : (cut opened before c rest).pieces.flatMap Piece.text with
  | nil =>
      rw [hpieces, List.length_nil] at hlength
      omega
  | cons d taken =>
      rw [hpieces, List.cons_append, List.cons.injEq] at htext
      obtain ⟨rfl, hrest⟩ := htext
      refine ⟨taken, hrest.symm, rfl, fun hne => ?_⟩
      rw [ne_eq, List.drop_eq_nil_iff] at hne
      rw [hpieces, List.length_cons] at hlength
      omega

theorem veilsAt_piecesFrom (opened : List Interpolation) (before : Option Piece)
    (text : List Char) : VeilsAt text (veiledText (piecesFrom opened before text)) := by
  induction opened, before, text using piecesFrom.induct with
  | case1 =>
      rw [piecesFrom_nil]
      exact ⟨.nil, fun h => by cases h⟩
  | case2 opened before c rest _ ih =>
      obtain ⟨taken, hrest, htaken, -⟩ := exists_step opened before c rest
      rw [piecesFrom_cons, veiledText_append]
      by_cases hcomment : startsComment (c :: rest) = true
      · obtain ⟨rfl, sign, body, hsign, hpieces, -⟩ :=
          cut_of_startsComment opened before hcomment
        obtain rfl : sign :: body = taken := by simpa [hpieces, Piece.text] using htaken
        have hveils := Veils.comment hsign body ih.veils
        rw [← hrest] at hveils
        have hliteral : veiledText (cut opened before '/' rest).pieces =
            ' ' :: veil (sign :: body) := by
          rw [hpieces, veiledText_comment]
          rfl
        rw [hliteral]
        exact ⟨hveils, fun _ => rfl⟩
      · have hcode : ∀ literal, .lexeme .comment literal ∉ (cut opened before c rest).pieces :=
          fun literal => not_comment_of_mem_cut (by simpa using hcomment)
        have hveils := ih.veils.append (c :: taken)
        rw [List.cons_append, ← hrest] at hveils
        rw [veiledText, flatMap_veiled_of_code hcode, htaken]
        exact ⟨hveils, fun h => absurd h hcomment⟩

theorem cut_veiledText {rest : List Char}
    (hbound : before'.any Piece.takesSuffix = before.any Piece.takesSuffix)
    (hcode : startsComment (c :: rest) = false) {taken : List Char}
    (htaken : (cut opened before c rest).pieces.flatMap Piece.text = c :: taken)
    (h : VeilsAt (rest.drop (cut opened before c rest).taken) tail') :
    cut opened before' c (taken ++ tail') = cut opened before c rest ∧
      (taken ++ tail').drop (cut opened before c rest).taken = tail' := by
  obtain ⟨other, hrest, hother, hlength⟩ := exists_step opened before c rest
  obtain rfl : other = taken := (List.cons.inj (hother.symm.trans htaken)).2
  have hcut : cut opened before' c (other ++ tail') = cut opened before c rest := by
    by_cases hend : rest.drop (cut opened before c rest).taken = []
    · -- nothing is left, and nothing is veiled
      have hnil : tail' = [] := by
        rw [hend] at h
        cases h.veils
        rfl
      rw [hend, List.append_nil] at hrest
      rw [hnil, List.append_nil, ← hrest]
      unfold cut
      rw [hbound]
    · have hlength := hlength hend
      rw [hrest] at hcode hlength
      generalize hleft : rest.drop (cut opened before c rest).taken = left at h hrest hcode hlength
      rw [hrest]
      exact h.cut hbound hcode hlength
  refine ⟨hcut, ?_⟩
  obtain ⟨again, hagain, hsame, -⟩ := exists_step opened before' c (other ++ tail')
  rw [hcut] at hagain hsame
  obtain rfl : again = other := (List.cons.inj (hsame.symm.trans htaken)).2
  exact (List.append_cancel_left hagain).symm

/-- The pieces of a text whose comments are blanked out are its own, with blanks for comments. -/
theorem piecesFrom_veiledText (opened : List Interpolation) (before before' : Option Piece)
    (text : List Char) (hbound : before'.any Piece.takesSuffix = before.any Piece.takesSuffix) :
    piecesFrom opened before' (veiledText (piecesFrom opened before text)) =
      (piecesFrom opened before text).flatMap Piece.veiled := by
  induction opened, before, text using piecesFrom.induct generalizing before' with
  | case1 =>
      rw [piecesFrom_nil]
      exact piecesFrom_nil _ _
  | case2 opened before c rest found =>
      rename_i ih
      rw [piecesFrom_cons, veiledText_append, List.flatMap_append]
      by_cases hcomment : startsComment (c :: rest) = true
      · obtain ⟨rfl, sign, body, -, hpieces, hopened⟩ :=
          cut_of_startsComment opened before hcomment
        have hlast : (none : Option Piece).any Piece.takesSuffix =
            (cut opened before '/' rest).pieces.getLast?.any Piece.takesSuffix := by
          rw [hpieces]
          rfl
        have hrest := ih none hlast
        have hliteral : veiledText (cut opened before '/' rest).pieces = veil ('/' :: sign :: body) := by
          rw [hpieces, veiledText_comment]
        have hblanks : (cut opened before '/' rest).pieces.flatMap Piece.veiled =
            (veil ('/' :: sign :: body)).map Piece.blank := by
          rw [hpieces, List.flatMap_singleton, Piece.veiled]
        have hne : veil ('/' :: sign :: body) ≠ [] := List.cons_ne_nil ' ' (veil (sign :: body))
        rw [hliteral, hblanks, piecesFrom_blanks_code opened before' _ (allBlank_veil _) hne, ← hrest,
          hopened]
      · have hcode : startsComment (c :: rest) = false := by simpa using hcomment
        obtain ⟨taken, -, htaken, -⟩ := exists_step opened before c rest
        have hkept : (cut opened before c rest).pieces.flatMap Piece.veiled =
            (cut opened before c rest).pieces :=
          flatMap_veiled_of_code fun literal => not_comment_of_mem_cut hcode
        have hveils := veilsAt_piecesFrom (cut opened before c rest).opened
          (cut opened before c rest).pieces.getLast? (rest.drop (cut opened before c rest).taken)
        obtain ⟨hcut, hleft⟩ := cut_veiledText hbound hcode htaken hveils
        have hrest := ih _ rfl
        rw [hkept, veiledText, hkept, htaken, List.cons_append, piecesFrom_cons, hcut, hleft, hrest]

/-! ## Tokens -/

theorem locate_veiled (start : Nat) (parts : List Piece) :
    locate start (parts.flatMap Piece.veiled) =
      (locate start parts).filter (!·.kind.isTrivia) := by
  induction parts generalizing start with
  | nil => rfl
  | cons piece parts ih =>
      rw [List.flatMap_cons]
      by_cases hcomment : ∃ text, piece = .lexeme .comment text
      · obtain ⟨text, rfl⟩ := hcomment
        rw [Piece.veiled, locate_blanks, bytesOf_veil, ih, locate,
          List.filter_cons_of_neg (by simp [TokenKind.isTrivia])]
      · have hkept := veiled_of_code fun literal heq => hcomment ⟨literal, heq⟩
        rw [hkept, List.singleton_append]
        cases piece with
        | lexeme kind text =>
            have hkind : kind.isTrivia = false := by
              cases kind with
              | comment => exact absurd ⟨text, rfl⟩ hcomment
              | _ => rfl
            rw [locate, locate, ih, List.filter_cons_of_pos (by simp [hkind])]
        | blank c => exact ih _
        | opening hashes => exact ih _
        | closing => exact ih _

/-- Blanking out the comments takes their tokens away and leaves the others where they are. -/
theorem tokens_veiledText (text : List Char) :
    tokens (veiledText (pieces text)) = (tokens text).filter (!·.kind.isTrivia) := by
  rw [tokens, pieces, pieces, piecesFrom_veiledText [] none none text rfl, locate_veiled]
  rfl

end CaptureLint.Token
