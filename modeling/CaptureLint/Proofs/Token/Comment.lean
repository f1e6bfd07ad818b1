import CaptureLint.Proofs.Source.Lines
import CaptureLint.Proofs.Token.Stream

/-!
# Line comments

A comment that two slashes open goes on to the end of its line, in interpolations too.  So no two of
them stand on one line.
-/

namespace CaptureLint.Token

variable {opened : List Interpolation} {before : Option Piece} {c : Char} {rest literal : List Char}
  {kind : TokenKind}

/-- A step that gives one lexeme outside of string literals asks `lexemeAt` for it. -/
theorem lexemeAt_of_cut (hkind : kind ≠ .string)
    (h : (cut opened before c rest).pieces = [.lexeme kind literal]) :
    lexemeAt (before.any Piece.takesSuffix) c rest = (kind, (cut opened before c rest).taken) ∧
      literal = c :: rest.take (cut opened before c rest).taken := by
  have hsegment : ∀ {delimiter outer lead body},
      (cutSegment delimiter outer lead body).1 ≠ [.lexeme kind literal] := by
    intro delimiter outer lead body heq
    have hmem : .lexeme kind literal ∈ (cutSegment delimiter outer lead body).1 := by simp [heq]
    rcases mem_cutSegment hmem with ⟨text, htext, -⟩ | ⟨hashes, hopening⟩
    · exact hkind (Piece.lexeme.inj htext).1
    · cases hopening
  unfold cut at h ⊢
  split at h
  · cases h
  · rename_i hblank
    split at h
    · simp at h
    · split at h
      · exact absurd h hsegment
      · simp only [List.cons.injEq, Piece.lexeme.injEq, and_true] at h
        obtain ⟨hfound, rfl⟩ := h
        rw [if_neg hblank]
        exact ⟨Prod.ext hfound rfl, rfl⟩

theorem kind_lexemeAt (bound : Bool) (hline : ¬ (c = '/' ∧ rest.head? = some '/'))
    (hblock : ¬ (c = '/' ∧ rest.head? = some '*')) :
    (lexemeAt bound c rest).1 ∉ [TokenKind.comment, .string] := by
  rw [lexemeAt, if_neg hline, if_neg hblock]
  repeat' refine iteInduction (motive := fun found : TokenKind × Nat =>
    found.1 ∉ [TokenKind.comment, .string]) (fun _ => ?_) fun _ => ?_
  all_goals try exact of_decide_eq_true rfl
  · cases quotedNameLength? rest <;> exact of_decide_eq_true rfl
  · dsimp only
    split <;> exact of_decide_eq_true rfl

/-- A comment starts with two slashes and goes on to the end of the line, or it is a block. -/
theorem lexemeAt_comment {bound : Bool} {length : Nat}
    (h : lexemeAt bound c rest = (.comment, length)) :
    c = '/' ∧
      (rest.head? = some '/' ∧ length = lineLength rest ∨ rest.head? = some '*' ∧ 0 < length) := by
  by_cases hline : c = '/' ∧ rest.head? = some '/'
  · rw [lexemeAt, if_pos hline] at h
    cases h
    exact ⟨hline.1, .inl ⟨hline.2, rfl⟩⟩
  by_cases hblock : c = '/' ∧ rest.head? = some '*'
  · rw [lexemeAt, if_neg hline, if_pos hblock] at h
    cases h
    exact ⟨hblock.1, .inr ⟨hblock.2, by omega⟩⟩
  · have hkind := kind_lexemeAt bound hline hblock
    rw [h] at hkind
    exact absurd List.mem_cons_self hkind

theorem drop_lineLength (text : List Char) :
    text.drop (lineLength text) = [] ∨ (text.drop (lineLength text)).head? = some '\n' := by
  induction text with
  | nil => exact .inl rfl
  | cons c text ih =>
      by_cases hc : c = '\n'
      · exact .inr (by simp [lineLength, hc])
      · have hlength : lineLength (c :: text) = lineLength text + 1 := by simp [lineLength, hc]
        rw [hlength, List.drop_succ_cons]
        exact ih

end CaptureLint.Token

namespace CaptureLint.Source

open Token

variable {source : Source} {token : Token}

/-- A line comment is followed by a newline or by the end of the text. -/
theorem exists_excerpt_of_line_comment {rest : List Char} (h : token ∈ source.tokens)
    (hkind : token.kind = .comment) (htext : token.text = '/' :: '/' :: rest) :
    ∃ before after, source.chars = before ++ token.text ++ after ∧
      token.start = bytesOf before ∧ (after = [] ∨ after.head? = some '\n') := by
  obtain ⟨left, right, hsplit⟩ := List.append_of_mem h
  obtain ⟨first, second, hparts, hstart, -⟩ := locate_split hsplit
  have hcode : token.kind ≠ .string := by simp [hkind]
  obtain ⟨inner, last, c, text, hcut, hsecond⟩ := exists_cut_of_lexeme hcode hparts
  obtain ⟨hlexeme, hliteral⟩ := lexemeAt_of_cut hcode hcut
  have hafter : second.flatMap Piece.text = text.drop (cut inner last c text).taken := by
    rw [hsecond, flatMap_text_piecesFrom]
  refine ⟨first.flatMap Piece.text, second.flatMap Piece.text, ?_, by simpa using hstart, ?_⟩
  · rw [← flatMap_text_pieces source.chars, hparts]
    simp [Piece.text]
  · rw [hafter]
    rw [hkind] at hlexeme
    rcases (lexemeAt_comment hlexeme).2 with ⟨-, hlength⟩ | ⟨hstar, hpos⟩
    · rw [hlength]
      exact drop_lineLength text
    · -- a block comment has a star in second place
      obtain ⟨length, hlength⟩ : ∃ length, (cut inner last c text).taken = length + 1 :=
        ⟨_, (Nat.succ_pred_eq_of_pos hpos).symm⟩
      cases text with
      | nil => cases hstar
      | cons d text =>
          rw [htext, hlength, List.take_succ_cons] at hliteral
          simp only [List.cons.injEq] at hliteral
          simp [← hliteral.2.1] at hstar

/-- Line comments that follow each other stand on different lines. -/
theorem lineOfByte_lt_of_line_comment {later : Token} {rest rest' : List Char}
    (h : token ∈ source.tokens) (hkind : token.kind = .comment)
    (htext : token.text = '/' :: '/' :: rest) (hlater : later ∈ source.tokens)
    (hlaterText : later.text = '/' :: '/' :: rest') (hle : token.stop ≤ later.start) :
    source.lineOfByte token.start < source.lineOfByte later.start := by
  obtain ⟨before, after, hchars, hstart, hafter⟩ := exists_excerpt_of_line_comment h hkind htext
  obtain ⟨before', after', hchars', hstart'⟩ := exists_excerpt_of_mem_tokens hlater
  rw [List.append_assoc] at hchars'
  rw [token.stop_eq, hstart, hstart', ← bytesOf_append] at hle
  obtain ⟨middle, rfl, hmiddle⟩ := excerpt_of_le hchars hchars' hle
  -- the newline stands between the two
  obtain ⟨blank, rfl⟩ : ∃ blank, middle = '\n' :: blank := by
    cases middle with
    | nil =>
        rw [hmiddle, hlaterText] at hafter
        simp at hafter
    | cons c middle =>
        rw [hmiddle] at hafter
        exact ⟨middle, by simpa using hafter⟩
  rw [List.append_assoc] at hchars
  rw [hstart, hstart', lineOfByte_of_excerpt hchars, lineOfByte_of_excerpt hchars']
  simp only [List.count_append, List.count_cons_self]
  omega

end CaptureLint.Source
