import CaptureLint.Proofs.Token.Stop

/-!
# Reading inside the text

Every reader of the lexer stops at the end of the text at the latest, also where a comment, a
literal or an interpolation is not closed.  So the lengths that a step cuts the text by are lengths
of what is there, a step takes at least one character, and the text is read to its end.
-/

namespace CaptureLint.Token

variable {text rest : List Char} {c : Char} {opened : List Interpolation} {before : Option Piece}
  {past : List Piece}

/-! ## Readers -/

theorem blockCommentLength_le (depth : Nat) (text : List Char) :
    blockCommentLength depth text ≤ text.length := by
  fun_induction blockCommentLength depth text with
  | case1 => exact Nat.zero_le _
  | case2 => exact Nat.le_refl _
  | case3 depth text ih =>
      simp only [List.length_cons]
      omega
  | case4 depth text ih =>
      simp only [List.length_cons]
      omega
  | case5 depth c text hopen hclose ih =>
      rw [List.length_cons]
      omega

theorem lexemeAt_le (bound : Bool) (c : Char) (rest : List Char) :
    (lexemeAt bound c rest).2 ≤ rest.length := by
  by_cases hblock : c = '/' ∧ rest.head? = some '*'
  · obtain ⟨rfl, hstar⟩ := hblock
    obtain ⟨text, rfl⟩ := List.head?_eq_some_iff.mp hstar
    have hread : lexemeAt bound '/' ('*' :: text) = (.comment, 1 + blockCommentLength 1 text) := by
      simp [lexemeAt]
    have hle := blockCommentLength_le 1 text
    rw [hread, List.length_cons]
    omega
  · exact length_lexemeAt_le bound hblock

theorem segment_le (delimiter : Delimiter) (escaped : Nat) (text : List Char) :
    (segment delimiter escaped text).1 ≤ text.length := by
  fun_induction segment delimiter escaped text with
  | case1 => exact Nat.le_refl _
  | case2 escaped c text length ending hnext ih =>
      rw [hnext] at ih
      exact Nat.succ_le_succ ih
  | case3 c text hopen => exact Nat.zero_le _
  | case4 c text hopen hclosed => exact width_le_of_isPrefixOf delimiter hclosed.2
  | case5 c text hopen hclosed hline => exact Nat.zero_le _
  | case6 c text hopen hclosed hline escaped length ending hnext ih =>
      rw [hnext] at ih
      exact Nat.succ_le_succ ih

theorem cutSegment_le (delimiter : Delimiter) (opened : List Interpolation)
    (lead text : List Char) : (cutSegment delimiter opened lead text).2.2 ≤ text.length := by
  have hle := segment_le delimiter 0 text
  rcases hsegment : segment delimiter 0 text with ⟨length, ending⟩
  rw [hsegment] at hle
  cases ending with
  | interpolation =>
      -- the signs that open the interpolation are there
      obtain ⟨rest, hrest⟩ := drop_segment_of_interpolation hsegment
      have hlength := congrArg List.length hrest
      simp only [List.length_drop, List.length_append, Piece.text, List.length_cons,
        List.length_replicate] at hlength
      simp only [cutSegment, hsegment]
      omega
  | closed | broken => simpa only [cutSegment, hsegment] using hle

/-! ## Steps -/

theorem taken_cut_le (opened : List Interpolation) (before : Option Piece) (c : Char)
    (rest : List Char) : (cut opened before c rest).taken ≤ rest.length := by
  rcases char_cases opened c with hblank | ⟨delimiter, outer, rfl, rfl⟩ | hcode
  · rw [cut_blank _ _ _ hblank]
    exact Nat.zero_le _
  · rw [cut_closing]
    exact cutSegment_le delimiter outer [] rest
  · cases hopening : Delimiter.opening? (c :: rest) with
    | none =>
        rw [hcode.cut_lexeme before hopening]
        exact lexemeAt_le _ c rest
    | some delimiter =>
        have hwidth := width_le_of_opening? hopening
        have hle := cutSegment_le delimiter opened ((c :: rest).take delimiter.width)
          ((c :: rest).drop delimiter.width)
        rw [List.length_drop, List.length_cons] at hle
        rw [List.length_cons] at hwidth
        rw [hcode.cut_opening before hopening]
        show (cutSegment delimiter opened _ _).2.2 + delimiter.width - 1 ≤ rest.length
        omega

/-- The lengths that a step at a place cuts the text by are lengths of what is there, and the pieces
that it leaves are what it has taken. -/
structure CutsInside (opened : List Interpolation) (before : Option Piece) (c : Char)
    (rest : List Char) : Prop where
  lexeme : (lexemeAt (before.any Piece.takesSuffix) c rest).2 ≤ rest.length
  segment : ∀ delimiter, (segment delimiter 0 rest).1 ≤ rest.length
  literal : ∀ delimiter, Delimiter.opening? (c :: rest) = some delimiter →
    delimiter.width + (Token.segment delimiter 0 ((c :: rest).drop delimiter.width)).1 ≤
      rest.length + 1
  taken : (cut opened before c rest).taken ≤ rest.length
  pieces : (cut opened before c rest).pieces.flatMap Piece.text =
    c :: rest.take (cut opened before c rest).taken

theorem cutsInside (opened : List Interpolation) (before : Option Piece) (c : Char)
    (rest : List Char) : CutsInside opened before c rest where
  lexeme := lexemeAt_le _ c rest
  segment delimiter := segment_le delimiter 0 rest
  literal := by
    intro delimiter hopening
    have hwidth := width_le_of_opening? hopening
    have hle := segment_le delimiter 0 ((c :: rest).drop delimiter.width)
    rw [List.length_drop, List.length_cons] at hle
    rw [List.length_cons] at hwidth
    omega
  taken := taken_cut_le opened before c rest
  pieces := by
    have hsplit : c :: rest = (c :: rest.take (cut opened before c rest).taken) ++
        rest.drop (cut opened before c rest).taken := by
      rw [List.cons_append, List.take_append_drop]
    exact List.append_cancel_right ((flatMap_text_cut opened before c rest).trans hsplit)

/-! ## Runs -/

/-- The states of the lexer over a text: the interpolations that are open, the piece before, all
pieces so far, and the text that is left. -/
inductive Scanned (text : List Char) :
    List Interpolation → Option Piece → List Piece → List Char → Prop where
  | start : Scanned text [] none [] text
  | step {opened : List Interpolation} {before : Option Piece} {past : List Piece} {c : Char}
      {rest : List Char} (scanned : Scanned text opened before past (c :: rest)) :
      Scanned text (cut opened before c rest).opened (cut opened before c rest).pieces.getLast?
        (past ++ (cut opened before c rest).pieces) (rest.drop (cut opened before c rest).taken)

namespace Scanned

/-- The pieces so far put together and the text that is left are the text. -/
theorem flatMap_text (h : Scanned text opened before past rest) :
    past.flatMap Piece.text ++ rest = text := by
  induction h with
  | start => rfl
  | step scanned ih => rw [List.flatMap_append, List.append_assoc, flatMap_text_cut, ih]

theorem pieces_eq (h : Scanned text opened before past rest) :
    pieces text = past ++ piecesFrom opened before rest := by
  induction h with
  | start => rfl
  | step scanned ih => rw [ih, piecesFrom_cons, List.append_assoc]

theorem finish (h : Scanned text opened before past rest) :
    ∃ opened' before', Scanned text opened' before' (past ++ piecesFrom opened before rest) [] := by
  induction opened, before, rest using piecesFrom.induct generalizing past with
  | case1 opened before =>
      rw [piecesFrom_nil, List.append_nil]
      exact ⟨opened, before, h⟩
  | case2 opened before c rest found =>
      rename_i ih
      obtain ⟨opened', before', hfinish⟩ := ih h.step
      rw [List.append_assoc] at hfinish
      exact ⟨opened', before', by rw [piecesFrom_cons]; exact hfinish⟩

end Scanned

end CaptureLint.Token

namespace CaptureLint.Source

open Token

/-- The tokens of a source are not empty and lie inside the text between whole characters, which are
what they say; they are in order and disjoint.  This holds inside interpolations, and where
something is not closed.  The lexer reads the text to its end, by steps that never reach past it. -/
theorem tokens_inside_text (source : Source) :
    (∀ token ∈ source.tokens, token.start < token.stop ∧ token.stop ≤ source.byteLength ∧
      source.IsBoundary token.start ∧ source.IsBoundary token.stop ∧
      source.substringOfBytes? token.range = some token.text) ∧
    (source.tokens.Pairwise fun first second =>
      first.start < second.start ∧ first.stop ≤ second.start) ∧
    (∃ opened before past, Scanned source.chars opened before past [] ∧
      locate 0 past = source.tokens) ∧
    ∀ opened before past c rest, Scanned source.chars opened before past (c :: rest) →
      past.flatMap Piece.text ++ c :: rest = source.chars ∧ CutsInside opened before c rest := by
  have hordered := source.ordered_tokens
  refine ⟨fun token htoken => ?_, ?_, ?_, fun opened before past c rest hscanned => ?_⟩
  · obtain ⟨hstart, hstop⟩ := isBoundary_of_mem_tokens htoken
    obtain ⟨before, after, hchars, hbytes⟩ := exists_excerpt_of_mem_tokens htoken
    have hrange : token.range = ⟨bytesOf before, bytesOf token.text⟩ := by rw [← hbytes]; rfl
    refine ⟨hordered.nonempty token htoken, source.stop_le_byteLength htoken, hstart, hstop, ?_⟩
    rw [hrange]
    exact substringOfBytes?_of_excerpt hchars
  · exact hordered.starts.imp₂ (fun _ _ hstart hstop => ⟨hstart, hstop⟩) hordered.apart
  · obtain ⟨opened, before, hfinish⟩ := (@Scanned.start source.chars).finish
    exact ⟨opened, before, _, hfinish, rfl⟩
  · exact ⟨hscanned.flatMap_text, cutsInside opened before c rest⟩

end CaptureLint.Source
