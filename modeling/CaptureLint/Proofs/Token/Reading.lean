import CaptureLint.Proofs.Token.Reader
import CaptureLint.Proofs.Token.Transparency

/-!
# Reading a text in bytes

Main statement: the reader of bytes finds the tokens of every text.  A step that starts between two
characters ends between two characters, further on or out of a segment, and what the reader has found
and the tokens of the text in front of it remain the tokens of the text.
-/

namespace CaptureLint.Token

open Source

namespace Reader

/-! ## What a reader awaits -/

variable {bytes : List UInt8} {reader : Reader} {chars front lead rest taken text : List Char}
  {before : Option Piece} {delimiter : Delimiter} {opened : List Interpolation}
  {tokens : List Token} {c : Char}

def literalPieces (literal : List Char) : List Piece :=
  if literal.isEmpty then [] else [.lexeme .string literal]

/-- The pieces of a segment that is being read and of all that follows it. -/
def segmentPieces (delimiter : Delimiter) (opened : List Interpolation) (lead rest : List Char) :
    List Piece :=
  let (pieces, opened, taken) := cutSegment delimiter opened lead rest
  pieces ++ piecesFrom opened (Piece.closing :: pieces).getLast? (rest.drop taken)

/-- The reader stands in code, between two characters of a text. -/
structure InCode (chars front rest : List Char) (before : Option Piece) (reader : Reader) : Prop where
  chars_eq : chars = front ++ rest
  pos_eq : reader.pos = bytesOf front
  segment_eq : reader.segment = none
  bound_eq : reader.bound (encode chars) = before.any Piece.takesSuffix
  stop_le : ∀ last ∈ reader.found.head?, last.stop ≤ reader.pos

/-- The reader stands in a segment of a literal, between two characters of a text; `lead` belongs to the
segment already. -/
structure InSegment (chars front lead rest : List Char) (delimiter : Delimiter) (reader : Reader) :
    Prop where
  chars_eq : chars = front ++ lead ++ rest
  pos_eq : reader.pos = bytesOf (front ++ lead)
  segment_eq : reader.segment = some ⟨delimiter, bytesOf front⟩
  stop_lt : ∀ last ∈ reader.found.head?, last.stop < reader.pos

/-- These are the tokens of the text in front of the reader. -/
inductive Awaits (chars : List Char) (reader : Reader) : List Token → Prop where
  | code {front rest : List Char} {before : Option Piece} (h : InCode chars front rest before reader) :
      Awaits chars reader (locate reader.pos (piecesFrom reader.opened before rest))
  | segment {front lead rest : List Char} {delimiter : Delimiter}
      (h : InSegment chars front lead rest delimiter reader) :
      Awaits chars reader (locate (bytesOf front) (segmentPieces delimiter reader.opened lead rest))

/-- What is left to do: a step goes on in the text, or leaves a segment. -/
def left (chars : List Char) (reader : Reader) : Nat :=
  2 * (bytesOf chars - reader.pos) + if reader.segment.isSome then 1 else 0

/-- After a step the tokens are those found so far and those awaited, as before. -/
structure Follows (chars : List Char) (reader : Reader) (tokens : List Token) (next : Reader) :
    Prop where
  awaits : ∃ others, Awaits chars next others ∧
    reader.found.reverse ++ tokens.map span = next.found.reverse ++ others.map span
  left : next.left chars < reader.left chars

theorem left_lt {next : Reader} (hpos : reader.pos < next.pos) (hle : next.pos ≤ bytesOf chars) :
    next.left chars < reader.left chars := by
  unfold left
  split <;> split <;> omega

/-! ### Segments of literals -/

theorem segmentPieces_passes (h : Token.segment delimiter 0 (taken ++ rest) =
      ((Token.segment delimiter 0 rest).1 + taken.length, (Token.segment delimiter 0 rest).2)) :
    segmentPieces delimiter opened lead (taken ++ rest) =
      segmentPieces delimiter opened (lead ++ taken) rest := by
  unfold segmentPieces cutSegment
  rw [h]
  rcases Token.segment delimiter 0 rest with ⟨length, ending⟩
  have hliteral : lead ++ (taken ++ rest).take (length + taken.length) =
      lead ++ taken ++ rest.take length := by
    rw [Nat.add_comm, List.take_length_add_append, List.append_assoc]
  have hdrop : ∀ more, (taken ++ rest).drop (length + taken.length + more) =
      rest.drop (length + more) := by
    intro more
    rw [Nat.add_right_comm, Nat.add_comm, List.drop_length_add_append]
  cases ending with
  | interpolation =>
      have hopening := hdrop (delimiter.hashes + 2)
      simp only [← Nat.add_assoc] at hopening
      simp only [hliteral, hopening]
  | closed | broken =>
      have hend := hdrop 0
      simp only [Nat.add_zero] at hend
      simp only [hliteral, hend]

theorem cutSegment_ne_nil (hlead : lead ≠ []) :
    (cutSegment delimiter opened lead rest).1 ≠ [] := by
  unfold cutSegment
  rcases Token.segment delimiter 0 rest with ⟨length, ending⟩
  have hliteral : (lead ++ rest.take length).isEmpty = false := by simp [hlead]
  cases ending <;> simp [hliteral]

/-- A segment that is not empty is a piece of its own. -/
theorem segmentPieces_of_ne_nil (hlead : lead ≠ []) : segmentPieces delimiter opened lead rest =
    (cutSegment delimiter opened lead rest).1 ++
      piecesFrom (cutSegment delimiter opened lead rest).2.1
        (cutSegment delimiter opened lead rest).1.getLast?
        (rest.drop (cutSegment delimiter opened lead rest).2.2) := by
  obtain ⟨piece, pieces, hpieces⟩ :=
    List.exists_cons_of_ne_nil (@cutSegment_ne_nil lead rest delimiter opened hlead)
  unfold segmentPieces
  generalize cutSegment delimiter opened lead rest = found at hpieces ⊢
  obtain ⟨found, opened, taken⟩ := found
  cases hpieces
  dsimp only
  rw [List.getLast?_cons_cons]

theorem segmentPieces_ends {ending : SegmentEnd}
    (h : Token.segment delimiter 0 (taken ++ rest) = (taken.length, ending))
    (hending : ending ≠ .interpolation) :
    segmentPieces delimiter opened lead (taken ++ rest) =
      literalPieces (lead ++ taken) ++ piecesFrom opened
        (Piece.closing :: literalPieces (lead ++ taken)).getLast? rest := by
  unfold segmentPieces cutSegment
  rw [h]
  cases ending with
  | interpolation => exact absurd rfl hending
  | closed | broken =>
      dsimp only
      rw [List.take_left, List.drop_left]
      rfl

theorem opening_append (hashes : Nat) (text : List Char) : (Piece.opening hashes).text ++ text =
    '\\' :: (List.replicate hashes '#' ++ '(' :: text) := by
  simp [Piece.text]

theorem segmentPieces_interpolates
    (h : delimiter.interpolates (List.replicate delimiter.hashes '#' ++ '(' :: rest) = true) :
    segmentPieces delimiter opened lead ((Piece.opening delimiter.hashes).text ++ rest) =
      literalPieces lead ++ .opening delimiter.hashes ::
        piecesFrom (⟨delimiter, 0⟩ :: opened) (some (.opening delimiter.hashes)) rest := by
  have htext := opening_append delimiter.hashes rest
  have hlength : (Piece.opening delimiter.hashes).text.length = delimiter.hashes + 2 := by
    simp [Piece.text]
  unfold segmentPieces cutSegment
  rw [htext, Token.segment, if_pos ⟨rfl, h⟩, ← htext]
  dsimp only
  rw [List.take_zero, List.append_nil, Nat.zero_add, ← hlength, List.drop_left, List.append_assoc,
    ← List.cons_append, List.getLast?_concat]
  rfl

/-- What an escape takes with it is part of the segment. -/
theorem segment_escaped (escaped : Nat) (text : List Char) :
    Token.segment delimiter escaped text =
      ((Token.segment delimiter 0 (text.drop escaped)).1 + (text.take escaped).length,
        (Token.segment delimiter 0 (text.drop escaped)).2) := by
  induction text generalizing escaped with
  | nil => cases escaped <;> rfl
  | cons c text ih =>
      cases escaped with
      | zero => rfl
      | succ escaped =>
          rw [segment_succ, ih]
          rfl

theorem segment_escape (hopens : ¬ delimiter.interpolates text = true)
    (hescapes : delimiter.escapes text = true) : Token.segment delimiter 0 ('\\' :: text) =
      ((Token.segment delimiter 0 (text.drop (delimiter.hashes + 1))).1 +
        ('\\' :: text.take (delimiter.hashes + 1)).length,
        (Token.segment delimiter 0 (text.drop (delimiter.hashes + 1))).2) := by
  rw [Token.segment, if_neg (fun h => hopens h.2), if_neg (by simp), if_neg (by simp),
    if_pos ⟨rfl, hescapes⟩]
  dsimp only
  rw [segment_escaped (delimiter.hashes + 1) text]
  rfl

theorem segment_plain (hescapes : ¬ (c = '\\' ∧ delimiter.escapes text))
    (hclosed : ¬ (c = '"' ∧ delimiter.closing.isPrefixOf (c :: text)))
    (hline : ¬ (c = '\n' ∧ ¬ delimiter.multiline)) : Token.segment delimiter 0 (c :: text) =
      ((Token.segment delimiter 0 text).1 + 1, (Token.segment delimiter 0 text).2) := by
  have hopens : ¬ (c = '\\' ∧ delimiter.interpolates text) := fun hopens =>
    hescapes ⟨hopens.1, ((Bool.and_eq_true _ _).mp hopens.2).1⟩
  rw [Token.segment, if_neg hopens, if_neg hclosed, if_neg hline, if_neg hescapes]

theorem segment_closes (hc : c ≠ '\\') (hclosed : c = '"' ∧ delimiter.closing.isPrefixOf (c :: text)) :
    Token.segment delimiter 0 (c :: text) = (delimiter.closing.length, .closed) := by
  rw [Token.segment, if_neg (fun h => hc h.1), if_pos hclosed, length_closing]

theorem segment_breaks (hc : c ≠ '\\')
    (hclosed : ¬ (c = '"' ∧ delimiter.closing.isPrefixOf (c :: text)))
    (hline : c = '\n' ∧ ¬ delimiter.multiline) :
    Token.segment delimiter 0 (c :: text) = (0, .broken) := by
  rw [Token.segment, if_neg (fun h => hc h.1), if_neg hclosed, if_pos hline]

/-! ### Suffixes -/

theorem takesSuffix_spelled (kind : TokenKind) (text : List Char) :
    (Piece.lexeme kind (spelled text)).takesSuffix = (Piece.lexeme kind text).takesSuffix := by
  have hsign : ∀ sign, isAscii sign = true → (spelled text == [sign]) = (text == [sign]) := by
    intro sign hsign
    rw [Bool.eq_iff_iff, beq_iff_eq, beq_iff_eq, spelled_eq_iff (by simp [hsign])]
  cases kind with
  | punctuation => simp only [Piece.takesSuffix, hsign ')' rfl, hsign ']' rfl, hsign '\x7d' rfl]
  | operator => simp only [Piece.takesSuffix, hsign '?' rfl, hsign '!' rfl]
  | identifier | keyword | atWord | number | string | comment => rfl

theorem bound_of_lt (h : ∀ last ∈ reader.found.head?, last.stop < reader.pos) :
    reader.bound bytes = false := by
  rw [bound, Option.any_eq_false]
  intro last hlast
  rw [beq_eq_false_iff_ne.mpr (Nat.ne_of_lt (h last hlast)), Bool.false_and]

theorem bound_push (hchars : chars = front ++ lead ++ rest)
    (hpos : reader.pos = bytesOf (front ++ lead)) (kind : TokenKind) :
    (reader.push kind (bytesOf front)).bound (encode chars) =
      (Piece.lexeme kind lead).takesSuffix := by
  have hexcerpt : ((encode chars).drop (bytesOf front)).take
      (bytesOf (front ++ lead) - bytesOf front) = encode lead := by
    rw [hchars, List.append_assoc, drop_encode, bytesOf_append, Nat.add_sub_cancel_left,
      encode_append, List.take_left' (length_encode lead)]
  rw [bound, push, List.head?_cons, Option.any_some, hpos, beq_self_eq_true, Bool.true_and, hexcerpt]
  exact takesSuffix_spelled kind lead

theorem InCode.ahead (h : InCode chars front rest before reader) :
    (encode chars).drop reader.pos = encode rest := by
  rw [h.chars_eq, h.pos_eq, drop_encode]

theorem InCode.pos_le (h : InCode chars front rest before reader) : reader.pos ≤ bytesOf chars := by
  rw [h.chars_eq, h.pos_eq, bytesOf_append]
  exact Nat.le_add_right _ _

theorem InSegment.ahead (h : InSegment chars front lead rest delimiter reader) :
    (encode chars).drop reader.pos = encode rest := by
  rw [h.chars_eq, h.pos_eq, drop_encode]

theorem InSegment.pos_le (h : InSegment chars front lead rest delimiter reader) :
    reader.pos ≤ bytesOf chars := by
  rw [h.chars_eq, h.pos_eq, bytesOf_append (front ++ lead)]
  exact Nat.le_add_right _ _

namespace InCode

theorem split (h : InCode chars front rest before reader) (count : Nat) :
    InCode chars front (rest.take count ++ rest.drop count) before reader := by
  rwa [List.take_append_drop]

/-- Going on past a piece that is no token. -/
theorem pass (h : InCode chars front (lead ++ text) before reader) (hlead : lead ≠ [])
    {piece : Piece} (hpiece : piece.takesSuffix = false) (opened : List Interpolation) :
    InCode chars (front ++ lead) text (some piece)
      { reader.advance (bytesOf lead) with opened } := by
  have hlt : ∀ last ∈ reader.found.head?, last.stop < reader.pos + bytesOf lead :=
    fun last hlast => Nat.lt_of_le_of_lt (h.stop_le last hlast)
      (Nat.lt_add_of_pos_right (bytesOf_pos hlead))
  refine ⟨by rw [h.chars_eq, List.append_assoc], ?_, h.segment_eq,
    (bound_of_lt hlt).trans hpiece.symm, fun last hlast => Nat.le_of_lt (hlt last hlast)⟩
  rw [bytesOf_append, ← h.pos_eq]
  rfl

theorem closing (h : InCode chars front (')' :: text) before reader) (delimiter : Delimiter)
    (outer : List Interpolation) :
    InSegment chars (front ++ [')']) [] text delimiter { reader.advance 1 with
      opened := outer
      segment := some ⟨delimiter, reader.pos + 1⟩ } := by
  have hstop : bytesOf (front ++ [')']) = reader.pos + 1 := by
    rw [bytesOf_append, ← h.pos_eq]
    rfl
  refine ⟨by rw [h.chars_eq, List.append_nil, List.append_cons], ?_, ?_, ?_⟩
  · rw [List.append_nil, hstop]
    rfl
  · rw [hstop]
  · exact fun last hlast => Nat.lt_succ_of_le (h.stop_le last hlast)

theorem opening (h : InCode chars front (lead ++ text) before reader) (delimiter : Delimiter)
    (hlead : 0 < bytesOf lead) :
    InSegment chars front lead text delimiter { reader.advance (bytesOf lead) with
      segment := some ⟨delimiter, reader.pos⟩ } := by
  refine ⟨by rw [h.chars_eq, List.append_assoc], ?_, by rw [h.pos_eq], ?_⟩
  · rw [bytesOf_append, ← h.pos_eq]
    rfl
  · exact fun last hlast => Nat.lt_of_le_of_lt (h.stop_le last hlast)
      (Nat.lt_add_of_pos_right hlead)

theorem lexeme (h : InCode chars front (lead ++ text) before reader) (kind : TokenKind)
    (opened : List Interpolation) :
    InCode chars (front ++ lead) text (some (.lexeme kind lead))
      (({ reader with opened }.advance (bytesOf lead)).push kind reader.pos) := by
  have hchars : chars = front ++ lead ++ text := by rw [h.chars_eq, List.append_assoc]
  have hstop : ({ reader with opened }.advance (bytesOf lead)).pos = bytesOf (front ++ lead) := by
    rw [bytesOf_append, ← h.pos_eq]
    rfl
  refine ⟨hchars, hstop, h.segment_eq, ?_, ?_⟩
  · have hbound := bound_push hchars hstop kind
    rw [← h.pos_eq] at hbound
    exact hbound
  · intro last hlast
    cases hlast
    exact Nat.le_refl _

end InCode

namespace InSegment

theorem advance (h : InSegment chars front lead (taken ++ rest) delimiter reader) :
    InSegment chars front (lead ++ taken) rest delimiter (reader.advance (bytesOf taken)) := by
  refine ⟨by rw [h.chars_eq, List.append_assoc, List.append_assoc, List.append_assoc], ?_,
    h.segment_eq, fun last hlast => Nat.lt_add_right _ (h.stop_lt last hlast)⟩
  rw [← List.append_assoc, bytesOf_append, ← h.pos_eq]
  rfl

theorem close (h : InSegment chars front lead rest delimiter reader) :
    InCode chars (front ++ lead) rest (Piece.closing :: literalPieces lead).getLast?
        (reader.close ⟨delimiter, bytesOf front⟩) ∧
      (reader.close ⟨delimiter, bytesOf front⟩).found.reverse =
        reader.found.reverse ++ (locate (bytesOf front) (literalPieces lead)).map span := by
  have hstop := h.pos_eq
  have hchars := h.chars_eq
  cases lead with
  | nil =>
      -- nothing was read since the segment started
      have hkeep : reader.keep .string (bytesOf front) = reader := by
        refine if_neg ?_
        rw [hstop, List.append_nil]
        exact Nat.lt_irrefl _
      have hclose : reader.close ⟨delimiter, bytesOf front⟩ = { reader with segment := none } := by
        rw [Reader.close, hkeep]
      rw [hclose]
      refine ⟨⟨hchars, hstop, rfl, bound_of_lt h.stop_lt,
        fun last hlast => Nat.le_of_lt (h.stop_lt last hlast)⟩, ?_⟩
      exact (List.append_nil _).symm
  | cons c lead =>
      have hlt : bytesOf front < reader.pos := by
        rw [hstop, bytesOf_append]
        exact Nat.lt_add_of_pos_right (bytesOf_pos (List.cons_ne_nil c lead))
      have hclose : reader.close ⟨delimiter, bytesOf front⟩ =
          { reader.push .string (bytesOf front) with segment := none } := by
        rw [Reader.close, keep, if_pos hlt]
      rw [hclose]
      refine ⟨⟨hchars, hstop, rfl, bound_push hchars hstop .string, ?_⟩, ?_⟩
      · intro last hlast
        cases hlast
        exact Nat.le_refl _
      · show (_ :: reader.found).reverse = _
        rw [List.reverse_cons, hstop, bytesOf_append]
        rfl

end InSegment

/-! ### Steps in code -/

theorem follows_blank (h : InCode chars front (c :: text) before reader)
    (hblank : Text.isBlank c = true) :
    Follows chars reader (locate reader.pos (piecesFrom reader.opened before (c :: text)))
      (reader.advance c.utf8Size) := by
  have hnext := @InCode.pass _ _ _ [c] _ _ h (List.cons_ne_nil c []) (.blank c) rfl reader.opened
  refine ⟨⟨_, .code hnext, ?_⟩,
    left_lt (Nat.lt_add_of_pos_right (Char.utf8Size_pos c)) hnext.pos_le⟩
  rw [piecesFrom_cons, cut_blank _ _ _ hblank]
  rfl

theorem follows_closing {outer : List Interpolation}
    (h : InCode chars front (')' :: text) before reader)
    (hopened : reader.opened = ⟨delimiter, 0⟩ :: outer) :
    Follows chars reader (locate reader.pos (piecesFrom reader.opened before (')' :: text)))
      { reader.advance 1 with
        opened := outer
        segment := some ⟨delimiter, reader.pos + 1⟩ } := by
  have hnext := h.closing delimiter outer
  have hstop : bytesOf (front ++ [')']) = reader.pos + 1 := by
    rw [bytesOf_append, ← h.pos_eq]
    rfl
  refine ⟨⟨_, .segment hnext, ?_⟩, left_lt (Nat.lt_succ_self _) hnext.pos_le⟩
  rw [piecesFrom_cons, hopened, cut_closing, hstop]
  rfl

/-- The signs that open a literal belong to its first segment. -/
theorem piecesFrom_opening (before : Option Piece) (hcode : IsCode opened c)
    (hopening : Delimiter.opening? (c :: text) = some delimiter) :
    piecesFrom opened before (c :: text) =
      segmentPieces delimiter opened ((c :: text).take delimiter.width)
        ((c :: text).drop delimiter.width) := by
  have hwidth := width_pos delimiter
  have hlead : (c :: text).take delimiter.width ≠ [] := by
    rw [ne_eq, List.take_eq_nil_iff]
    exact not_or.mpr ⟨Nat.ne_of_gt hwidth, List.cons_ne_nil c text⟩
  rw [piecesFrom_cons, hcode.cut_opening before hopening, segmentPieces_of_ne_nil hlead]
  generalize cutSegment delimiter opened _ _ = found
  have hrest : text.drop (found.2.2 + delimiter.width - 1) =
      ((c :: text).drop delimiter.width).drop found.2.2 := by
    rw [List.drop_drop, ← List.drop_succ_cons (a := c)]
    congr 1
    omega
  dsimp only
  rw [hrest]

theorem follows_opening (h : InCode chars front (c :: text) before reader)
    (hcode : IsCode reader.opened c)
    (hopening : Delimiter.opening? (c :: text) = some delimiter) :
    Follows chars reader (locate reader.pos (piecesFrom reader.opened before (c :: text)))
      { reader.advance delimiter.width with segment := some ⟨delimiter, reader.pos⟩ } := by
  have hwidth := width_pos delimiter
  have hlead : bytesOf ((c :: text).take delimiter.width) = delimiter.width := by
    rw [bytesOf_of_all (all_isAscii_opening hopening),
      List.length_take_of_le (width_le_of_opening? hopening)]
  have hnext := (h.split delimiter.width).opening delimiter (by rwa [hlead])
  rw [hlead] at hnext
  refine ⟨⟨_, .segment hnext, ?_⟩, left_lt (Nat.lt_add_of_pos_right hwidth) hnext.pos_le⟩
  rw [piecesFrom_opening before hcode hopening, h.pos_eq]
  rfl

theorem follows_lexeme (h : InCode chars front (c :: text) before reader)
    (hcode : IsCode reader.opened c) (hopening : Delimiter.opening? (c :: text) = none) :
    let found := lexemeAt (before.any Piece.takesSuffix) c text
    let opened :=
      if c = '(' then bracketOpened reader.opened
      else if c = ')' then bracketClosed reader.opened
      else reader.opened
    Follows chars reader (locate reader.pos (piecesFrom reader.opened before (c :: text)))
      (({ reader with opened }.advance (bytesOf (c :: text.take found.2))).push found.1
        reader.pos) := by
  intro found opened
  have hnext := (h.split (found.2 + 1)).lexeme found.1 opened
  rw [List.take_succ_cons, List.drop_succ_cons] at hnext
  have hsize := bytesOf_pos (List.cons_ne_nil c (text.take found.2))
  refine ⟨⟨_, .code hnext, ?_⟩, left_lt (Nat.lt_add_of_pos_right hsize) hnext.pos_le⟩
  show _ = (_ :: reader.found).reverse ++ _
  rw [piecesFrom_cons, hcode.cut_lexeme before hopening, List.reverse_cons, List.append_assoc]
  rfl

/-- A step in code takes the pieces that a step over characters takes. -/
theorem follows_readCode (h : InCode chars front (c :: text) before reader) :
    ∃ next, reader.readCode (encode chars) = some next ∧
      Follows chars reader (locate reader.pos (piecesFrom reader.opened before (c :: text)))
        next := by
  rcases char_cases reader.opened c with hblank | ⟨delimiter, outer, rfl, hopened⟩ | hcode
  · exact ⟨_, readCode_blank h.ahead hblank, follows_blank h hblank⟩
  · exact ⟨_, readCode_closing h.ahead hopened, follows_closing h hopened⟩
  · cases hopening : Delimiter.opening? (c :: text) with
    | some delimiter =>
        exact ⟨_, readCode_opening h.ahead hcode hopening, follows_opening h hcode hopening⟩
    | none =>
        have hstep := readCode_lexeme h.ahead hcode hopening
        rw [h.bound_eq] at hstep
        exact ⟨_, hstep, follows_lexeme h hcode hopening⟩

/-! ### Steps in segments -/

theorem flatMap_text_literalPieces (literal : List Char) :
    (literalPieces literal).flatMap Piece.text = literal := by
  cases literal <;> simp [literalPieces, Piece.text]

theorem follows_close {ending : SegmentEnd}
    (h : InSegment chars front lead (taken ++ rest) delimiter reader)
    (hends : Token.segment delimiter 0 (taken ++ rest) = (taken.length, ending))
    (hending : ending ≠ .interpolation) :
    Follows chars reader
      (locate (bytesOf front) (segmentPieces delimiter reader.opened lead (taken ++ rest)))
      ((reader.advance (bytesOf taken)).close ⟨delimiter, bytesOf front⟩) := by
  obtain ⟨hnext, hfound⟩ := h.advance.close
  refine ⟨⟨_, .code hnext, ?_⟩, ?_⟩
  · rw [hfound, segmentPieces_ends hends hending, locate_append, List.map_append, List.append_assoc,
      flatMap_text_literalPieces, hnext.pos_eq, bytesOf_append front, close_opened]
    rfl
  · have hpos : ((reader.advance (bytesOf taken)).close ⟨delimiter, bytesOf front⟩).pos =
        reader.pos + bytesOf taken := close_pos _
    unfold left
    rw [hpos, hnext.segment_eq, h.segment_eq]
    simp only [Option.isSome_some, Option.isSome_none, if_true, Bool.false_eq_true, if_false]
    omega

theorem follows_advance (h : InSegment chars front lead (taken ++ rest) delimiter reader)
    (htaken : taken ≠ []) (hpasses : Token.segment delimiter 0 (taken ++ rest) =
      ((Token.segment delimiter 0 rest).1 + taken.length, (Token.segment delimiter 0 rest).2)) :
    Follows chars reader
      (locate (bytesOf front) (segmentPieces delimiter reader.opened lead (taken ++ rest)))
      (reader.advance (bytesOf taken)) := by
  refine ⟨⟨_, .segment h.advance, ?_⟩,
    left_lt (Nat.lt_add_of_pos_right (bytesOf_pos htaken)) h.advance.pos_le⟩
  rw [segmentPieces_passes hpasses]
  rfl

theorem follows_interpolation
    (h : InSegment chars front lead ((Piece.opening delimiter.hashes).text ++ rest) delimiter reader)
    (hopens : delimiter.interpolates (List.replicate delimiter.hashes '#' ++ '(' :: rest) = true) :
    Follows chars reader
      (locate (bytesOf front) (segmentPieces delimiter reader.opened lead
        ((Piece.opening delimiter.hashes).text ++ rest)))
      { (reader.close ⟨delimiter, bytesOf front⟩).advance (2 + delimiter.hashes) with
        opened := ⟨delimiter, 0⟩ :: reader.opened } := by
  obtain ⟨hclosed, hfound⟩ := h.close
  have hnext := @InCode.pass _ _ _ _ _ _ hclosed (List.cons_ne_nil _ _)
    (.opening delimiter.hashes) rfl (⟨delimiter, 0⟩ :: reader.opened)
  rw [bytesOf_opening] at hnext
  refine ⟨⟨_, .code hnext, ?_⟩, left_lt ?_ hnext.pos_le⟩
  · have hpos : ((reader.close ⟨delimiter, bytesOf front⟩).advance (2 + delimiter.hashes)).pos =
        bytesOf front + bytesOf lead + bytesOf (Piece.opening delimiter.hashes).text := by
      rw [← bytesOf_append, ← bytesOf_append]
      exact hnext.pos_eq
    rw [segmentPieces_interpolates hopens, locate_append, List.map_append,
      flatMap_text_literalPieces, ← List.append_assoc, ← hfound, hpos]
    rfl
  · show reader.pos < (reader.close ⟨delimiter, bytesOf front⟩).pos + (2 + delimiter.hashes)
    rw [close_pos]
    omega

theorem follows_plain (h : InSegment chars front lead (c :: text) delimiter reader)
    (hescapes : ¬ (c = '\\' ∧ delimiter.escapes text))
    (hclosed : ¬ (c = '"' ∧ delimiter.closing.isPrefixOf (c :: text)))
    (hline : ¬ (c = '\n' ∧ ¬ delimiter.multiline)) :
    Follows chars reader
      (locate (bytesOf front) (segmentPieces delimiter reader.opened lead (c :: text)))
      (reader.advance c.utf8Size) :=
  @follows_advance _ _ _ _ text [c] _ h (List.cons_ne_nil c [])
    (segment_plain hescapes hclosed hline)

/-- A step in a segment takes what a step over characters takes. -/
theorem follows_readSegment (h : InSegment chars front lead rest delimiter reader) :
    Follows chars reader (locate (bytesOf front) (segmentPieces delimiter reader.opened lead rest))
      (reader.readSegment (encode chars) ⟨delimiter, bytesOf front⟩) := by
  cases rest with
  | nil =>
      rw [readSegment_nil h.ahead]
      exact @follows_close _ _ _ _ _ [] _ _ h rfl nofun
  | cons c text =>
      rw [readSegment_cons h.ahead]
      split
      next hc =>
        subst hc
        split
        next hopens =>
          obtain ⟨rest, rfl⟩ := eq_of_interpolates hopens
          rw [← opening_append] at h ⊢
          exact follows_interpolation h hopens
        next hopens =>
          split
          next hescapes =>
            have hpasses := segment_escape hopens hescapes
            have hsplit : '\\' :: text = '\\' :: text.take (delimiter.hashes + 1) ++
                text.drop (delimiter.hashes + 1) := by
              rw [List.cons_append, List.take_append_drop]
            rw [← bytesOf_escape hescapes]
            rw [hsplit] at h hpasses ⊢
            exact follows_advance h (List.cons_ne_nil _ _) hpasses
          next hescapes =>
            exact follows_plain h (fun h => hescapes h.2) (by simp) (by simp)
      next hc =>
        split
        next hclosed =>
          have hends := segment_closes hc hclosed
          obtain ⟨rest, hrest⟩ := List.isPrefixOf_iff_prefix.mp hclosed.2
          rw [← bytesOf_closing]
          rw [← hrest] at h hends ⊢
          exact follows_close h hends nofun
        next hopen =>
          split
          next hline =>
            exact @follows_close _ _ _ _ _ [] _ _ h (segment_breaks hc hopen hline) nofun
          next hline => exact follows_plain h (fun h => hc h.1) hopen hline

/-! ## Runs -/

theorem Awaits.isBoundary {source : Source} (h : Awaits source.chars reader tokens) :
    source.IsBoundary reader.pos := by
  cases h with
  | @code front rest _ h => exact ⟨front, rest, h.chars_eq, h.pos_eq⟩
  | @segment front lead rest _ h => exact ⟨front ++ lead, rest, h.chars_eq, h.pos_eq⟩

/-- A reader that awaits no more tokens is at the end, and any other takes a step. -/
theorem Awaits.step (h : Awaits chars reader tokens) :
    (reader.step (encode chars) = none ∧ tokens = [] ∧ reader.pos = bytesOf chars) ∨
      ∃ next, reader.step (encode chars) = some next ∧ Follows chars reader tokens next := by
  cases h with
  | @code front rest before h =>
      have hstep : reader.step (encode chars) = reader.readCode (encode chars) := by
        rw [Reader.step, h.segment_eq]
      rw [hstep]
      cases rest with
      | nil =>
          refine .inl ⟨?_, ?_, ?_⟩
          · rw [readCode, h.ahead]
            rfl
          · rw [piecesFrom_nil]
            rfl
          · rw [h.pos_eq, h.chars_eq, List.append_nil]
      | cons c text => exact .inr (follows_readCode h)
  | segment h =>
      refine .inr ⟨_, ?_, follows_readSegment h⟩
      rw [Reader.step, h.segment_eq]

theorem Awaits.ends (h : Awaits chars reader tokens) :
    Ends (encode chars) reader (reader.found.reverse ++ tokens.map span) := by
  induction hleft : reader.left chars using Nat.strongRecOn generalizing reader tokens with
  | ind left ih =>
      rcases h.step with ⟨hstep, rfl, -⟩ | ⟨next, hstep, ⟨others, hothers, hfound⟩, hless⟩
      · rw [List.map_nil, List.append_nil]
        exact .finish hstep
      · rw [hfound]
        rw [hleft] at hless
        exact .step hstep (ih _ hless hothers rfl)

theorem Awaits.reaches {last : Reader} (hreaches : Reaches (encode chars) reader last)
    (h : Awaits chars reader tokens) : ∃ others, Awaits chars last others ∧
      reader.found.reverse ++ tokens.map span = last.found.reverse ++ others.map span := by
  induction hreaches generalizing tokens with
  | refl => exact ⟨tokens, h, rfl⟩
  | step hstep _ ih =>
      rcases h.step with ⟨hnone, -⟩ | ⟨next, hsome, ⟨others, hothers, hfound⟩, -⟩
      · rw [hnone] at hstep
        cases hstep
      · rw [hsome] at hstep
        cases hstep
        rw [hfound]
        exact ih hothers

theorem Ends.unique {first second : List Span} (h : Ends bytes reader first)
    (h' : Ends bytes reader second) : first = second := by
  induction h with
  | finish hstep =>
      cases h' with
      | finish => rfl
      | step hstep' => cases hstep.symm.trans hstep'
  | step hstep _ ih =>
      cases h' with
      | finish hstep' => cases hstep'.symm.trans hstep
      | step hstep' ends =>
          cases hstep.symm.trans hstep'
          exact ih ends

theorem awaits_start (source : Source) : Awaits source.chars start source.tokens :=
  @Awaits.code source.chars start [] source.chars none ⟨rfl, rfl, rfl, rfl, nofun⟩

end Reader

end CaptureLint.Token

namespace CaptureLint.Source

open Token

/-- The reader of bytes comes to the end of every text and has found its tokens there, at their places.
Wherever it stops on the way it stands between two characters, its next step leaves it with less to do,
and the tokens it has found by then are the first tokens of the text. -/
theorem tokens_read_in_bytes (source : Source) :
    (∀ spans, Reader.Ends (encode source.chars) .start spans ↔ spans = source.tokens.map span) ∧
    ∀ reader, Reader.Reaches (encode source.chars) .start reader →
      source.IsBoundary reader.pos ∧ reader.found.reverse <+: source.tokens.map span ∧
        (reader.step (encode source.chars) = none → reader.pos = source.byteLength) ∧
        ∀ next, reader.step (encode source.chars) = some next →
          next.left source.chars < reader.left source.chars := by
  have hstart := Reader.awaits_start source
  have hends := hstart.ends
  refine ⟨fun spans => ⟨fun h => h.unique hends, ?_⟩, fun reader hreaches => ?_⟩
  · rintro rfl
    exact hends
  · obtain ⟨others, hawaits, hfound⟩ := Reader.Awaits.reaches hreaches hstart
    refine ⟨hawaits.isBoundary, ⟨_, hfound.symm⟩, ?_, ?_⟩
    · intro hnone
      rcases hawaits.step with ⟨-, -, hpos⟩ | ⟨next, hsome, -⟩
      · exact hpos
      · rw [hnone] at hsome
        cases hsome
    · intro next hsome
      rcases hawaits.step with ⟨hnone, -⟩ | ⟨other, hother, -, hless⟩
      · rw [hsome] at hnone
        cases hnone
      · rw [hsome] at hother
        cases hother
        exact hless

end CaptureLint.Source
