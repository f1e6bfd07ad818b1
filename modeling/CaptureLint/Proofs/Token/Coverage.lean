import CaptureLint.Proofs.Token.Ballot
import CaptureLint.Proofs.Token.Names

/-!
# What no token covers

The lexer drops nothing but blanks and the signs that open and close interpolations, and wherever a
text is cut off, no more interpolations are closed in front of the cut than opened.  So in a text
without a backslash every character that is no blank belongs to one token.
-/

namespace CaptureLint.Token

def covers (token : Token) (byte : Nat) : Bool := token.start ≤ byte && byte < token.stop

def coverage (tokens : List Token) : Nat → List Char → List (Char × Bool)
  | _, [] => []
  | byte, c :: text => (c, tokens.any (·.covers byte)) :: coverage tokens (byte + c.utf8Size) text

namespace Piece

def isLexeme : Piece → Bool
  | lexeme _ _ => true
  | _ => false

def isOpening : Piece → Bool
  | opening _ => true
  | _ => false

def isClosing : Piece → Bool
  | closing => true
  | _ => false

def coverage (piece : Piece) : List (Char × Bool) := piece.text.map (·, piece.isLexeme)

/-- A blank, or a sign that opens or closes an interpolation. -/
inductive IsGap : Piece → Prop where
  | blank {c : Char} (h : Text.isBlank c = true) : IsGap (.blank c)
  | opening (hashes : Nat) : IsGap (.opening hashes)
  | closing : IsGap .closing

end Piece

variable {opened : List Interpolation} {before : Option Piece} {text : List Char}
  {parts first second : List Piece} {piece : Piece} {earlier : List Token} {start byte : Nat}

/-! ## Pieces and tokens -/

theorem covers_iff {token : Token} :
    token.covers byte = true ↔ token.start ≤ byte ∧ byte < token.stop := by
  simp [covers]

theorem coverage_append (tokens : List Token) (byte : Nat) (first second : List Char) :
    coverage tokens byte (first ++ second) =
      coverage tokens byte first ++ coverage tokens (byte + Source.bytesOf first) second := by
  induction first generalizing byte with
  | nil => rfl
  | cons c first ih =>
      rw [List.cons_append, coverage, ih, coverage, Source.bytesOf_cons, Nat.add_assoc,
        List.cons_append]

theorem coverage_eq_map {tokens : List Token} {covered : Bool}
    (h : ∀ byte, start ≤ byte → byte < start + Source.bytesOf text →
      tokens.any (·.covers byte) = covered) :
    coverage tokens start text = text.map (·, covered) := by
  induction text generalizing start with
  | nil => rfl
  | cons c text ih =>
      have hpos := Char.utf8Size_pos c
      rw [coverage, List.map_cons, h start (Nat.le_refl _) (by rw [Source.bytesOf_cons]; omega)]
      rw [ih fun byte hle hlt => h byte (by omega) (by rw [Source.bytesOf_cons]; omega)]

theorem any_covers_locate (hlt : byte < start) :
    (locate start parts).any (·.covers byte) = false := by
  rw [List.any_eq_false]
  intro token htoken hcovers
  have hle := le_start_of_mem_locate htoken
  rw [covers_iff] at hcovers
  omega

theorem coverage_locate (hearlier : ∀ token ∈ earlier, token.stop ≤ start) :
    coverage (earlier ++ locate start parts) start (parts.flatMap Piece.text) =
      parts.flatMap Piece.coverage := by
  induction parts generalizing earlier start with
  | nil => rfl
  | cons piece parts ih =>
      have hpast : ∀ byte, start ≤ byte → earlier.any (·.covers byte) = false := by
        intro byte hle
        rw [List.any_eq_false]
        intro token htoken hcovers
        have hstop := hearlier token htoken
        rw [covers_iff] at hcovers
        omega
      have hgap : piece.isLexeme = false →
          locate start (piece :: parts) = locate (start + Source.bytesOf piece.text) parts →
          coverage (earlier ++ locate start (piece :: parts)) start
              ((piece :: parts).flatMap Piece.text) =
            (piece :: parts).flatMap Piece.coverage := by
        intro hpiece hlocate
        rw [hlocate, List.flatMap_cons, coverage_append, List.flatMap_cons,
          ih fun token htoken => Nat.le_add_right_of_le (hearlier token htoken)]
        refine congrArg (· ++ _) ?_
        refine (coverage_eq_map fun byte hle hlt => ?_).trans (by rw [Piece.coverage, hpiece])
        rw [List.any_append, hpast byte hle, any_covers_locate hlt, Bool.or_false]
      cases piece with
      | lexeme kind literal =>
          -- for the pieces that follow, the token of the lexeme is an earlier one
          have hpassed : ∀ token ∈ earlier ++ [⟨kind, start, literal⟩],
              token.stop ≤ start + Source.bytesOf literal := by
            intro token htoken
            rw [List.mem_append, List.mem_singleton] at htoken
            rcases htoken with htoken | rfl
            · exact Nat.le_add_right_of_le (hearlier token htoken)
            · exact Nat.le_refl _
          have hnext := ih hpassed
          rw [List.append_assoc, List.singleton_append] at hnext
          rw [locate, List.flatMap_cons, coverage_append, List.flatMap_cons]
          refine (congrArg (_ ++ ·) hnext).trans (congrArg (· ++ _) ?_)
          refine coverage_eq_map fun byte hle hlt => ?_
          have hcovers : covers ⟨kind, start, literal⟩ byte = true := covers_iff.mpr ⟨hle, hlt⟩
          rw [List.any_append, List.any_cons, hcovers, Bool.true_or, Bool.or_true, Piece.isLexeme]
      | blank c => exact hgap rfl rfl
      | opening hashes => exact hgap rfl rfl
      | closing => exact hgap rfl rfl

theorem coverage_tokens (text : List Char) :
    coverage (tokens text) 0 text = (pieces text).flatMap Piece.coverage := by
  have hcoverage := @coverage_locate (pieces text) [] 0 (by simp)
  rw [flatMap_text_pieces] at hcoverage
  exact hcoverage

/-! ## Gaps -/

theorem isGap_of_mem_cut {c : Char} {rest : List Char}
    (h : piece ∈ (cut opened before c rest).pieces) (hgap : piece.isLexeme = false) :
    piece.IsGap := by
  have hsegment : ∀ {delimiter outer lead body},
      piece ∈ (cutSegment delimiter outer lead body).1 → piece.IsGap := by
    intro delimiter outer lead body hpiece
    rcases mem_cutSegment hpiece with ⟨literal, rfl, -⟩ | ⟨hashes, rfl⟩
    · cases hgap
    · exact .opening hashes
  rcases char_cases opened c with hblank | ⟨delimiter, outer, rfl, rfl⟩ | hcode
  · rw [cut_blank _ _ _ hblank, List.mem_singleton] at h
    rw [h]
    exact .blank hblank
  · rw [cut_closing, List.mem_cons] at h
    rcases h with rfl | h
    · exact .closing
    · exact hsegment h
  · cases hopening : Delimiter.opening? (c :: rest) with
    | none =>
        rw [hcode.cut_lexeme before hopening, List.mem_singleton] at h
        rw [h] at hgap
        cases hgap
    | some delimiter =>
        rw [hcode.cut_opening before hopening] at h
        exact hsegment h

theorem isGap_of_mem_piecesFrom (h : piece ∈ piecesFrom opened before text)
    (hgap : piece.isLexeme = false) : piece.IsGap := by
  induction opened, before, text using piecesFrom.induct with
  | case1 => simp [piecesFrom_nil] at h
  | case2 opened before c rest _ ih =>
      rw [piecesFrom_cons, List.mem_append] at h
      rcases h with h | h
      · exact isGap_of_mem_cut h hgap
      · exact ih h

/-! ## Openings and closings -/

theorem length_opened_cutSegment (delimiter : Delimiter) (outer : List Interpolation)
    (lead text : List Char) :
    (cutSegment delimiter outer lead text).1.countP Piece.isClosing = 0 ∧
      (cutSegment delimiter outer lead text).2.1.length =
        (cutSegment delimiter outer lead text).1.countP Piece.isOpening + outer.length := by
  constructor
  · rw [List.countP_eq_zero]
    intro piece hmem
    rcases mem_cutSegment hmem with ⟨literal, rfl, -⟩ | ⟨hashes, rfl⟩ <;> simp [Piece.isClosing]
  · have hliteral : ∀ literal : List Char, (if literal.isEmpty then []
        else [Piece.lexeme .string literal]).countP Piece.isOpening = 0 := by
      intro literal
      split <;> rfl
    rcases hsegment : segment delimiter 0 text with ⟨length, ending⟩
    cases ending with
    | interpolation =>
        simp only [cutSegment, hsegment, List.countP_append, hliteral, List.length_cons]
        simp [Piece.isOpening]
        omega
    | closed | broken =>
        simp only [cutSegment, hsegment, hliteral, Nat.zero_add]

/-- A step closes no more interpolations than are open, and those open after it are the ones that
were, less the closed ones, and the ones it has opened. -/
theorem length_opened_cut (opened : List Interpolation) (before : Option Piece) (c : Char)
    (rest : List Char) :
    (cut opened before c rest).pieces.countP Piece.isClosing ≤ opened.length ∧
      (cut opened before c rest).pieces.countP Piece.isOpening + opened.length =
        (cut opened before c rest).pieces.countP Piece.isClosing +
          (cut opened before c rest).opened.length := by
  rcases char_cases opened c with hblank | ⟨delimiter, outer, rfl, rfl⟩ | hcode
  · rw [cut_blank _ _ _ hblank]
    simp [Piece.isOpening, Piece.isClosing]
  · obtain ⟨hnone, hlength⟩ := length_opened_cutSegment delimiter outer [] rest
    rw [cut_closing, List.length_cons]
    simp only [List.countP_cons, hnone, Piece.isOpening, Piece.isClosing, hlength]
    simp
    omega
  · cases hopening : Delimiter.opening? (c :: rest) with
    | none =>
        have hdepth : (bracketOpened opened).length = opened.length ∧
            (bracketClosed opened).length = opened.length := by
          cases opened <;> exact ⟨rfl, rfl⟩
        have hlength : (if c = '(' then bracketOpened opened else if c = ')' then
            bracketClosed opened else opened).length = opened.length := by
          split
          · exact hdepth.1
          · split
            · exact hdepth.2
            · rfl
        rw [hcode.cut_lexeme before hopening]
        simp [Piece.isOpening, Piece.isClosing, hlength]
    | some delimiter =>
        obtain ⟨hnone, hlength⟩ := length_opened_cutSegment delimiter opened
          ((c :: rest).take delimiter.width) ((c :: rest).drop delimiter.width)
        rw [hcode.cut_opening before hopening]
        simp only [hnone, hlength]
        omega

/-- Before any piece, no more interpolations have been closed than were open at first or have been
opened. -/
theorem ballot_piecesFrom (opened : List Interpolation) (before : Option Piece)
    (text : List Char) :
    Ballot Piece.isOpening Piece.isClosing opened.length (piecesFrom opened before text) := by
  induction opened, before, text using piecesFrom.induct with
  | case1 opened before =>
      rw [piecesFrom_nil]
      exact Ballot.of_le (Nat.zero_le _)
  | case2 opened before c rest found ih =>
      obtain ⟨hle, hcount⟩ := length_opened_cut opened before c rest
      rw [piecesFrom_cons]
      exact (Ballot.of_le hle).append hcount ih

/-- A character of a piece that is not covered is a closing bracket only in a closing, and an
opening one only in an opening. -/
theorem count_coverage (hgap : piece.isLexeme = false → piece.IsGap) :
    piece.coverage.count (')', false) = [piece].countP Piece.isClosing ∧
      piece.coverage.count ('(', false) = [piece].countP Piece.isOpening := by
  cases piece with
  | lexeme kind literal =>
      have hnone : ∀ c, (Piece.lexeme kind literal).coverage.count (c, false) = 0 := by
        intro c
        simp [Piece.coverage, Piece.isLexeme, List.count_eq_zero]
      exact ⟨hnone _, hnone _⟩
  | blank c =>
      have hnone : ∀ d, Text.isBlank d = false → (Piece.blank c).coverage.count (d, false) = 0 := by
        intro d hd
        obtain ⟨hblank⟩ := hgap rfl
        have hne : c ≠ d := by
          rintro rfl
          rw [hd] at hblank
          cases hblank
        simp [Piece.coverage, Piece.text, hne]
      exact ⟨hnone _ (by decide), hnone _ (by decide)⟩
  | opening hashes =>
      simp [Piece.coverage, Piece.text, Piece.isLexeme, Piece.isOpening, Piece.isClosing,
        List.count_append, List.count_replicate]
  | closing => exact ⟨rfl, rfl⟩

theorem count_take_coverage (hgap : ∀ piece ∈ parts, piece.isLexeme = false → piece.IsGap)
    {slack : Nat} (hballot : Ballot Piece.isOpening Piece.isClosing slack parts) (length : Nat) :
    ((parts.flatMap Piece.coverage).take length).count (')', false) ≤
      ((parts.flatMap Piece.coverage).take length).count ('(', false) + slack := by
  induction parts generalizing slack length with
  | nil => simp
  | cons piece parts ih =>
      obtain ⟨hclosing, hopening⟩ := count_coverage (hgap piece List.mem_cons_self)
      have hpiece := hballot [piece] parts rfl
      rw [List.flatMap_cons, List.take_append, List.count_append, List.count_append]
      by_cases hlength : piece.coverage.length ≤ length
      · -- past the piece, as many closings are allowed as are open after it
        have hcount : [piece].countP Piece.isOpening + slack = [piece].countP Piece.isClosing +
            ([piece].countP Piece.isOpening + slack - [piece].countP Piece.isClosing) := by omega
        have hrest := ih (fun next hnext => hgap next (List.mem_cons_of_mem _ hnext))
          (Ballot.right hballot hcount) (length - piece.coverage.length)
        rw [List.take_of_length_le hlength, hclosing, hopening]
        omega
      · have hzero : length - piece.coverage.length = 0 := by omega
        have hle := (List.take_sublist length piece.coverage).count_le (')', false)
        have hslack : [piece].countP Piece.isClosing ≤ slack := by
          cases piece with
          | closing => simpa [Piece.isOpening] using hpiece
          | lexeme kind literal => exact Nat.zero_le _
          | blank c => exact Nat.zero_le _
          | opening hashes => exact Nat.zero_le _
        rw [hzero, List.take_zero, List.count_nil]
        omega

/-! ## Texts without a backslash -/

/-- Where there is no backslash, no interpolation is opened, and so none is closed. -/
theorem not_delimiter_of_no_backslash (htext : '\\' ∉ text) (h : piece ∈ pieces text) :
    piece.isOpening = false ∧ piece ≠ .closing := by
  have hopening : ∀ other ∈ pieces text, other.isOpening = false := by
    intro other hother
    cases other with
    | opening hashes =>
        refine absurd ?_ htext
        rw [← flatMap_text_pieces text]
        exact List.mem_flatMap.mpr ⟨_, hother, List.mem_cons_self⟩
    | lexeme kind literal => rfl
    | blank c => rfl
    | closing => rfl
  refine ⟨hopening piece h, ?_⟩
  rintro rfl
  have hle := ballot_piecesFrom [] none text _ [] (List.append_nil _).symm
  have hnone : (pieces text).countP Piece.isOpening = 0 :=
    List.countP_eq_zero.mpr fun other hother => by simp [hopening other hother]
  have hpos : 0 < (pieces text).countP Piece.isClosing := List.countP_pos_iff.mpr ⟨_, h, rfl⟩
  rw [pieces] at hnone hpos
  rw [hnone] at hle
  exact absurd (Nat.lt_of_lt_of_le hpos hle) (Nat.lt_irrefl 0)

theorem exists_token_of_no_backslash {left right : List Char} {c : Char}
    (hbackslash : '\\' ∉ left ++ c :: right) (hblank : Text.isBlank c = false) :
    ∃ token ∈ tokens (left ++ c :: right), token.start ≤ Source.bytesOf left ∧
      Source.bytesOf (left ++ [c]) ≤ token.stop := by
  have htext := flatMap_text_pieces (left ++ c :: right)
  obtain ⟨first, piece, second, covered, later, hparts, hpiece, rfl, hlater⟩ :=
    exists_split_of_flatMap htext (List.cons_ne_nil c right)
  obtain ⟨d, later, rfl⟩ := List.exists_cons_of_ne_nil hlater
  -- the character that the piece goes on with is the one that stands there
  obtain rfl : d = c := by
    rw [hparts, List.flatMap_append, List.flatMap_cons, hpiece, List.append_assoc,
      List.append_assoc, List.cons_append] at htext
    exact (List.cons.inj (List.append_cancel_left (List.append_cancel_left htext))).1
  have hmem : piece ∈ pieces (first.flatMap Piece.text ++ covered ++ d :: right) := by
    rw [hparts]
    simp
  obtain ⟨hopening, hclosing⟩ := not_delimiter_of_no_backslash hbackslash hmem
  cases piece with
  | lexeme kind literal =>
      refine ⟨_, exists_token_of_mem_pieces hparts, ?_, ?_⟩
      · simp [Source.bytesOf_append]
      · obtain rfl : literal = covered ++ d :: later := hpiece
        simp only [stop_eq, Source.bytesOf_append, Source.bytesOf_cons, Source.bytesOf_nil]
        omega
  | blank e =>
      obtain ⟨hisBlank⟩ := isGap_of_mem_piecesFrom hmem rfl
      obtain ⟨-, hcons⟩ := List.append_eq_singleton_iff.mp hpiece.symm |>.resolve_right (by simp)
      rw [(List.cons.inj hcons).1, hisBlank] at hblank
      cases hblank
  | opening hashes => cases hopening
  | closing => exact absurd rfl hclosing

theorem Ordered.eq_of_covers {tokens : List Token} (h : Ordered tokens) {token other : Token}
    (htoken : token ∈ tokens) (hother : other ∈ tokens) (hcovers : token.covers byte = true)
    (hcovers' : other.covers byte = true) : other = token := by
  rw [covers_iff] at hcovers hcovers'
  rcases related_of_pairwise h.apart hother htoken with heq | hle | hle
  · exact heq
  · omega
  · omega

end CaptureLint.Token

namespace CaptureLint.Source

open Token

/-- The characters of a source, each with whether a token covers it. -/
def coverage (source : Source) : List (Char × Bool) := Token.coverage source.tokens 0 source.chars

/-- What no token covers are blanks, openings and closings of interpolations, each as a whole; in
every prefix of the text no more brackets that close an interpolation than brackets that open one
are left out; and where there is no backslash, a character that is no blank lies in one token. -/
theorem uncovered_is_blank_or_delimiter (source : Source) :
    (∃ parts, source.tokens = locate 0 parts ∧
      source.coverage = parts.flatMap Piece.coverage ∧
      ∀ piece ∈ parts, piece.isLexeme = false → piece.IsGap) ∧
    (∀ length, (source.coverage.take length).count (')', false) ≤
      (source.coverage.take length).count ('(', false)) ∧
    ('\\' ∉ source.chars → ∀ before c after, source.chars = before ++ c :: after →
      Text.isBlank c = false → ∃ token ∈ source.tokens,
        token.start ≤ bytesOf before ∧ bytesOf (before ++ [c]) ≤ token.stop ∧
        ∀ other ∈ source.tokens, other.covers (bytesOf before) = true → other = token) := by
  have hgap : ∀ piece ∈ pieces source.chars, piece.isLexeme = false → piece.IsGap :=
    fun piece hpiece => isGap_of_mem_piecesFrom hpiece
  have hcoverage : source.coverage = (pieces source.chars).flatMap Piece.coverage :=
    coverage_tokens source.chars
  have hballot : Ballot Piece.isOpening Piece.isClosing 0 (pieces source.chars) :=
    ballot_piecesFrom [] none source.chars
  refine ⟨⟨pieces source.chars, rfl, hcoverage, hgap⟩, fun length => ?_, ?_⟩
  · rw [hcoverage]
    exact count_take_coverage hgap hballot length
  · intro hbackslash before c after hchars hblank
    rw [hchars] at hbackslash
    obtain ⟨token, htoken, hstart, hstop⟩ := exists_token_of_no_backslash hbackslash hblank
    rw [← hchars] at htoken
    refine ⟨token, htoken, hstart, hstop, fun other hother hcovers => ?_⟩
    refine source.ordered_tokens.eq_of_covers htoken hother (covers_iff.mpr ⟨hstart, ?_⟩) hcovers
    have hpos := Char.utf8Size_pos c
    rw [bytesOf_append, bytesOf_cons] at hstop
    omega

end CaptureLint.Source
