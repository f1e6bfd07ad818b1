import CaptureLint.Proofs.Token.Comment
import CaptureLint.Proofs.Token.Joining
import CaptureLint.Proofs.Token.Progress

/-!
# String literals of one line

Where no literal has three quotes, a newline ends the segment of a literal, unless it is escaped:
then it belongs to the literal like any other character behind a backslash.  So a literal that is
not closed goes on in the next line only if its line ends with an escape of the literal.
-/

namespace CaptureLint.Token

variable {delimiter : Delimiter} {hashes escaped : Nat} {opened : List Interpolation}
  {before : Option Piece} {c : Char} {rest text past tail lead literal : List Char}
  {parts : List Piece}

/-! ## Escaped newlines -/

/-- Every newline in a text stands right behind a backslash and `hashes` signs `#`. -/
def EscapesNewlines (hashes : Nat) (text : List Char) : Prop :=
  ∀ front back, text = front ++ '\n' :: back →
    ∃ lead, front = lead ++ '\\' :: List.replicate hashes '#'

theorem escapesNewlines_of_not_mem (h : '\n' ∉ text) : EscapesNewlines hashes text := by
  rintro front back rfl
  simp at h

namespace EscapesNewlines

theorem append (h : EscapesNewlines hashes past)
    (htail : ∀ front back, tail = front ++ '\n' :: back →
      ∃ lead, past ++ front = lead ++ '\\' :: List.replicate hashes '#') :
    EscapesNewlines hashes (past ++ tail) := by
  intro front back heq
  rw [List.append_eq_append_iff] at heq
  rcases heq with ⟨inner, rfl, hinner⟩ | ⟨inner, hfront, hinner⟩
  · exact htail inner back hinner
  · cases inner with
    | nil =>
        obtain ⟨lead, hlead⟩ := htail [] back hinner.symm
        rw [List.append_nil] at hlead hfront
        exact ⟨lead, hfront ▸ hlead⟩
    | cons d inner =>
        cases hinner
        exact h front inner hfront

theorem append_of_not_mem (h : EscapesNewlines hashes past) (htail : '\n' ∉ tail) :
    EscapesNewlines hashes (past ++ tail) := by
  refine h.append ?_
  rintro front back rfl
  simp at htail

theorem concat (h : EscapesNewlines hashes past)
    (hc : c = '\n' → ∃ lead, past = lead ++ '\\' :: List.replicate hashes '#') :
    EscapesNewlines hashes (past ++ [c]) := by
  refine h.append fun front back heq => ?_
  cases front with
  | nil =>
      cases heq
      rw [List.append_nil]
      exact hc rfl
  | cons d front => simp at heq

end EscapesNewlines

/-! ## Segments -/

/-- What has been read before `text` while an escape takes `escaped` more characters: the backslash
and some of its signs `#`, of which all but the last of these characters are the others. -/
def Escaping (hashes : Nat) (past text : List Char) : Nat → Prop
  | 0 => True
  | escaped + 1 => ∃ lead passed, past = lead ++ '\\' :: List.replicate passed '#' ∧
      passed + escaped = hashes ∧ (text.takeWhile (· == '#')).length = escaped

/-- The next character of an escape is one of its signs, or the escaped character. -/
theorem Escaping.next (h : Escaping hashes past (c :: text) (escaped + 1)) :
    Escaping hashes (past ++ [c]) text escaped ∧
      (c = '\n' → ∃ lead, past = lead ++ '\\' :: List.replicate hashes '#') := by
  obtain ⟨lead, passed, rfl, hpassed, hsigns⟩ := h
  cases escaped with
  | zero =>
      rw [Nat.add_zero] at hpassed
      exact ⟨True.intro, fun _ => ⟨lead, hpassed ▸ rfl⟩⟩
  | succ escaped =>
      have hsign : c = '#' := by
        by_cases hc : c = '#'
        · exact hc
        · simp [hc] at hsigns
      subst hsign
      refine ⟨⟨lead, passed + 1, ?_, by omega, by simpa using hsigns⟩, fun h => ?_⟩
      · simp [List.replicate_succ']
      · cases h

theorem newline_not_mem_closing (delimiter : Delimiter) : '\n' ∉ delimiter.closing := by
  simp [Delimiter.closing, List.mem_replicate]

/-- A segment of a literal of one line holds no newline that is not escaped. -/
theorem escapesNewlines_segment (hsingle : delimiter.multiline = false)
    (hpast : EscapesNewlines delimiter.hashes past)
    (hescape : Escaping delimiter.hashes past text escaped) :
    EscapesNewlines delimiter.hashes (past ++ text.take (segment delimiter escaped text).1) := by
  fun_induction segment delimiter escaped text generalizing past with
  | case1 => simpa using hpast
  | case2 escaped c text length ending hnext ih =>
      obtain ⟨hafter, hc⟩ := hescape.next
      have hrest := ih (hpast.concat hc) hafter
      rw [hnext, List.append_assoc] at hrest
      exact hrest
  | case3 => simpa using hpast
  | case4 c text hopen hclosed =>
      have hclosing : (c :: text).take delimiter.width = delimiter.closing := by
        have hprefix := List.isPrefixOf_iff_prefix.mp hclosed.2
        have hlength : delimiter.closing.length = delimiter.width := by
          simp [Delimiter.closing, Delimiter.width]
        rw [← hlength]
        exact (List.prefix_iff_eq_take.mp hprefix).symm
      rw [hclosing]
      exact hpast.append_of_not_mem (newline_not_mem_closing delimiter)
  | case5 => simpa using hpast
  | case6 c text hopen hclosed hline escaped length ending hnext =>
      rename_i ih
      have hc : c ≠ '\n' := by
        intro hc
        simp [hc, hsingle] at hline
      have hafter : Escaping delimiter.hashes (past ++ [c]) text escaped := by
        by_cases hescapes : c = '\\' ∧ delimiter.escapes text = true
        · obtain ⟨rfl, hsigns⟩ := hescapes
          have hescaped : escaped = delimiter.hashes + 1 := if_pos ⟨rfl, hsigns⟩
          rw [hescaped]
          exact ⟨past, 0, rfl, Nat.zero_add _, by simpa [Delimiter.escapes] using hsigns⟩
        · have hescaped : escaped = 0 := if_neg hescapes
          rw [hescaped]
          exact True.intro
      have hrest := ih (hpast.concat fun h => absurd h hc) hafter
      rw [hnext, List.append_assoc] at hrest
      exact hrest

theorem literal_of_mem_cutSegment
    (h : .lexeme .string literal ∈ (cutSegment delimiter opened lead text).1) :
    literal = lead ++ text.take (segment delimiter 0 text).1 := by
  rcases hsegment : segment delimiter 0 text with ⟨length, ending⟩
  have hone : ∀ {whole}, .lexeme .string literal ∈ (if List.isEmpty whole then []
      else [Piece.lexeme .string whole]) → literal = whole := by
    intro whole hmem
    split at hmem
    · cases hmem
    · exact (Piece.lexeme.inj (List.mem_singleton.mp hmem)).2
  cases ending with
  | interpolation =>
      simp only [cutSegment, hsegment, List.mem_append, List.mem_singleton] at h
      rcases h with h | h
      · exact hone h
      · cases h
  | closed | broken =>
      simp only [cutSegment, hsegment] at h
      exact hone h

theorem mem_opened_cutSegment {inner : Interpolation}
    (h : inner ∈ (cutSegment delimiter opened lead text).2.1) :
    inner ∈ opened ∨ inner.delimiter = delimiter := by
  rcases hsegment : segment delimiter 0 text with ⟨length, ending⟩
  cases ending with
  | interpolation =>
      simp only [cutSegment, hsegment, List.mem_cons] at h
      rcases h with rfl | h
      · exact .inr rfl
      · exact .inl h
  | closed | broken =>
      simp only [cutSegment, hsegment] at h
      exact .inl h

theorem mem_cutSegment_of_lead (delimiter : Delimiter) (opened : List Interpolation)
    (hlead : lead ≠ []) (text : List Char) :
    .lexeme .string (lead ++ text.take (segment delimiter 0 text).1) ∈
      (cutSegment delimiter opened lead text).1 := by
  rcases hsegment : segment delimiter 0 text with ⟨length, ending⟩
  cases ending <;> simp [cutSegment, hsegment, hlead]

/-! ## Literals of one line -/

/-- A literal of one line with this delimiter starts with one of the pieces. -/
def Opens (parts : List Piece) (delimiter : Delimiter) : Prop :=
  delimiter.multiline = false ∧
    ∃ tail, .lexeme .string (List.replicate delimiter.hashes '#' ++ '"' :: tail) ∈ parts

theorem Opens.append (h : Opens parts delimiter) (later : List Piece) :
    Opens (parts ++ later) delimiter :=
  ⟨h.1, h.2.imp fun _ hmem => List.mem_append_left later hmem⟩

/-- The pieces so far have literals of one line only, and a newline in one of these is escaped in the
manner of a literal. -/
structure OneLine (opened : List Interpolation) (parts : List Piece) : Prop where
  opened : ∀ inner ∈ opened, Opens parts inner.delimiter
  escaped : ∀ literal, .lexeme .string literal ∈ parts →
    ∃ delimiter, Opens parts delimiter ∧ EscapesNewlines delimiter.hashes literal

/-- Without three quotes in a row a literal is opened by one quote. -/
theorem split_of_opening? (h : Delimiter.opening? text = some delimiter)
    (hquotes : ¬ ['"', '"', '"'] <:+: text) :
    delimiter.multiline = false ∧
      text.take delimiter.width = List.replicate delimiter.hashes '#' ++ ['"'] := by
  have hsigns : text.take (text.takeWhile (· == '#')).length =
      List.replicate (text.takeWhile (· == '#')).length '#' := by
    rw [← List.prefix_iff_eq_take.mp (List.takeWhile_prefix _), List.eq_replicate_iff]
    exact ⟨rfl, fun c hc => by simpa using List.all_eq_true.mp List.all_takeWhile c hc⟩
  unfold Delimiter.opening? at h
  dsimp only at h
  split at h
  next rest hdrop =>
    refine absurd ?_ hquotes
    rw [← List.take_append_drop (text.takeWhile (· == '#')).length text, hdrop]
    exact ⟨_, rest, (List.append_assoc _ _ _)⟩
  next rest hthree hdrop =>
    cases h
    refine ⟨rfl, ?_⟩
    show text.take (1 + (text.takeWhile (· == '#')).length) = _
    rw [Nat.add_comm, List.take_add, hsigns, hdrop]
    rfl
  · cases h

/-- Brackets do not change the literals that the open interpolations stand in. -/
theorem exists_delimiter_of_bracket (c : Char) {inner : Interpolation}
    (h : inner ∈ if c = '(' then bracketOpened opened else
      if c = ')' then bracketClosed opened else opened) :
    ∃ outer ∈ opened, inner.delimiter = outer.delimiter := by
  cases opened with
  | nil => simp [bracketOpened, bracketClosed] at h
  | cons outer opened =>
      have hkept : ∀ depth, inner ∈ { outer with depth } :: opened →
          ∃ outer' ∈ outer :: opened, inner.delimiter = outer'.delimiter := by
        intro depth hinner
        rcases List.mem_cons.mp hinner with rfl | hinner
        · exact ⟨outer, List.mem_cons_self, rfl⟩
        · exact ⟨inner, List.mem_cons_of_mem _ hinner, rfl⟩
      split at h
      · exact hkept _ h
      · split at h
        · exact hkept _ h
        · exact ⟨inner, h, rfl⟩

theorem lexemeAt_ne_string (bound : Bool) (c : Char) (rest : List Char) :
    (lexemeAt bound c rest).1 ≠ .string := by
  intro hstring
  by_cases hline : c = '/' ∧ rest.head? = some '/'
  · rw [lexemeAt, if_pos hline] at hstring
    cases hstring
  by_cases hblock : c = '/' ∧ rest.head? = some '*'
  · rw [lexemeAt, if_neg hline, if_pos hblock] at hstring
    cases hstring
  · exact kind_lexemeAt bound hline hblock (by simp [hstring])

namespace OneLine

variable {opened' : List Interpolation} {later : List Piece}

theorem append (h : OneLine opened parts)
    (hopened : ∀ inner ∈ opened', ∃ outer ∈ opened, inner.delimiter = outer.delimiter)
    (hlater : ∀ literal, .lexeme .string literal ∉ later) : OneLine opened' (parts ++ later) := by
  constructor
  · intro inner hinner
    obtain ⟨outer, houter, heq⟩ := hopened inner hinner
    rw [heq]
    exact (h.opened outer houter).append later
  · intro literal hliteral
    have hmem := (List.mem_append.mp hliteral).resolve_right (hlater literal)
    obtain ⟨delimiter, hopens, hescaped⟩ := h.escaped literal hmem
    exact ⟨delimiter, hopens.append later, hescaped⟩

theorem cutSegment (h : OneLine opened parts) (hlead : '\n' ∉ lead) (text : List Char)
    (hopens : Opens (parts ++ (Token.cutSegment delimiter opened lead text).1) delimiter) :
    OneLine (Token.cutSegment delimiter opened lead text).2.1
      (parts ++ (Token.cutSegment delimiter opened lead text).1) := by
  constructor
  · intro inner hinner
    rcases mem_opened_cutSegment hinner with hinner | rfl
    · exact (h.opened inner hinner).append _
    · exact hopens
  · intro literal hliteral
    rcases List.mem_append.mp hliteral with hmem | hmem
    · obtain ⟨delimiter, hopens, hescaped⟩ := h.escaped literal hmem
      exact ⟨delimiter, hopens.append _, hescaped⟩
    · rw [literal_of_mem_cutSegment hmem]
      exact ⟨delimiter, hopens,
        escapesNewlines_segment hopens.1 (escapesNewlines_of_not_mem hlead) True.intro⟩

theorem cut (h : OneLine opened parts) (before : Option Piece)
    (hquotes : ¬ ['"', '"', '"'] <:+: c :: rest) :
    OneLine (Token.cut opened before c rest).opened
      (parts ++ (Token.cut opened before c rest).pieces) := by
  rcases char_cases opened c with hblank | ⟨delimiter, outer, rfl, rfl⟩ | hcode
  · rw [cut_blank _ _ _ hblank]
    exact h.append (fun inner hinner => ⟨inner, hinner, rfl⟩) (by simp)
  · -- the segment behind the bracket goes on with a literal opened before
    have hclosing : OneLine outer (parts ++ [.closing]) :=
      h.append (fun inner hinner => ⟨inner, List.mem_cons_of_mem _ hinner, rfl⟩) (by simp)
    have hopens : Opens (parts ++ [.closing]) delimiter :=
      (h.opened _ List.mem_cons_self).append _
    have hsegment := hclosing.cutSegment List.not_mem_nil rest (hopens.append _)
    rw [List.append_assoc] at hsegment
    exact hsegment
  · cases hopening : Delimiter.opening? (c :: rest) with
    | none =>
        rw [hcode.cut_lexeme before hopening]
        refine h.append (fun inner hinner => exists_delimiter_of_bracket c hinner) ?_
        intro literal hmem
        have hkind := (Piece.lexeme.inj (List.mem_singleton.mp hmem)).1
        exact lexemeAt_ne_string _ _ _ hkind.symm
    | some delimiter =>
        obtain ⟨hsingle, hlead⟩ := split_of_opening? hopening hquotes
        rw [hcode.cut_opening before hopening, hlead]
        have hne : List.replicate delimiter.hashes '#' ++ ['"'] ≠ [] := by simp
        have hmem := mem_cutSegment_of_lead delimiter opened hne ((c :: rest).drop delimiter.width)
        rw [List.append_assoc] at hmem
        exact h.cutSegment (by simp [List.mem_replicate]) _
          ⟨hsingle, _, List.mem_append_right parts hmem⟩

end OneLine

theorem Scanned.oneLine {text : List Char} (h : Scanned text opened before parts rest)
    (hquotes : ¬ ['"', '"', '"'] <:+: text) : OneLine opened parts := by
  induction h with
  | start => exact ⟨nofun, nofun⟩
  | step scanned ih =>
      refine ih.cut _ fun hinfix => hquotes ?_
      rw [← scanned.flatMap_text]
      exact hinfix.trans (List.suffix_append _ _).isInfix

end CaptureLint.Token

namespace CaptureLint.Source

open Token

/-- In a source without three quotes in a row, a newline in a string token is escaped in the manner of
a literal there: it stands right behind a backslash and as many signs `#` as the literal has in front.
So where no newline stands behind such signs, no string token holds one, and what is not closed
on its line takes nothing of the next one. -/
theorem newlines_in_strings_escaped (source : Source)
    (hquotes : ¬ ['"', '"', '"'] <:+: source.chars) :
    (∀ token ∈ source.tokens, token.kind = .string →
      ∃ hashes, (∃ literal ∈ source.tokens, literal.kind = .string ∧
          List.replicate hashes '#' ++ ['"'] <+: literal.text) ∧
        ∀ front back, token.text = front ++ '\n' :: back →
          ∃ lead, front = lead ++ '\\' :: List.replicate hashes '#') ∧
    ((∀ hashes, ¬ '\\' :: (List.replicate hashes '#' ++ ['\n']) <:+: source.chars) →
      ∀ token ∈ source.tokens, token.kind = .string → '\n' ∉ token.text) := by
  have hescaped : ∀ token ∈ source.tokens, token.kind = .string →
      ∃ delimiter, Opens (pieces source.chars) delimiter ∧
        EscapesNewlines delimiter.hashes token.text := by
    intro token htoken hkind
    obtain ⟨opened, before, hfinish⟩ := (@Scanned.start source.chars).finish
    have hone := hfinish.oneLine hquotes
    obtain ⟨left, right, hsplit⟩ := List.append_of_mem htoken
    obtain ⟨first, second, hparts, -, -⟩ := locate_split hsplit
    refine hone.escaped token.text ?_
    rw [← hkind]
    show _ ∈ pieces source.chars
    rw [hparts]
    exact List.mem_append_right _ List.mem_cons_self
  constructor
  · intro token htoken hkind
    obtain ⟨delimiter, ⟨-, tail, hopens⟩, hnewlines⟩ := hescaped token htoken hkind
    obtain ⟨first, second, hparts⟩ := List.append_of_mem hopens
    refine ⟨delimiter.hashes, ⟨_, exists_token_of_mem_pieces hparts, rfl, tail, ?_⟩, hnewlines⟩
    simp
  · intro hnone token htoken hkind hnewline
    obtain ⟨delimiter, -, hnewlines⟩ := hescaped token htoken hkind
    obtain ⟨front, back, htext⟩ := List.append_of_mem hnewline
    obtain ⟨lead, rfl⟩ := hnewlines front back htext
    obtain ⟨before, after, hchars, -⟩ := exists_excerpt_of_mem_tokens htoken
    refine hnone delimiter.hashes ⟨before ++ lead, back ++ after, ?_⟩
    rw [hchars, htext]
    simp

theorem unclosed_literal_ends_with_line :
    ¬ ['"', '"', '"'] <:+: "let s = \"oops\nafter".toList ∧
      ∀ token ∈ tokens ⟨none, "let s = \"oops\nafter".toList⟩,
        token.kind = .string → '\n' ∉ token.text := by
  have hquotes : ¬ ['"', '"', '"'] <:+: "let s = \"oops\nafter".toList := by decide +kernel
  refine ⟨hquotes, (newlines_in_strings_escaped ⟨none, _⟩ hquotes).2 fun hashes hinfix => ?_⟩
  have hmem : '\\' ∈ "let s = \"oops\nafter".toList := hinfix.subset List.mem_cons_self
  revert hmem
  decide

/-- An escape takes the newline at the end of its line into the literal. -/
theorem escaped_newline_in_string :
    ¬ ∀ source : Source, ¬ ['"', '"', '"'] <:+: source.chars →
      ∀ token ∈ source.tokens, token.kind = .string → '\n' ∉ token.text := by
  intro hall
  have hmem : (⟨.string, 0, "\"a\\\nb".toList⟩ : Token) ∈ tokens ⟨none, "\"a\\\nb".toList⟩ := by
    decide +kernel
  exact hall ⟨none, "\"a\\\nb".toList⟩ (by decide +kernel) _ hmem rfl (by decide)

end CaptureLint.Source
