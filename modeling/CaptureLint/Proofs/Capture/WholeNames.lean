import CaptureLint.Proofs.Rule.Exactness
import CaptureLint.Proofs.Token.Names

/-!
# Names are read and matched whole

The spelling of a name token decides its kind, and all name characters that follow belong to it, in
interpolations too.  Captured names are compared with such tokens only, so none counts as used
because a longer name starts with it.
-/

namespace CaptureLint.Token

variable {c : Char} {rest : List Char} {kind : TokenKind} {length : Nat} {bound : Bool}

/-- The spellings of name tokens, each with its kind.  A word is a keyword exactly if it is
reserved. -/
inductive SpellsKind : TokenKind → List Char → Prop where
  | dollar {rest : List Char} (hrest : rest.all isNameChar = true) :
      SpellsKind .identifier ('$' :: rest)
  | quoted {name : List Char} (hne : name ≠ [])
      (hname : name.all (fun c => c != '\x60' && c != '\n') = true) :
      SpellsKind .identifier ('\x60' :: (name ++ ['\x60']))
  | hash {rest : List Char} (hne : rest ≠ []) (hrest : rest.all isNameChar = true) :
      SpellsKind .keyword ('#' :: rest)
  | word {c : Char} {rest : List Char} (hstart : isNameStart c = true)
      (hrest : rest.all isNameChar = true) :
      SpellsKind (if Keyword.isReserved (c :: rest) then .keyword else .identifier) (c :: rest)

/-- A name that stands in a source at a byte offset with all of its characters: unless it is closed
by a backtick, no name character follows. -/
def StandsWhole (source : Source) (start : Nat) (name : List Char) : Prop :=
  ∃ before after, source.chars = before ++ name ++ after ∧ start = Source.bytesOf before ∧
    (name.head? ≠ some '\x60' → ∀ d ∈ after.head?, isNameChar d = false)

/-! ## One lexeme -/

theorem not_isNameChar_after_name (text : List Char) :
    ∀ d ∈ (text.drop (nameLength text)).head?, isNameChar d = false := by
  intro d hd
  have hstop := List.head?_dropWhile_not isNameChar text
  rw [nameLength, Text.drop_takeWhile, Option.mem_def] at hd
  rwa [hd] at hstop

theorem lexemeAt_nameStart (bound : Bool) (h : isNameStart c = true) (rest : List Char) :
    lexemeAt bound c rest =
      (if Keyword.isReserved (c :: rest.take (nameLength rest)) then .keyword else .identifier,
        nameLength rest) := by
  have hread := lexemeAt_word_eq bound h (all_take_nameLength rest) (not_isNameChar_after_name rest)
  rwa [List.take_append_drop, take_nameLength, ← nameLength, ← take_nameLength] at hread

/-- A lexeme that is a name has the kind of its spelling, and takes all name characters. -/
theorem whole_lexemeAt (h : lexemeAt bound c rest = (kind, length)) (hkind : kind.isName = true) :
    SpellsKind kind (c :: rest.take length) ∧
      (c ≠ '\x60' → ∀ d ∈ (rest.drop length).head?, isNameChar d = false) := by
  have hname : SpellsName (c :: rest.take length) := by
    have hnamed := named_lexemeAt bound c rest
    rw [h] at hnamed
    exact hnamed hkind
  have hall := all_take_nameLength rest
  have hafter := not_isNameChar_after_name rest
  generalize htake : rest.take length = name at hname ⊢
  cases hname with
  | word hstart hrest =>
      rcases hstart with hstart | rfl
      · rw [lexemeAt_nameStart bound hstart] at h
        cases h
        rw [← htake]
        exact ⟨.word hstart hall, fun _ => hafter⟩
      · have hread : lexemeAt bound '$' rest = (.identifier, nameLength rest) := by simp [lexemeAt]
        rw [hread] at h
        cases h
        exact ⟨.dollar hrest, fun _ => hafter⟩
  | hash hne hrest =>
      by_cases hlength : nameLength rest = 0
      · have hread : lexemeAt bound '#' rest = (.punctuation, 0) := by simp [lexemeAt, hlength]
        rw [hread] at h
        cases h
        cases hkind
      · have hread : lexemeAt bound '#' rest = (.keyword, nameLength rest) := by
          simp [lexemeAt, hlength]
        rw [hread] at h
        cases h
        exact ⟨.hash hne hrest, fun _ => hafter⟩
  | quoted hne hname =>
      refine ⟨?_, fun hopen => absurd rfl hopen⟩
      have hidentifier : kind = .identifier := by
        cases hquoted : quotedNameLength? rest with
        | none =>
            have hread : lexemeAt bound '\x60' rest = (.punctuation, 0) := by
              simp [lexemeAt, hquoted]
            rw [hread] at h
            cases h
            cases hkind
        | some size =>
            have hread : lexemeAt bound '\x60' rest = (.identifier, size) := by
              simp [lexemeAt, hquoted]
            rw [hread] at h
            exact (Prod.mk.inj h).1.symm
      rw [hidentifier]
      exact .quoted hne hname

end CaptureLint.Token

namespace CaptureLint.Source

open Token Capture

variable {source : Source} {token : Token}

/-! ## The names of a source -/

theorem whole_of_mem_tokens (h : token ∈ source.tokens) (hkind : token.kind.isName = true) :
    SpellsKind token.kind token.text ∧ StandsWhole source token.start token.text := by
  obtain ⟨left, right, hsplit⟩ := List.append_of_mem h
  have hcode : token.kind ≠ .string := by
    intro hstring
    rw [hstring] at hkind
    cases hkind
  obtain ⟨first, second, hparts, hstart, -⟩ := locate_split hsplit
  obtain ⟨inner, last, c, rest, hcut, hsecond⟩ := exists_cut_of_lexeme hcode hparts
  obtain ⟨hlexeme, hliteral⟩ := lexemeAt_of_cut hcode hcut
  obtain ⟨hspells, hwhole⟩ := whole_lexemeAt hlexeme hkind
  rw [← hliteral] at hspells
  have hafter : second.flatMap Piece.text = rest.drop (cut inner last c rest).taken := by
    rw [hsecond, flatMap_text_piecesFrom]
  refine ⟨hspells, first.flatMap Piece.text, second.flatMap Piece.text, ?_, by simpa using hstart,
    fun hopen => ?_⟩
  · rw [← flatMap_text_pieces source.chars, hparts]
    simp [Piece.text]
  · rw [hafter]
    refine hwhole fun hquote => hopen ?_
    rw [hliteral, hquote, List.head?_cons]

theorem whole_of_mem_names {body : CharRange} {names : List (List Char)} {name : List Char}
    (h : namesIn? source source.tokens body = some names) (hname : name ∈ names) :
    ∃ bytes start kind, source.toByteRange? body = some bytes ∧ bytes.start ≤ start ∧
      start < bytes.stop ∧ SpellsKind kind name ∧ StandsWhole source start name := by
  cases hbody : source.toByteRange? body with
  | none => simp [namesIn?, hbody] at h
  | some bytes =>
      obtain ⟨hstart, hstop⟩ := toByteRange?_eq_some_iff.mp hbody
      rw [UnusedCapture.namesIn?_eq_some source.ordered_tokens.starts hstart hstop] at h
      cases h
      obtain ⟨token, hmem, rfl⟩ := List.mem_map.mp hname
      simp only [List.mem_filter, Bool.and_eq_true, decide_eq_true_eq] at hmem
      obtain ⟨⟨htoken, hfirst, hlast⟩, hkind⟩ := hmem
      exact ⟨bytes, token.start, token.kind, rfl, hfirst, hlast, whole_of_mem_tokens htoken hkind⟩

/-- Names are read whole and have the kind of their spelling, at any depth of interpolations.  What
keeps a captured name from being unused in a range of characters is such a name there, with the same
spelling. -/
theorem names_read_whole (source : Source) :
    (∀ token ∈ source.tokens, token.kind.isName = true →
      SpellsKind token.kind token.text ∧ StandsWhole source token.start token.text) ∧
    ∀ body names, namesIn? source source.tokens body = some names →
      ∀ entries : List Capture.Entry, ∀ entry ∈ entries, entry ∉ unused entries names →
        ∃ bytes start kind, source.toByteRange? body = some bytes ∧ bytes.start ≤ start ∧
          start < bytes.stop ∧ SpellsKind kind entry.name ∧ StandsWhole source start entry.name := by
  refine ⟨fun token htoken hkind => whole_of_mem_tokens htoken hkind, ?_⟩
  intro body names hnames entries entry hentry hused
  have hmem : entry.name ∈ names := Decidable.byContradiction fun hnone =>
    hused (List.mem_filter.mpr ⟨hentry, by simpa using hnone⟩)
  exact whole_of_mem_names hnames hmem

end CaptureLint.Source
