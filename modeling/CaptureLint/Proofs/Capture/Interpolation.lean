import CaptureLint.Proofs.Rule.Exactness
import CaptureLint.Proofs.Token.Interpolation

/-!
# Names in interpolations

What the lexer finds in an interpolation are the tokens of the code that stands there, so the names
in string literals count as uses of captured names, at any nesting of literals and interpolations.
-/

namespace CaptureLint.Capture

open Token

variable {source : Source} {token : Token}

/-- A token counts as a use in every range of the source that holds its start: an entry with its
spelling is not unused there. -/
def IsUse (source : Source) (token : Token) : Prop :=
  ∀ body bytes, source.toByteRange? body = some bytes →
    bytes.start ≤ token.start → token.start < bytes.stop →
    ∃ used, namesIn? source source.tokens body = some used ∧
      ∀ entries, ∀ entry ∈ unused entries used, entry.name ≠ token.text

theorem isUse_of_mem_tokens (h : token ∈ source.tokens) (hname : token.kind.isName = true) :
    IsUse source token := by
  intro body bytes hbody hstart hstop
  obtain ⟨hbodyStart, hbodyStop⟩ := Source.toByteRange?_eq_some_iff.mp hbody
  have hnames := UnusedCapture.namesIn?_eq_some source.ordered_tokens.starts hbodyStart hbodyStop
  refine ⟨_, hnames, fun entries entry hentry hsame => ?_⟩
  rw [UnusedCapture.unused_eq_filter] at hentry
  have hunused : UnusedCapture.Unused source.tokens bytes.start bytes.stop entry :=
    of_decide_eq_true (List.mem_filter.mp hentry).2
  exact hunused token h hname hstart hstop hsame.symm

end CaptureLint.Capture

namespace CaptureLint.Source

open Token Capture

/-- An interpolation is lexed like ordinary code.  For code that leaves nothing open and matches its
round brackets, the literal around it consists of the quote in front, the tokens of the code, and
the quote behind; the literal is such code again; and wherever an interpolation of any text holds
the code, every name in it counts as a use. -/
theorem interpolation_lexed_as_code (hashes : Nat) {code : List Char} (h : Embeddable code) :
    Token.tokens (interpolated hashes code) =
      ⟨.string, 0, List.replicate hashes '#' ++ ['"']⟩ ::
        ((Token.tokens code).map (·.shift (2 * hashes + 3)) ++
          [⟨.string, 2 * hashes + 3 + bytesOf code + 1, '"' :: List.replicate hashes '#'⟩]) ∧
    Embeddable (interpolated hashes code) ∧
    ∀ source delimiter outer signs past rest,
      Scanned (Source.chars source) (⟨delimiter, 0⟩ :: outer) (some (.opening signs)) past
        (code ++ ')' :: rest) →
      (HoldsLoneBacktick code → '\x60' ∉ rest.takeWhile (· != '\n')) →
      ∀ token ∈ Token.tokens code,
        token.shift (bytesOf (past.flatMap Piece.text)) ∈ source.tokens ∧
        (token.kind.isName = true →
          IsUse source (token.shift (bytesOf (past.flatMap Piece.text)))) := by
  refine ⟨?_, h.interpolated hashes, ?_⟩
  · have hquote : 2 * hashes + 4 + bytesOf code = 2 * hashes + 3 + bytesOf code + 1 := by omega
    rw [h.tokens_interpolated, hquote]
    rfl
  · intro source delimiter outer signs past rest scanned hrest token htoken
    have hmem : token.shift (bytesOf (past.flatMap Piece.text)) ∈ source.tokens :=
      h.shift_mem_tokens scanned hrest htoken
    exact ⟨hmem, fun hname => isUse_of_mem_tokens hmem hname⟩

theorem nested_interpolation_lexed :
    (Token.tokens (interpolated 1 "f(\"\\(x)\")".toList)).map (·.text) =
      ["#\"", "f", "(", "\"", "x", "\"", ")", "\"#"].map String.toList ∧
    IsUse ⟨none, "\"\\(f(\"\\(x)\"))\"".toList⟩ ⟨.identifier, 8, ['x']⟩ := by
  have hcode : Embeddable "f(\"\\(x)\")".toList :=
    ⟨⟨⟨.punctuation, 9, [')']⟩, by decide +kernel, by decide +kernel⟩, by decide +kernel,
      by decide +kernel⟩
  obtain ⟨htokens, -, -⟩ := interpolation_lexed_as_code 1 hcode
  obtain ⟨-, -, huse⟩ := interpolation_lexed_as_code 0 hcode
  have hscanned : Scanned "\"\\(f(\"\\(x)\"))\"".toList [⟨⟨0, false⟩, 0⟩] (some (.opening 0))
      [.lexeme .string ['"'], .opening 0] ("f(\"\\(x)\")".toList ++ ')' :: ['"']) :=
    Scanned.start.step
  have hinner : ⟨.identifier, 5, ['x']⟩ ∈ Token.tokens "f(\"\\(x)\")".toList := by decide +kernel
  refine ⟨?_, (huse ⟨none, _⟩ _ _ _ _ _ hscanned (fun _ => by decide) _ hinner).2 rfl⟩
  rw [htokens]
  decide +kernel

end CaptureLint.Source
