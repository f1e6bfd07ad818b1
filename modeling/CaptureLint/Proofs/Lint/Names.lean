import CaptureLint.Proofs.Lint.Order
import CaptureLint.Proofs.Rule.Position
import CaptureLint.Proofs.Token.Names

/-!
# Which findings are names

The entries of a capture list are split off its characters, and only the lexer knows which of these
are comments, numbers or parts of a longer expression.  A finding stands between separators, so it is
a name token exactly when it is spelled like one and nothing that starts before it goes on through
it.
-/

namespace CaptureLint.Capture

variable {source : Source} {window : CharRange} {found : Listing} {entry : Entry}

/-- An entry of the capture list of a window stands in the source between two separators. -/
theorem excerpt_of_mem_listing (hfound : listing? source window = some found)
    (h : entry ∈ entries found.text) :
    ∃ left right, source.chars = left ++ (entry.name ++ right) ∧
      found.range.start + entry.nameOffsetInList = left.length ∧
      (∀ c ∈ left.getLast?, Text.isBlank c = true ∨ c ∈ [',', '[']) ∧
      ∀ c ∈ right.head?, Text.isBlank c = true ∨ c ∈ [',', '=', ']'] := by
  obtain ⟨before, text, rest, first, second, after, hchars, rfl, hspelled, hrange⟩ :=
    listing?_eq_some_iff.mp hfound
  obtain ⟨left, right, hgroup, hoffset, -, hapart⟩ := split_of_mem_entriesFrom h
  rw [List.reverse_nil, List.nil_append] at hgroup
  rw [Nat.zero_add] at hoffset
  have hsplit := hspelled.split
  rw [hgroup] at hsplit
  refine ⟨before ++ first ++ '\x7b' :: second ++ '[' :: left, right ++ ']' :: (after ++ rest),
    by simp [hchars, hsplit], ?_, ?_, ?_⟩
  · rw [hrange, hoffset]
    simp only [List.length_append, List.length_cons]
    omega
  · intro c hc
    rw [List.getLast?_append, List.getLast?_cons, Option.some_or, Option.mem_def,
      Option.some.injEq] at hc
    cases hlast : left.getLast? with
    | none =>
        rw [hlast] at hc
        exact .inr (by simp [← hc])
    | some last =>
        rw [hlast, Option.getD_some] at hc
        rcases hapart.before last hlast with hblank | hcomma
        · exact .inl (hc ▸ hblank)
        · exact .inr (by simp [← hc, hcomma])
  · intro c hc
    cases right with
    | nil =>
        obtain rfl : ']' = c := by simpa using hc
        exact .inr (by simp)
    | cons d right =>
        obtain rfl : d = c := by simpa using hc
        rcases hapart.after d rfl with hblank | hcomma | hequals
        · exact .inl hblank
        · exact .inr (by simp [hcomma])
        · exact .inr (by simp [hequals])

end CaptureLint.Capture

namespace CaptureLint.Lint

open Node Token

variable {rules : List Rule} {source : Source} {violation : Violation}

theorem mem_check_of_mem_source (h : violation ∈ (Lint.source rules source).value) :
    ∃ closure severity,
      violation ∈ (UnusedCapture.check severity (.ofSource source) closure).value := by
  rw [value_source, List.mem_mergeSort, List.mem_filter, List.mem_flatMap] at h
  obtain ⟨⟨node, -, hfound⟩, -⟩ := h
  obtain ⟨⟨settings⟩, -, hrule⟩ := List.mem_flatMap.mp hfound
  unfold Rule.check at hrule
  cases hclosure : Closure.ofNode? node with
  | none =>
      rw [hclosure] at hrule
      cases hrule
  | some closure =>
      rw [hclosure] at hrule
      exact ⟨closure, settings.severity, hrule⟩

theorem file_of_mem_source (h : violation ∈ (Lint.source rules source).value) :
    violation.file = source.path := by
  obtain ⟨closure, severity, hcheck⟩ := mem_check_of_mem_source h
  rcases UnusedCapture.check_value severity source closure with
    hnone | ⟨window, list, kept, -, -, -, hvalue⟩
  · rw [hnone] at hcheck
    cases hcheck
  · rw [hvalue] at hcheck
    obtain ⟨entry, -, rfl⟩ := List.mem_map.mp hcheck
    rfl

/-- A finding is a name token exactly when it is spelled like one and no token that starts before it
goes on through it: not the word of a comment, not a number, not a longer expression. -/
theorem finding_is_name_iff (h : violation ∈ (Lint.source rules source).value) :
    ∃ byte, source.byteOfChar? violation.offset = some byte ∧
      ((∃ token ∈ source.tokens, token.kind.isName = true ∧ token.start = byte ∧
          token.text = violation.reference.toList) ↔
        SpellsName violation.reference.toList ∧
          ∀ token ∈ source.tokens, ¬ (token.start < byte ∧ byte < token.stop)) := by
  obtain ⟨closure, severity, hcheck⟩ := mem_check_of_mem_source h
  rcases UnusedCapture.check_value severity source closure with
    hnone | ⟨window, list, kept, -, hlist, hkept, hvalue⟩
  · rw [hnone] at hcheck
    cases hcheck
  rw [hvalue] at hcheck
  obtain ⟨entry, hentry, rfl⟩ := List.mem_map.mp hcheck
  obtain ⟨left, right, hchars, hoffset, hleft, hright⟩ :=
    Capture.excerpt_of_mem_listing hlist (hkept.subset hentry)
  have hreference : (UnusedCapture.violation severity source list.range.start
      entry).reference.toList = entry.name := String.toList_ofList
  refine ⟨Source.bytesOf left, ?_, ?_⟩
  · show source.byteOfChar? (list.range.start + entry.nameOffsetInList) = _
    rw [hoffset]
    exact Source.byteOfChar?_of_excerpt hchars
  · rw [hreference]
    refine Source.name_token_iff hchars (fun c hc hsign => ?_) fun c hc => ?_
    · have hother : ['\\', '#', ')'].any (fun sign => Text.isBlank sign || sign == ',' || sign == '[') =
          false := by decide
      have hleft := hleft c hc
      rw [List.any_eq_false] at hother
      exact hother c hsign (by simpa [or_assoc] using hleft)
    · have hother : [',', '=', ']'].any isNameChar = false := by decide
      rcases hright c hc with hblank | hsign
      · exact not_isNameChar_of_isBlank hblank
      · rw [List.any_eq_false] at hother
        exact Bool.eq_false_iff.mpr (hother c hsign)

theorem finding_is_name_of_capture :
    ∃ source : Source, source.chars = "\x7b [weak a] in b \x7d".toList ∧
      ∃ violation ∈ (Lint.source Config.default.rules source).value, ∃ token ∈ source.tokens,
        token.kind.isName = true ∧ source.byteOfChar? violation.offset = some token.start ∧
          token.text = violation.reference.toList := by
  refine ⟨⟨none, "\x7b [weak a] in b \x7d".toList⟩, rfl, ?_⟩
  have hmem : (⟨UnusedCapture.identifier, "a", none, 8, ⟨1, 9⟩, .warning,
      UnusedCapture.message "a"⟩ : Violation) ∈ (Lint.source Config.default.rules
        ⟨none, "\x7b [weak a] in b \x7d".toList⟩).value := by decide +kernel
  have hfree : ∀ token ∈ Source.tokens ⟨none, "\x7b [weak a] in b \x7d".toList⟩,
      ¬ (token.start < 8 ∧ 8 < token.stop) := by decide +kernel
  obtain ⟨byte, hbyte, hiff⟩ := finding_is_name_iff hmem
  obtain rfl : 8 = byte := Option.some.inj hbyte
  obtain ⟨token, htoken, hname, hstart, htext⟩ :=
    hiff.mpr ⟨.word (.inl rfl) rfl, hfree⟩
  exact ⟨_, hmem, token, htoken, hname, by rw [hbyte, hstart], htext⟩

/-- The last word of a comment behind a capture is reported, and it is no token. -/
theorem comment_sign_reported :
    ¬ ∀ (source : Source) (violation : Violation),
      violation ∈ (Lint.source Config.default.rules source).value →
        ∃ token ∈ source.tokens, token.kind.isName = true ∧
          source.byteOfChar? violation.offset = some token.start ∧
          token.text = violation.reference.toList := by
  intro hall
  have hmem : (⟨UnusedCapture.identifier, "*/", none, 21, ⟨1, 22⟩, .warning,
      UnusedCapture.message "*/"⟩ : Violation) ∈ (Lint.source Config.default.rules
        ⟨none, "\x7b [weak self /* keep */] in self.go() \x7d".toList⟩).value := by decide +kernel
  have hnone : ∀ token ∈ Source.tokens
      ⟨none, "\x7b [weak self /* keep */] in self.go() \x7d".toList⟩,
        token.text ≠ "*/".toList := by decide +kernel
  obtain ⟨token, htoken, -, -, htext⟩ := hall _ _ hmem
  exact hnone token htoken htext

end CaptureLint.Lint
