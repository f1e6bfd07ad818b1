import CaptureLint.Proofs.Suppression.Meaning

/-!
# Marks of single lines

A table keeps one mark for a line, and a later mark for the same line would take its place.  It
never comes to that: directives are line comments, and no two of these start on one line.  So
whenever a directive is taken up its line is free, and every directive for one line is found in the
table.
-/

namespace CaptureLint.Suppression

namespace Directive

def forLine : Directive → Bool
  | ignore .sameLine _ | ignore .nextLine _ => true
  | _ => false

end Directive

variable {tokens : List Token} {token : Token} {directive : Directive}

theorem mem_directives_of_ofToken? (source : Source) (htoken : token ∈ tokens)
    (h : Directive.ofToken? token = some directive) :
    (source.lineOfByte token.start, directive) ∈ directives source tokens := by
  rw [directives_eq_filterMap, List.mem_filterMap]
  exact ⟨token, htoken, by rw [h, Option.map_some]⟩

theorem increasing_lines (source : Source) : source.tokens.Pairwise fun token later =>
    (Directive.ofToken? token).isSome → (Directive.ofToken? later).isSome →
      source.lineOfByte token.start < source.lineOfByte later.start := by
  have hlines := increasing_directives source
  rw [directives_eq_filterMap, List.pairwise_filterMap] at hlines
  apply hlines.imp
  intro token later hapart htoken hlater
  obtain ⟨directive, hdirective⟩ := Option.isSome_iff_exists.mp htoken
  obtain ⟨directive', hdirective'⟩ := Option.isSome_iff_exists.mp hlater
  exact hapart _ (by rw [hdirective, Option.map_some]) _ (by rw [hdirective', Option.map_some])

/-- What has been read when a directive is taken up left marks on earlier lines only. -/
theorem line_lt_of_split {earlier later directives : List (Nat × Directive)} {line : Nat}
    (hlines : directives.Pairwise fun first second => first.1 < second.1)
    (hsplit : directives = earlier ++ (line, directive) :: later) {mark : LineMark}
    (hmark : mark ∈ (Reading.initial.takeAll earlier).marks) : mark.line < line := by
  rw [hsplit, List.pairwise_append] at hlines
  rw [marks_takeAll hlines.1, List.mem_filterMap] at hmark
  obtain ⟨other, hother, hmark⟩ := hmark
  rw [line_of_markOf? hmark]
  exact hlines.2.2 other hother _ List.mem_cons_self

theorem isSome_markOf? (line : Nat) (directive : Directive) :
    (markOf? (line, directive)).isSome = directive.forLine := by
  cases directive with
  | ignore extent terms => cases extent <;> rfl
  | endBlock => rfl

theorem marks_ofSource (source : Source) :
    (Table.ofSource source source.tokens).marks =
      (directives source source.tokens).filterMap markOf? :=
  marks_takeAll (increasing_directives source)

theorem length_marks_ofSource (source : Source) :
    (Table.ofSource source source.tokens).marks.length =
      source.tokens.countP fun token => (Directive.ofToken? token).any Directive.forLine := by
  rw [marks_ofSource, directives_eq_filterMap, List.filterMap_filterMap,
    List.length_filterMap_eq_countP]
  apply List.countP_congr
  intro token _
  cases Directive.ofToken? token with
  | none => rfl
  | some directive => exact iff_of_eq (congrArg (· = true) (isSome_markOf? _ directive))

/-- No directive takes the place of another one.  Comments that are directives start on lines that
increase, whatever strings, interpolations or block comments stand around them.  When a directive is
taken up, all marks that have been left so far are on earlier lines.  So the table holds what every
directive for one line says, and has as many marks as there are such directives. -/
theorem directives_on_own_lines (source : Source) :
    (source.tokens.Pairwise fun token later =>
      (Directive.ofToken? token).isSome → (Directive.ofToken? later).isSome →
        source.lineOfByte token.start < source.lineOfByte later.start) ∧
    (∀ earlier line directive later,
      directives source source.tokens = earlier ++ (line, directive) :: later →
        ∀ mark ∈ (Reading.initial.takeAll earlier).marks, mark.line < line) ∧
    (∀ token ∈ source.tokens, ∀ extent terms,
      Directive.ofToken? token = some (.ignore extent terms) → extent ≠ .block →
        ⟨source.lineOfByte token.start, extent == .nextLine, terms⟩ ∈
          (Table.ofSource source source.tokens).marks) ∧
    (Table.ofSource source source.tokens).marks.length =
      source.tokens.countP fun token => (Directive.ofToken? token).any Directive.forLine := by
  constructor
  · exact increasing_lines source
  constructor
  · intro earlier line directive later hsplit mark hmark
    exact line_lt_of_split (increasing_directives source) hsplit hmark
  constructor
  · intro token htoken extent terms hdirective hextent
    have hmem := mem_directives_of_ofToken? source htoken hdirective
    rw [marks_ofSource, mem_marks_iff]
    cases extent with
    | sameLine => exact hmem
    | nextLine => exact hmem
    | block => exact absurd rfl hextent
  · exact length_marks_ofSource source

end CaptureLint.Suppression
