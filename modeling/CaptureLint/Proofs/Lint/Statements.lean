import CaptureLint.Proofs.Lint.Order
import CaptureLint.Proofs.Rule.Excerpt
import CaptureLint.Proofs.Structure.Joining
import CaptureLint.Proofs.Token.Joining

/-!
# Linting statement by statement

Two texts may be joined by a semicolon on a line of its own.  When the first leaves nothing open, no
context crosses the semicolon: the joined text has the tokens, the nodes and the findings of the
first text, and after them those of the second, further on.
-/

namespace CaptureLint.Lint

open Node Suppression

/-! ## Sorting -/

section Sorting

variable {α : Type} {le : α → α → Bool} (trans : ∀ a b c, le a b = true → le b c = true → le a c)
  (total : ∀ a b, (le a b || le b a) = true)

include trans total

theorem mergeSort_cons_eq (item : α) (items : List α) :
    (item :: items).mergeSort le =
      (items.mergeSort le).filter (!le item ·) ++
        item :: (items.mergeSort le).filter (le item) := by
  obtain ⟨before, after, hsorted, hrest, hbefore⟩ := List.mergeSort_cons trans total item items
  have hpairwise := List.pairwise_mergeSort trans total (item :: items)
  rw [hsorted, List.pairwise_append, List.pairwise_cons] at hpairwise
  have hafter : ∀ other ∈ after, le item other = true := hpairwise.2.1.1
  have hnone : before.filter (le item) = [] :=
    List.filter_eq_nil_iff.mpr fun other hother => by simpa using hbefore other hother
  have hnone' : after.filter (!le item ·) = [] :=
    List.filter_eq_nil_iff.mpr fun other hother => by simpa using hafter other hother
  rw [hsorted, hrest, List.filter_append, List.filter_append, hnone, hnone',
    List.filter_eq_self.mpr hbefore, List.filter_eq_self.mpr hafter, List.append_nil,
    List.nil_append]

theorem mergeSort_append {first second : List α} (h : ∀ a ∈ first, ∀ b ∈ second, le a b = true) :
    (first ++ second).mergeSort le = first.mergeSort le ++ second.mergeSort le := by
  induction first with
  | nil => rw [List.mergeSort_nil, List.nil_append, List.nil_append]
  | cons item first ih =>
      have hsecond : ∀ other ∈ second.mergeSort le, le item other = true :=
        fun other hother => h item List.mem_cons_self other (List.mem_mergeSort.mp hother)
      have hnone : (second.mergeSort le).filter (!le item ·) = [] :=
        List.filter_eq_nil_iff.mpr fun other hother => by simpa using hsecond other hother
      rw [List.cons_append, mergeSort_cons_eq trans total, mergeSort_cons_eq trans total item first,
        ih fun a ha => h a (List.mem_cons_of_mem _ ha), List.filter_append, List.filter_append,
        hnone, List.filter_eq_self.mpr hsecond, List.append_nil, List.append_assoc,
        List.cons_append]

end Sorting

/-! ## Findings of a part -/

variable {inner outer source : Source} {before after first second : List Char} {rules : List Rule}
  {node : Node} {violation : Violation}

theorem lt_charLength_of_mem_foundAt (h : violation ∈ foundAt rules (.ofSource source) node) :
    violation.offset < source.charLength := by
  obtain ⟨⟨settings⟩, -, hcheck⟩ := List.mem_flatMap.mp h
  cases hclosure : Closure.ofNode? node with
  | none => simp [Rule.check, hclosure] at hcheck
  | some closure =>
      have hfound : violation ∈
          (UnusedCapture.check settings.severity (.ofSource source) closure).value := by
        simpa only [Rule.check, hclosure] using hcheck
      obtain ⟨window, hwindow, -, hlt⟩ := UnusedCapture.offset_bounds_of_mem_check hfound
      have hbytes := (Closure.window?_eq_some_iff.mp hwindow).1
      have hstop := (Source.toCharRange?_eq_some_iff.mp hbytes).2
      have hle := (Source.byteOfChar?_eq_some_iff.mp hstop).1
      omega

theorem ofNode?_shift (distance : Nat) (node : Node) :
    Closure.ofNode? (node.shift distance) = (Closure.ofNode? node).map (.shift distance) := by
  unfold Closure.ofNode?
  rw [kind_shift, range_shift, children_shift, List.head?_map, Option.map_map]
  have hstart : Node.start ∘ Node.shift distance = (· + distance) ∘ Node.start :=
    funext fun child => start_shift child
  by_cases hkind : node.kind = .closure
  · rw [if_pos hkind, if_pos hkind, Option.map_some, Closure.shift, Option.map_map, hstart]
  · rw [if_neg hkind, if_neg hkind]
    rfl

theorem foundAt_shift (h : inner.PartOf outer before after) (rules : List Rule)
    (hnode : node ∈ forestPreorder (inner.structureOf inner.tokens)) :
    foundAt rules (.ofSource outer) (node.shift (Source.bytesOf before)) =
      (foundAt rules (.ofSource inner) node).map
        (Violation.shift before.length (before.count '\n')) := by
  unfold foundAt
  rw [List.map_flatMap]
  refine congrArg List.flatten (List.map_congr_left ?_)
  rintro ⟨settings⟩ -
  unfold Rule.check
  dsimp only
  rw [ofNode?_shift]
  cases hclosure : Closure.ofNode? node with
  | none => rfl
  | some closure =>
      exact UnusedCapture.value_check_shift h settings.severity
        (Closure.fits_of_mem_structureOf hnode hclosure)

/-- The nodes of a part have the findings that they have on their own. -/
theorem found_shift (h : inner.PartOf outer before after) (rules : List Rule) :
    (closures ((inner.structureOf inner.tokens).map (Node.shift (Source.bytesOf before)))).flatMap
        (foundAt rules (.ofSource outer)) =
      ((closures (inner.structureOf inner.tokens)).flatMap
        (foundAt rules (.ofSource inner))).map
          (Violation.shift before.length (before.count '\n')) := by
  rw [closures_eq_filter, closures_eq_filter, flatMap_closures, flatMap_closures,
    ← forestShift_eq_map, forestPreorder_shift, List.flatMap_map, List.map_flatMap]
  exact congrArg List.flatten (List.map_congr_left fun node hnode => foundAt_shift h rules hnode)

theorem value_of_no_directives (rules : List Rule) (h : directives source source.tokens = []) :
    (Lint.source rules source).value =
      ((closures (source.structureOf source.tokens)).flatMap
        (foundAt rules (.ofSource source))).mergeSort
          fun first second => first.offset ≤ second.offset := by
  have hsuppresses : ∀ line ruleId,
      (Table.ofSource source source.tokens).suppresses line ruleId = false := by
    intro line ruleId
    rw [Table.ofSource, h]
    rfl
  rw [value_source, List.filter_eq_self.mpr fun violation _ => by rw [hsuppresses]; rfl]

/-- Whether tokens hold a directive does not depend on where they stand. -/
theorem directives_eq_nil_iff (source : Source) (tokens : List Token) :
    directives source tokens = [] ↔
      ∀ token ∈ tokens, token.kind = .comment → Directive.ofComment? token.text = none := by
  rw [directives, List.filterMap_eq_nil_iff]
  refine forall₂_congr fun token _ => ?_
  by_cases hkind : token.kind = .comment
  · cases Directive.ofComment? token.text <;> simp [hkind]
  · simp [hkind]

/-! ## Two statements -/

def joined (first second : List Char) : List Char := first ++ '\n' :: ';' :: '\n' :: second

/-- A text that leaves nothing open: its brackets nest, and a bracket on the next line is a token of
its own, so no comment, string or interpolation goes on there. -/
structure Closed (text : List Char) : Prop where
  nests : Bracket.nests [] ((Token.tokens text).filter (!·.kind.isTrivia)) = true
  round : ∃ token, token.isPunctuation ")" = true ∧
    Token.tokens (text ++ ['\n', ')']) = Token.tokens text ++ [token]

variable (path : Option String)

theorem bytesOf_front (first : List Char) :
    Source.bytesOf (first ++ ['\n', ';', '\n']) = Source.bytesOf first + 3 := by
  rw [Source.bytesOf_append]
  rfl

theorem count_front (first : List Char) :
    (first ++ ['\n', ';', '\n']).count '\n' = first.count '\n' + 2 := by
  rw [List.count_append]
  rfl

theorem lineOfByte_joined_first {byte : Nat} (second : List Char)
    (hle : byte ≤ Source.bytesOf first) :
    (Source.mk path (joined first second)).lineOfByte byte =
      (Source.mk path first).lineOfByte byte :=
  congrArg (1 + ·) (Source.newlinesBefore_append_left _ hle)

theorem lineOfByte_joined_second (first second : List Char) (byte : Nat) :
    (Source.mk path (joined first second)).lineOfByte (byte + (Source.bytesOf first + 3)) =
      (Source.mk path second).lineOfByte byte + (first.count '\n' + 2) := by
  have hchars : joined first second = (first ++ ['\n', ';', '\n']) ++ second := by simp [joined]
  have hnewlines := Source.newlinesBefore_append_right (first ++ ['\n', ';', '\n']) second byte
  rw [← hchars, bytesOf_front, count_front, Nat.add_comm] at hnewlines
  simp only [Source.lineOfByte, hnewlines]
  omega

theorem bounds_of_mem_tokens {text : List Char} {token : Token} (h : token ∈ Token.tokens text) :
    token.start < Source.bytesOf text ∧ token.stop ≤ Source.bytesOf text := by
  have hstop : token.stop ≤ Source.bytesOf text := Source.stop_le_byteLength ⟨none, text⟩ h
  exact ⟨Nat.lt_of_lt_of_le ((Token.ordered_tokens text).nonempty token h) hstop, hstop⟩

section Joined

variable (hclosed : Closed first)

include hclosed

theorem tokens_joined (second : List Char) :
    Token.tokens (joined first second) =
      Token.tokens first ++ ⟨.punctuation, Source.bytesOf first + 1, [';']⟩ ::
        (Token.tokens second).map (·.shift (Source.bytesOf first + 3)) := by
  obtain ⟨token, hround, htokens⟩ := hclosed.round
  exact Token.tokens_join second
    (fun left right hsplit => Bracket.countP_round_le_of_split hclosed.nests hsplit) hround htokens

theorem mem_tokens_joined {token : Token} :
    token ∈ (Source.mk path (joined first second)).tokens ↔
      token ∈ (Source.mk path first).tokens ∨
        token = ⟨.punctuation, Source.bytesOf first + 1, [';']⟩ ∨
          ∃ own ∈ (Source.mk path second).tokens,
            token = own.shift (Source.bytesOf first + 3) := by
  simp only [Source.tokens, tokens_joined hclosed second, List.mem_append, List.mem_cons,
    List.mem_map, eq_comm]

theorem partOf_joined_first (second : List Char) :
    (Source.mk path first).PartOf (Source.mk path (joined first second)) []
      ('\n' :: ';' :: '\n' :: second) where
  path := rfl
  chars := rfl
  column := rfl
  kept := fun token htoken => (mem_tokens_joined path hclosed).mpr (.inl htoken)
  found := by
    intro token htoken _ hlt
    have hlt : token.start < Source.bytesOf first := hlt
    rcases (mem_tokens_joined path hclosed).mp htoken with hown | rfl | ⟨own, -, rfl⟩
    · exact ⟨token, hown, rfl⟩
    · exact absurd hlt (by simp)
    · exact absurd hlt (by simp only [Token.shift]; omega)

theorem partOf_joined_second (second : List Char) :
    (Source.mk path second).PartOf (Source.mk path (joined first second))
      (first ++ ['\n', ';', '\n']) [] := by
  refine ⟨rfl, by simp [joined], ?_, ?_, ?_⟩
  · rw [Location.afterText_append]
    rfl
  · intro token htoken
    rw [bytesOf_front]
    exact (mem_tokens_joined path hclosed).mpr (.inr (.inr ⟨token, htoken, rfl⟩))
  · rw [bytesOf_front]
    intro token htoken hle _
    rcases (mem_tokens_joined path hclosed).mp htoken with hown | rfl | hown
    · have hlt : token.start < Source.bytesOf first := (bounds_of_mem_tokens hown).1
      omega
    · exact absurd hle (by simp)
    · exact hown

theorem structureOf_joined (second : List Char) :
    (Source.mk path (joined first second)).structureOf
        (Source.mk path (joined first second)).tokens =
      (Source.mk path first).structureOf (Source.mk path first).tokens ++
        ((Source.mk path second).structureOf (Source.mk path second).tokens).map
          (Node.shift (Source.bytesOf first + 3)) := by
  have hfirst : ∀ token ∈ Token.tokens first,
      (Source.mk path (joined first second)).lineOfByte token.start =
        (Source.mk path first).lineOfByte token.start := fun token htoken =>
    lineOfByte_joined_first path second (Nat.le_of_lt (bounds_of_mem_tokens htoken).1)
  have hstops : ∀ token ∈ Token.tokens first, token.stop < Source.bytesOf first + 3 := by
    intro token htoken
    have hle := (bounds_of_mem_tokens htoken).2
    omega
  have hstop : Token.stop ⟨.punctuation, Source.bytesOf first + 1, [';']⟩ <
      Source.bytesOf first + 3 := Nat.lt_add_one _
  unfold Source.structureOf Source.tokens
  rw [tokens_joined hclosed second]
  exact Structure.ofTokens_join (Token.ordered_tokens first) (Structure.squaresOpen_tokens first)
    hclosed.nests ⟨rfl, rfl⟩ hstops hstop hfirst (lineOfByte_joined_second path first second)

theorem found_joined (rules : List Rule) (second : List Char) :
    (closures ((Source.mk path (joined first second)).structureOf
        (Source.mk path (joined first second)).tokens)).flatMap
          (foundAt rules (.ofSource ⟨path, joined first second⟩)) =
      (closures ((Source.mk path first).structureOf (Source.mk path first).tokens)).flatMap
          (foundAt rules (.ofSource ⟨path, first⟩)) ++
        ((closures ((Source.mk path second).structureOf (Source.mk path second).tokens)).flatMap
          (foundAt rules (.ofSource ⟨path, second⟩))).map
            (Violation.shift (first.length + 3) (first.count '\n' + 2)) := by
  have hfirst := found_shift (partOf_joined_first path hclosed second) rules
  have hsecond := found_shift (partOf_joined_second path hclosed second) rules
  rw [bytesOf_front, count_front, List.length_append] at hsecond
  have hnode : Node.shift (Source.bytesOf []) = id := funext Node.shift_zero
  have hviolation : Violation.shift ([] : List Char).length (([] : List Char).count '\n') = id :=
    rfl
  rw [hnode, hviolation, List.map_id, List.map_id] at hfirst
  rw [structureOf_joined path hclosed second, closures_append, List.flatMap_append, hfirst, hsecond]
  rfl

theorem directives_joined (hnone : directives ⟨path, first⟩ (Token.tokens first) = [])
    (hnone' : directives ⟨path, second⟩ (Token.tokens second) = []) :
    directives ⟨path, joined first second⟩ (Token.tokens (joined first second)) = [] := by
  rw [directives_eq_nil_iff] at hnone hnone' ⊢
  intro token htoken hkind
  rcases (mem_tokens_joined path hclosed).mp htoken with hown | rfl | ⟨own, hown, rfl⟩
  · exact hnone token hown hkind
  · cases hkind
  · exact hnone' own hown hkind

end Joined

/-- Linting composes over statements.  When neither text holds a directive, the findings of the
joined text are those of the first and then those of the second, by as many characters and lines
further on as stand in front of it. -/
theorem source_joined (rules : List Rule) (path : Option String) {first second : List Char}
    (hclosed : Closed first)
    (hnone : directives ⟨path, first⟩ (Token.tokens first) = [])
    (hnone' : directives ⟨path, second⟩ (Token.tokens second) = []) :
    Token.tokens (joined first second) =
        Token.tokens first ++ ⟨.punctuation, Source.bytesOf first + 1, [';']⟩ ::
          (Token.tokens second).map (·.shift (Source.bytesOf first + 3)) ∧
      (Program.ofSource ⟨path, joined first second⟩).forest =
        (Program.ofSource ⟨path, first⟩).forest ++
          (Program.ofSource ⟨path, second⟩).forest.map (Node.shift (Source.bytesOf first + 3)) ∧
      (Lint.source rules ⟨path, joined first second⟩).value =
        (Lint.source rules ⟨path, first⟩).value ++
          (Lint.source rules ⟨path, second⟩).value.map
            (Violation.shift (first.length + 3) (first.count '\n' + 2)) := by
  have hforest := structureOf_joined path hclosed second
  have hfound := found_joined path hclosed rules second
  refine ⟨tokens_joined hclosed second, hforest, ?_⟩
  rw [value_of_no_directives rules hnone, value_of_no_directives rules hnone',
    value_of_no_directives rules (directives_joined path hclosed hnone hnone'), hfound,
    mergeSort_append, List.map_mergeSort]
  · intro one _ other _
    simp [Violation.shift]
  · intro one other third hle hle'
    simp only [decide_eq_true_eq] at hle hle' ⊢
    omega
  · intro one other
    simp only [Bool.or_eq_true, decide_eq_true_eq]
    omega
  · intro one hone other hother
    obtain ⟨node, -, hone⟩ := List.mem_flatMap.mp hone
    obtain ⟨own, -, rfl⟩ := List.mem_map.mp hother
    have hlt : one.offset < first.length := lt_charLength_of_mem_foundAt hone
    refine decide_eq_true ?_
    show one.offset ≤ own.offset + (first.length + 3)
    omega

theorem source_joined_to_unbalanced :
    (Lint.source [.unusedCapture .default]
      ⟨none, joined "\x7b [a] in b() \x7d".toList "\x7b [c] in (".toList⟩).value.map
        (fun violation => (violation.reference, violation.offset, violation.location)) =
      [("a", 3, ⟨1, 4⟩), ("c", 20, ⟨3, 4⟩)] := by
  have hclosed : Closed "\x7b [a] in b() \x7d".toList :=
    ⟨by decide +kernel, ⟨⟨.punctuation, 15, [')']⟩, by decide +kernel⟩⟩
  have hfirst : (Lint.source [.unusedCapture .default]
      ⟨none, "\x7b [a] in b() \x7d".toList⟩).value =
        [⟨UnusedCapture.identifier, "a", none, 3, ⟨1, 4⟩, .warning,
          UnusedCapture.message "a"⟩] := by decide +kernel
  have hsecond : (Lint.source [.unusedCapture .default] ⟨none, "\x7b [c] in (".toList⟩).value =
      [⟨UnusedCapture.identifier, "c", none, 3, ⟨1, 4⟩, .warning,
        UnusedCapture.message "c"⟩] := by decide +kernel
  have hvalue := (source_joined [.unusedCapture .default] none hclosed (by decide +kernel)
    (show directives ⟨none, "\x7b [c] in (".toList⟩ _ = [] by decide +kernel)).2.2
  rw [hvalue, hfirst, hsecond]
  rfl
end CaptureLint.Lint
