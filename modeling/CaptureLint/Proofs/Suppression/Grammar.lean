import CaptureLint.Proofs.Suppression.Meaning
import CaptureLint.Proofs.Text.Trim

/-!
# The grammar of directives

Every form of a directive has a pattern of its own: two slashes or more, blanks, a word, and behind
the word of a form with rules a list in brackets and a reason, each of which may be left out.
`Matches` says in what ways a pattern takes a comment, with the texts it keeps of the list and of the
reason; runs of blanks and the reason may be cut in several ways.  Main statements: a form is read
exactly where its pattern matches, in whichever way it does; no text is matched by two patterns; and
reading a comment is trying the patterns in any order.
-/

namespace CaptureLint.Suppression

open Text

/-! ## Patterns -/

inductive Form where
  | ignore (extent : Extent)
  | endBlock
deriving DecidableEq, Repr

namespace Form

def suffix : Form → List Char
  | ignore .sameLine => []
  | ignore .nextLine => "-next-line".toList
  | ignore .block => "-start".toList
  | endBlock => "-end".toList

def word (form : Form) : List Char := "caplint:ignore".toList ++ form.suffix

def directive : Form → Terms → Directive
  | ignore extent, terms => .ignore extent terms
  | endBlock, _ => .endBlock

end Form

/-- How the list of a directive is taken: blanks and a group of list characters in brackets. -/
inductive ListPart : Option (List Char) → List Char → Prop where
  | absent : ListPart none []
  | present (blanks list : List Char) (hblanks : allBlank blanks = true) (hne : list ≠ [])
      (hlist : ∀ c ∈ list, isListChar c = true) :
      ListPart (some list) (blanks ++ '[' :: (list ++ [']']))

/-- How the reason of a directive is taken: two dashes between blanks, and a text on one line. -/
inductive ReasonPart : Option (List Char) → List Char → Prop where
  | absent : ReasonPart none []
  | present (before after reason : List Char) (hbefore : allBlank before = true)
      (hafter : allBlank after = true) (hline : '\n' ∉ reason) :
      ReasonPart (some reason) (before ++ '-' :: '-' :: (after ++ reason))

/-- How the rest of a directive with rules is taken, up to the end of the text. -/
def TermsPart (list reason : Option (List Char)) (text : List Char) : Prop :=
  ∃ listText reasonText blanks, text = listText ++ (reasonText ++ blanks) ∧
    ListPart list listText ∧ ReasonPart reason reasonText ∧ allBlank blanks = true

namespace Form

/-- How a pattern takes what follows its word. -/
def Takes : Form → Option (List Char) → Option (List Char) → List Char → Prop
  | ignore _, list, reason, text => TermsPart list reason text
  | endBlock, list, reason, text => list = none ∧ reason = none ∧ allBlank text = true

/-- How a pattern takes a whole text, with the list and the reason that it keeps. -/
def Matches (form : Form) (list reason : Option (List Char)) (text : List Char) : Prop :=
  ∃ slashes blanks rest, text = '/' :: '/' :: (slashes ++ (blanks ++ (form.word ++ rest))) ∧
    (∀ c ∈ slashes, c = '/') ∧ allBlank blanks = true ∧ form.Takes list reason rest

end Form

def keptReason (reason : List Char) : Option String :=
  if (trim reason).isEmpty then none else some (String.ofList (trim reason))

/-- The terms in the texts that a pattern keeps. -/
def keptTerms (list reason : Option (List Char)) : Terms :=
  ⟨(list.map readIds).getD [], reason.bind keptReason⟩

namespace Form

def readAfter? : Form → List Char → Option Directive
  | ignore extent, text => (readTerms? text).map (.ignore extent)
  | endBlock, text => if allBlank text then some .endBlock else none

def read? (form : Form) (comment : List Char) : Option Directive := do
  form.readAfter? (← after? form.word (← commentBody? comment))

end Form

variable {comment text rest lead slashes blanks : List Char} {list reason : Option (List Char)}
  {form other : Form} {directive : Directive}

/-! ## Lists and reasons -/

theorem after?_append (lead rest : List Char) : after? lead (lead ++ rest) = some rest := by
  induction lead with
  | nil => rfl
  | cons c lead ih => rw [List.cons_append, after?, if_pos rfl, ih]

theorem after?_eq_some_iff : after? lead text = some rest ↔ text = lead ++ rest := by
  constructor
  · exact eq_append_of_after?
  · intro h
    rw [h, after?_append]

theorem isBlank_dash : isBlank '-' = false := by decide

theorem readReason?_trimStart (text : List Char) :
    readReason? (trimStart text) = readReason? text := by
  unfold readReason?
  rw [trimStart_trimStart]

theorem readReason?_of_dashes {inside : List Char} (h : trimStart text = '-' :: '-' :: inside) :
    readReason? text =
      if (trim inside).contains '\n' then none else some (keptReason inside) := by
  rw [readReason?, h]
  rfl

theorem exists_of_readReason? {kept : Option String} (h : readReason? text = some kept) :
    ∃ reason reasonText blanks, text = reasonText ++ blanks ∧ ReasonPart reason reasonText ∧
      allBlank blanks = true ∧ kept = reason.bind keptReason := by
  have hsplit := leadingBlanks_append_trimStart text
  have hlead := allBlank_leadingBlanks text
  unfold readReason? at h
  split at h
  · rename_i hnone
    rw [hnone, List.append_nil] at hsplit
    rw [hsplit] at hlead
    exact ⟨none, [], text, rfl, .absent, hlead, (Option.some.inj h).symm⟩
  · rename_i inside hdashes
    obtain ⟨blanks, hinside, hblanks⟩ := exists_trim inside
    dsimp only at h
    split at h
    · cases h
    rename_i hline
    rw [List.contains_iff_mem] at hline
    refine ⟨some (trim inside), _, blanks, ?_, .present (leadingBlanks text) (leadingBlanks inside)
      (trim inside) hlead (allBlank_leadingBlanks inside) hline, hblanks, ?_⟩
    · calc
        text = leadingBlanks text ++ '-' :: '-' :: inside := by rw [← hdashes, hsplit]
        _ = leadingBlanks text ++
            '-' :: '-' :: (leadingBlanks inside ++ trim inside ++ blanks) := by rw [← hinside]
        _ = leadingBlanks text ++ '-' :: '-' :: (leadingBlanks inside ++ trim inside) ++
            blanks := by simp
    · rw [Option.bind_some, keptReason, trim_trim]
      exact (Option.some.inj h).symm
  · cases h

theorem readReason?_of_part {reasonText blanks : List Char} (h : ReasonPart reason reasonText)
    (hblanks : allBlank blanks = true) :
    readReason? (reasonText ++ blanks) = some (reason.bind keptReason) := by
  cases h with
  | absent =>
      rw [List.nil_append, readReason?, trimStart_of_allBlank hblanks]
      rfl
  | present before after reason hbefore hafter hline =>
      have hstart : trimStart (before ++ '-' :: '-' :: (after ++ reason) ++ blanks) =
          '-' :: '-' :: (after ++ reason ++ blanks) := by
        rw [List.append_assoc, trimStart_append hbefore]
        exact trimStart_cons isBlank_dash _
      have hkept : '\n' ∉ trim reason := fun hmem => hline (mem_of_mem_trim hmem)
      rw [readReason?_of_dashes hstart, trim_append hafter reason hblanks,
        if_neg (by simpa using hkept), keptReason, trim_append hafter reason hblanks]
      rfl

theorem not_isListChar_bracket : isListChar ']' = false := by decide

theorem takeWhile_list {inside : List Char} (hinside : ∀ c ∈ inside, isListChar c = true)
    (rest : List Char) : (inside ++ ']' :: rest).takeWhile isListChar = inside := by
  rw [List.takeWhile_append_of_pos hinside,
    List.takeWhile_cons_of_neg (by simp [not_isListChar_bracket]), List.append_nil]

theorem exists_of_readTerms? {terms : Terms} (h : readTerms? text = some terms) :
    ∃ list reason, TermsPart list reason text ∧ terms = keptTerms list reason := by
  have hsplit := leadingBlanks_append_trimStart text
  have hlead := allBlank_leadingBlanks text
  unfold readTerms? at h
  split at h
  · rename_i inside hbracket
    simp only [Option.bind_eq_bind, Option.bind_eq_some_iff] at h
    obtain ⟨rest, hrest, h⟩ := h
    split at h
    · cases h
    rename_i hne
    rw [Option.bind_eq_some_iff] at h
    obtain ⟨kept, hkept, hterms⟩ := h
    obtain ⟨reason, reasonText, blanks, rfl, hreason, hblanks, rfl⟩ := exists_of_readReason? hkept
    rw [drop_takeWhile] at hrest
    have hinside : inside = inside.takeWhile isListChar ++ ']' :: (reasonText ++ blanks) := by
      rw [← List.singleton_append, ← eq_append_of_after? hrest, List.takeWhile_append_dropWhile]
    rw [List.isEmpty_iff] at hne
    refine ⟨some (inside.takeWhile isListChar), reason, ⟨_, reasonText, blanks, ?_,
      .present (leadingBlanks text) _ hlead hne fun c hc => ?_, hreason, hblanks⟩, ?_⟩
    · calc
        text = leadingBlanks text ++ '[' :: inside := by rw [← hbracket, hsplit]
        _ = leadingBlanks text ++
            '[' :: (inside.takeWhile isListChar ++ ']' :: (reasonText ++ blanks)) := by
            rw [← hinside]
        _ = leadingBlanks text ++ '[' :: (inside.takeWhile isListChar ++ [']']) ++
            (reasonText ++ blanks) := by simp
    · exact List.all_eq_true.mp List.all_takeWhile c hc
    · exact (Option.some.inj hterms).symm
  · simp only [Option.bind_eq_bind, Option.bind_eq_some_iff] at h
    obtain ⟨kept, hkept, hterms⟩ := h
    rw [readReason?_trimStart] at hkept
    obtain ⟨reason, reasonText, blanks, htext, hreason, hblanks, rfl⟩ :=
      exists_of_readReason? hkept
    exact ⟨none, reason, ⟨[], reasonText, blanks, htext, .absent, hreason, hblanks⟩,
      (Option.some.inj hterms).symm⟩

theorem not_bracket_of_part {reasonText blanks inside : List Char}
    (h : ReasonPart reason reasonText) (hblanks : allBlank blanks = true) :
    trimStart (reasonText ++ blanks) ≠ '[' :: inside := by
  intro heq
  have hread := readReason?_of_part h hblanks
  rw [← readReason?_trimStart, heq] at hread
  simp [readReason?, trimStart_cons (show isBlank '[' = false by decide)] at hread

theorem readTerms?_of_part (h : TermsPart list reason text) :
    readTerms? text = some (keptTerms list reason) := by
  obtain ⟨listText, reasonText, blanks, rfl, hlist, hreason, hblanks⟩ := h
  have hread := readReason?_of_part hreason hblanks
  cases hlist with
  | absent =>
      unfold readTerms?
      rw [List.nil_append]
      split
      · rename_i inside hbracket
        exact absurd hbracket (not_bracket_of_part hreason hblanks)
      · rw [readReason?_trimStart, hread]
        rfl
  | present before list hbefore hne hlist =>
      have hstart : trimStart (before ++ '[' :: (list ++ [']']) ++ (reasonText ++ blanks)) =
          '[' :: (list ++ ']' :: (reasonText ++ blanks)) := by
        rw [List.append_assoc, trimStart_append hbefore, List.cons_append,
          trimStart_cons (by decide), List.append_assoc]
        rfl
      have hafter : after? [']'] (']' :: (reasonText ++ blanks)) = some (reasonText ++ blanks) :=
        after?_append [']'] _
      rw [readTerms?, hstart]
      simp [takeWhile_list hlist, hafter, hne, hread, keptTerms]

theorem readTerms?_eq_some_iff {terms : Terms} : readTerms? text = some terms ↔
    ∃ list reason, TermsPart list reason text ∧ terms = keptTerms list reason := by
  constructor
  · exact exists_of_readTerms?
  · rintro ⟨list, reason, hpart, rfl⟩
    exact readTerms?_of_part hpart

/-- No other word goes on where a directive with rules ends its word. -/
theorem TermsPart.not_dashed {c : Char} (hc : c ≠ '-') :
    ¬ TermsPart list reason ('-' :: c :: rest) := by
  intro h
  have hread := readTerms?_of_part h
  unfold readTerms? at hread
  rw [trimStart_cons isBlank_dash] at hread
  simp [readReason?, trimStart_cons isBlank_dash, hc] at hread

/-! ## One form -/

theorem split_of_commentBody? {body : List Char} (h : commentBody? comment = some body) :
    ∃ slashes blanks, trimEnd comment = '/' :: '/' :: (slashes ++ (blanks ++ body)) ∧
      (∀ c ∈ slashes, c = '/') ∧ allBlank blanks = true := by
  simp only [commentBody?, Option.bind_eq_bind, Option.bind_eq_some_iff, Option.some.injEq] at h
  obtain ⟨rest, hrest, rfl⟩ := h
  refine ⟨rest.takeWhile (· == '/'), leadingBlanks (rest.dropWhile (· == '/')), ?_, ?_,
    allBlank_leadingBlanks _⟩
  · rw [leadingBlanks_append_trimStart, List.takeWhile_append_dropWhile]
    exact eq_append_of_after? hrest
  · intro c hc
    exact eq_of_beq (List.all_eq_true.mp (List.all_takeWhile (p := (· == '/'))) c hc)

/-- Slashes and blanks are passed over up to the first other character. -/
theorem commentBody?_of_split {c : Char} (hsplit : trimEnd comment =
      '/' :: '/' :: (slashes ++ (blanks ++ c :: rest))) (hslashes : ∀ c ∈ slashes, c = '/')
    (hblanks : allBlank blanks = true) (hslash : c ≠ '/') (hc : isBlank c = false) :
    commentBody? comment = some (c :: rest) := by
  have hdrop : (slashes ++ (blanks ++ c :: rest)).dropWhile (· == '/') = blanks ++ c :: rest := by
    rw [List.dropWhile_append_of_pos fun d hd => beq_iff_eq.mpr (hslashes d hd)]
    cases blanks with
    | nil => exact List.dropWhile_cons_of_neg (by simpa using hslash)
    | cons b blanks =>
        have hb : b ≠ '/' := by
          rintro rfl
          exact absurd (isBlank_of_mem hblanks List.mem_cons_self) (by decide)
        exact List.dropWhile_cons_of_neg (by simpa using hb)
  have hafter : after? ['/', '/'] (trimEnd comment) = some (slashes ++ (blanks ++ c :: rest)) := by
    rw [hsplit]
    exact after?_append ['/', '/'] _
  simp only [commentBody?, hafter, Option.bind_eq_bind, Option.bind_some, hdrop,
    trimStart_append hblanks, trimStart_cons hc]

theorem Form.word_eq_cons (form : Form) :
    form.word = 'c' :: ("aplint:ignore".toList ++ form.suffix) := rfl

theorem Form.word_append (form : Form) (rest : List Char) :
    form.word ++ rest = "caplint:ignore".toList ++ (form.suffix ++ rest) :=
  List.append_assoc _ _ _

theorem Form.readAfter?_eq_some_iff : form.readAfter? rest = some directive ↔
    ∃ list reason, form.Takes list reason rest ∧
      directive = form.directive (keptTerms list reason) := by
  cases form with
  | ignore extent =>
      simp only [readAfter?, Option.map_eq_some_iff, readTerms?_eq_some_iff]
      constructor
      · rintro ⟨_, ⟨list, reason, hpart, rfl⟩, rfl⟩
        exact ⟨list, reason, hpart, rfl⟩
      · rintro ⟨list, reason, hpart, rfl⟩
        exact ⟨_, ⟨list, reason, hpart, rfl⟩, rfl⟩
  | endBlock =>
      simp only [readAfter?, Option.ite_none_right_eq_some, Option.some.injEq]
      constructor
      · rintro ⟨hblank, rfl⟩
        exact ⟨none, none, ⟨rfl, rfl, hblank⟩, rfl⟩
      · rintro ⟨_, _, ⟨rfl, rfl, hblank⟩, rfl⟩
        exact ⟨hblank, rfl⟩

theorem Form.read?_eq_some_iff_body : form.read? comment = some directive ↔
    ∃ rest, commentBody? comment = some (form.word ++ rest) ∧
      form.readAfter? rest = some directive := by
  simp only [read?, Option.bind_eq_bind, Option.bind_eq_some_iff, after?_eq_some_iff]
  constructor
  · rintro ⟨_, hbody, rest, rfl, hread⟩
    exact ⟨rest, hbody, hread⟩
  · rintro ⟨rest, hbody, hread⟩
    exact ⟨_, hbody, rest, rfl, hread⟩

/-- A form is read exactly where its pattern matches, and in whichever way it matches the terms are
the same. -/
theorem Form.read?_eq_some_iff : form.read? comment = some directive ↔
    ∃ list reason, form.Matches list reason (trimEnd comment) ∧
      directive = form.directive (keptTerms list reason) := by
  simp only [read?_eq_some_iff_body, readAfter?_eq_some_iff]
  constructor
  · rintro ⟨rest, hbody, list, reason, htakes, hdirective⟩
    obtain ⟨slashes, blanks, hsplit, hslashes, hblanks⟩ := split_of_commentBody? hbody
    exact ⟨list, reason, ⟨slashes, blanks, rest, hsplit, hslashes, hblanks, htakes⟩, hdirective⟩
  · rintro ⟨list, reason, ⟨slashes, blanks, rest, hsplit, hslashes, hblanks, htakes⟩, hdirective⟩
    have hbody : commentBody? comment = some (form.word ++ rest) :=
      commentBody?_of_split hsplit hslashes hblanks (by decide) (by decide)
    exact ⟨rest, hbody, list, reason, htakes, hdirective⟩

/-! ## All forms -/

def letterAfterDash? : List Char → Option Char
  | '-' :: c :: _ => if c = '-' then none else some c
  | _ => none

theorem letterAfterDash?_append (hdash : form ≠ .ignore .sameLine) (rest : List Char) :
    letterAfterDash? (form.suffix ++ rest) = letterAfterDash? form.suffix := by
  rcases form with ⟨_ | _ | _⟩ | _
  · exact absurd rfl hdash
  · rfl
  · rfl
  · rfl

theorem letterAfterDash?_of_takes (h : form.Takes list reason rest) :
    letterAfterDash? (form.suffix ++ rest) = letterAfterDash? form.suffix := by
  by_cases hdash : form = .ignore .sameLine
  · rw [hdash] at h ⊢
    show letterAfterDash? rest = none
    unfold letterAfterDash?
    split
    · split
      · rfl
      · rename_i hc
        exact absurd h (TermsPart.not_dashed hc)
    · rfl
  · exact letterAfterDash?_append hdash rest

theorem Form.eq_of_letterAfterDash?
    (h : letterAfterDash? form.suffix = letterAfterDash? other.suffix) : form = other := by
  rcases form with ⟨_ | _ | _⟩ | _ <;> rcases other with ⟨_ | _ | _⟩ | _ <;>
    revert h <;> decide

theorem dropWhile_lead (form : Form) (rest : List Char) (hslashes : ∀ c ∈ slashes, c = '/')
    (hblanks : allBlank blanks = true) :
    (slashes ++ (blanks ++ (form.word ++ rest))).dropWhile (fun c => c == '/' || isBlank c) =
      form.word ++ rest := by
  have hlead : ∀ c ∈ slashes ++ blanks, (c == '/' || isBlank c) = true := by
    intro c hc
    rw [Bool.or_eq_true]
    rcases List.mem_append.mp hc with hc | hc
    · exact .inl (beq_iff_eq.mpr (hslashes c hc))
    · exact .inr (isBlank_of_mem hblanks hc)
  rw [← List.append_assoc, List.dropWhile_append_of_pos hlead, form.word_eq_cons, List.cons_append]
  exact List.dropWhile_cons_of_neg (by decide)

/-- No text is matched by two patterns. -/
theorem Form.Matches.unique {list' reason' : Option (List Char)}
    (h : form.Matches list reason text) (h' : other.Matches list' reason' text) : form = other := by
  obtain ⟨slashes, blanks, rest, rfl, hslashes, hblanks, htakes⟩ := h
  obtain ⟨slashes', blanks', rest', hsplit, hslashes', hblanks', htakes'⟩ := h'
  have hword := congrArg (List.dropWhile fun c => c == '/' || isBlank c)
    (List.cons.inj (List.cons.inj hsplit).2).2
  rw [dropWhile_lead form rest hslashes hblanks, dropWhile_lead other rest' hslashes' hblanks',
    word_append, word_append] at hword
  have hletter := congrArg letterAfterDash? (List.append_cancel_left hword)
  rw [letterAfterDash?_of_takes htakes, letterAfterDash?_of_takes htakes'] at hletter
  exact Form.eq_of_letterAfterDash? hletter

theorem Form.read?_unique {directive' : Directive} (h : form.read? comment = some directive)
    (h' : other.read? comment = some directive') : form = other := by
  obtain ⟨list, reason, hmatches, -⟩ := read?_eq_some_iff.mp h
  obtain ⟨list', reason', hmatches', -⟩ := read?_eq_some_iff.mp h'
  exact hmatches.unique hmatches'

/-- A block comment is matched by no pattern. -/
theorem Form.not_matches_block (form : Form) (list reason : Option (List Char))
    (text : List Char) : ¬ form.Matches list reason ('/' :: '*' :: text) := by
  rintro ⟨slashes, blanks, rest, hsplit, -⟩
  exact absurd (List.cons.inj (List.cons.inj hsplit).2).1 (by decide)

theorem exists_form_of_ofComment? (h : Directive.ofComment? comment = some directive) :
    ∃ form : Form, form.read? comment = some directive := by
  simp only [Directive.ofComment?, Option.bind_eq_bind, Option.bind_eq_some_iff,
    after?_eq_some_iff] at h
  obtain ⟨_, hbody, text, rfl, h⟩ := h
  simp only [Form.read?_eq_some_iff_body, Form.word_append]
  split at h
  · rename_i rest hstart
    rw [eq_append_of_after? hstart] at hbody
    exact ⟨.ignore .block, rest, hbody, Option.map_eq_bind.trans h⟩
  split at h
  · rename_i rest hend
    rw [eq_append_of_after? hend] at hbody
    exact ⟨.endBlock, rest, hbody, h⟩
  split at h
  · rename_i rest hnext
    rw [eq_append_of_after? hnext] at hbody
    exact ⟨.ignore .nextLine, rest, hbody, Option.map_eq_bind.trans h⟩
  · exact ⟨.ignore .sameLine, text, hbody, Option.map_eq_bind.trans h⟩

theorem after?_suffix (other : Form) (h : form.Takes list reason rest)
    (hdash : other ≠ .ignore .sameLine) :
    after? other.suffix (form.suffix ++ rest) = if form = other then some rest else none := by
  split
  · rename_i heq
    rw [heq, after?_append]
  · rename_i hne
    rw [Option.eq_none_iff_forall_not_mem]
    intro left hleft
    rw [Option.mem_def, after?_eq_some_iff] at hleft
    have hletter := letterAfterDash?_of_takes h
    rw [hleft, letterAfterDash?_append hdash] at hletter
    exact hne (Form.eq_of_letterAfterDash? hletter.symm)

theorem ofComment?_of_read? (h : form.read? comment = some directive) :
    Directive.ofComment? comment = some directive := by
  obtain ⟨rest, hbody, hread⟩ := Form.read?_eq_some_iff_body.mp h
  obtain ⟨list, reason, htakes, -⟩ := Form.readAfter?_eq_some_iff.mp hread
  have hstart : after? "-start".toList (form.suffix ++ rest) =
      if form = .ignore .block then some rest else none :=
    after?_suffix (.ignore .block) htakes (by decide)
  have hend : after? "-end".toList (form.suffix ++ rest) =
      if form = .endBlock then some rest else none :=
    after?_suffix .endBlock htakes (by decide)
  have hnext : after? "-next-line".toList (form.suffix ++ rest) =
      if form = .ignore .nextLine then some rest else none :=
    after?_suffix (.ignore .nextLine) htakes (by decide)
  rw [Form.word_append] at hbody
  simp only [Directive.ofComment?, hbody, Option.bind_eq_bind, Option.bind_some, after?_append]
  rw [hstart, hend, hnext]
  cases form with
  | endBlock => exact hread
  | ignore extent =>
      have hbind : (readTerms? rest).bind (fun terms => some (.ignore extent terms)) =
          some directive := Option.map_eq_bind.symm.trans hread
      cases extent with
      | sameLine => exact hbind
      | nextLine => exact hbind
      | block => exact hbind

theorem ofComment?_eq_some_iff :
    Directive.ofComment? comment = some directive ↔
      ∃ form : Form, form.read? comment = some directive := by
  constructor
  · exact exists_form_of_ofComment?
  · rintro ⟨form, h⟩
    exact ofComment?_of_read? h

/-- The patterns may be tried in any order. -/
theorem findSome?_read? {order : List Form} (horder : ∀ form, form ∈ order) (comment : List Char) :
    order.findSome? (·.read? comment) = Directive.ofComment? comment := by
  apply Option.ext
  intro directive
  rw [ofComment?_eq_some_iff]
  constructor
  · intro h
    obtain ⟨form, -, hread⟩ := List.exists_of_findSome?_eq_some h
    exact ⟨form, hread⟩
  · rintro ⟨form, hread⟩
    have hsome : (order.findSome? (·.read? comment)).isSome := by
      rw [List.findSome?_isSome_iff]
      exact ⟨form, horder form, by rw [hread, Option.isSome_some]⟩
    obtain ⟨found, hfound⟩ := Option.isSome_iff_exists.mp hsome
    obtain ⟨other, -, hother⟩ := List.exists_of_findSome?_eq_some hfound
    obtain rfl := Form.read?_unique hread hother
    rw [hfound, ← hother, hread]

end CaptureLint.Suppression
