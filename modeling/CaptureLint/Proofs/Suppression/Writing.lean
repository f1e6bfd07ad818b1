import CaptureLint.Proofs.Suppression.Grammar

/-!
# Writing directives

A directive can be written in many ways: with more than two slashes, with blanks between its parts,
with a list of rules and a reason or without them.  Main statement: however it is written, reading
the comment gives the directive back, and which pattern reads it is not a matter of their order.
-/

namespace CaptureLint.Suppression

open Text

/-! ## Parts of a comment -/

structure Blanks where
  text : List Char
  blank : allBlank text = true

/-- A rule as a list can name it. -/
structure RuleName where
  text : List Char
  nonempty : text ≠ []
  allowed : ∀ c ∈ text, isWordChar c = true ∨ c = '*'

structure ListItem where
  before : Blanks
  name : RuleName
  after : Blanks

/-- A list of rules in brackets, with the blanks in front of it. -/
structure WrittenList where
  before : Blanks
  items : List ListItem
  nonempty : items ≠ []

/-- A reason behind its dashes, with the blanks around them.  It is on one line and neither starts
nor ends with a blank. -/
structure WrittenReason where
  before : Blanks
  after : Blanks
  text : List Char
  nonempty : text ≠ []
  start_nonblank : ∀ c ∈ text.head?, isBlank c = false
  end_nonblank : ∀ c ∈ text.getLast?, isBlank c = false
  one_line : '\n' ∉ text

/-- How a directive with rules is written. -/
structure Written where
  /-- The slashes beyond the first two. -/
  slashes : Nat
  lead : Blanks
  list : Option WrittenList
  reason : Option WrittenReason
  trail : Blanks

def ListItem.write (item : ListItem) : List Char :=
  item.before.text ++ item.name.text ++ item.after.text

namespace WrittenList

def inside (list : WrittenList) : List Char := join ',' (list.items.map ListItem.write)

def write (list : WrittenList) : List Char :=
  list.before.text ++ '[' :: (list.inside ++ [']'])

def ruleIds (list : WrittenList) : List String :=
  list.items.map fun item => String.ofList item.name.text

end WrittenList

def WrittenReason.write (reason : WrittenReason) : List Char :=
  reason.before.text ++ '-' :: '-' :: (reason.after.text ++ reason.text)

def writeLead (slashes : Nat) (lead : Blanks) (form : Form) : List Char :=
  '/' :: '/' :: (List.replicate slashes '/' ++ (lead.text ++ form.word))

namespace Written

def write (written : Written) (extent : Extent) : List Char :=
  writeLead written.slashes written.lead (.ignore extent) ++
    (written.list.elim [] WrittenList.write ++ written.reason.elim [] WrittenReason.write) ++
      written.trail.text

/-- The terms that are written; what is left out stands for no rules and for no reason. -/
def terms (written : Written) : Terms :=
  ⟨written.list.elim [] WrittenList.ruleIds,
    written.reason.map fun reason => String.ofList reason.text⟩

end Written

def writeEnd (slashes : Nat) (lead trail : Blanks) : List Char :=
  writeLead slashes lead .endBlock ++ trail.text

/-! ## Lists -/

variable {c : Char}

theorem isListChar_of_mem_name {name : RuleName} (h : c ∈ name.text) : isListChar c = true := by
  unfold isListChar
  rcases name.allowed c h with hword | rfl
  · simp [hword]
  · decide

theorem isBlank_of_mem_name {name : RuleName} (h : c ∈ name.text) : isBlank c = false := by
  rcases name.allowed c h with hword | rfl
  · exact isBlank_of_isWordChar hword
  · decide

namespace ListItem

variable {item : ListItem}

theorem trim_write (item : ListItem) : trim item.write = item.name.text := by
  rw [write, trim_append item.before.blank _ item.after.blank]
  exact trim_of_no_blank fun c hc => isBlank_of_mem_name hc

theorem mem_write (h : c ∈ item.write) : isBlank c = true ∨ c ∈ item.name.text := by
  rw [write, List.mem_append, List.mem_append] at h
  rcases h with (hbefore | hname) | hafter
  · exact .inl (isBlank_of_mem item.before.blank hbefore)
  · exact .inr hname
  · exact .inl (isBlank_of_mem item.after.blank hafter)

theorem isListChar_of_mem_write (h : c ∈ item.write) : isListChar c = true := by
  rcases mem_write h with hblank | hname
  · simp [isListChar, hblank]
  · exact isListChar_of_mem_name hname

theorem comma_not_mem_write (item : ListItem) : ',' ∉ item.write := by
  intro h
  rcases mem_write h with hblank | hname
  · exact absurd hblank (by decide)
  · rcases item.name.allowed ',' hname with hword | hstar
    · exact absurd hword (by decide)
    · exact absurd hstar (by decide)

end ListItem

namespace WrittenList

/-- The commas between the rules are where the list is split. -/
theorem readIds_inside (list : WrittenList) : readIds list.inside = list.ruleIds := by
  have hsplit : split ',' list.inside = list.items.map ListItem.write := by
    apply split_join
    · simpa using list.nonempty
    · intro part hpart
      obtain ⟨item, -, rfl⟩ := List.mem_map.mp hpart
      exact item.comma_not_mem_write
  have hname : ∀ item : ListItem,
      (if (trim item.write).isEmpty then none else some (String.ofList (trim item.write))) =
        some (String.ofList item.name.text) := by
    intro item
    rw [item.trim_write, if_neg (by simpa using item.name.nonempty)]
  rw [readIds, hsplit, List.map_map, List.filterMap_map]
  show list.items.filterMap (fun item =>
    if (trim item.write).isEmpty then none else some (String.ofList (trim item.write))) = _
  simp only [hname]
  rw [List.filterMap_eq_map']
  rfl

theorem part (list : WrittenList) : ListPart (some list.inside) list.write := by
  apply ListPart.present _ _ list.before.blank
  · intro hempty
    have hread := list.readIds_inside
    rw [hempty] at hread
    exact list.nonempty (List.map_eq_nil_iff.mp hread.symm)
  · intro c hc
    rcases mem_join hc with rfl | ⟨part, hpart, hc⟩
    · decide
    · obtain ⟨item, -, rfl⟩ := List.mem_map.mp hpart
      exact ListItem.isListChar_of_mem_write hc

end WrittenList

/-! ## Reasons -/

namespace WrittenReason

theorem part (reason : WrittenReason) : ReasonPart (some reason.text) reason.write :=
  .present _ _ reason.text reason.before.blank reason.after.blank reason.one_line

theorem keptReason_text (reason : WrittenReason) :
    keptReason reason.text = some (String.ofList reason.text) := by
  unfold keptReason
  rw [trim_of_ends reason.start_nonblank reason.end_nonblank, if_neg]
  simpa using reason.nonempty

end WrittenReason

/-! ## Comments -/

def EndsSolid (text : List Char) : Prop := ∃ front c, text = front ++ [c] ∧ isBlank c = false

theorem EndsSolid.of_getLast? {text : List Char} {c : Char} (h : text.getLast? = some c)
    (hc : isBlank c = false) : EndsSolid text := by
  obtain ⟨front, rfl⟩ := List.getLast?_eq_some_iff.mp h
  exact ⟨front, c, rfl, hc⟩

theorem EndsSolid.append {text : List Char} (h : EndsSolid text) (front : List Char) :
    EndsSolid (front ++ text) := by
  obtain ⟨before, c, rfl, hc⟩ := h
  exact ⟨front ++ before, c, (List.append_assoc _ _ _).symm, hc⟩

theorem EndsSolid.trimEnd_append {text blanks : List Char} (h : EndsSolid text)
    (hblanks : allBlank blanks = true) : trimEnd (text ++ blanks) = text := by
  obtain ⟨front, c, rfl, hc⟩ := h
  apply trimEnd_append_blanks _ hblanks
  intro d hd
  rw [List.getLast?_concat] at hd
  exact Option.some.inj hd ▸ hc

theorem endsSolid_word (form : Form) : EndsSolid form.word := by
  rcases form with ⟨_ | _ | _⟩ | _
  · exact .of_getLast? (c := 'e') (by decide) (by decide)
  · exact .of_getLast? (c := 'e') (by decide) (by decide)
  · exact .of_getLast? (c := 't') (by decide) (by decide)
  · exact .of_getLast? (c := 'd') (by decide) (by decide)

theorem endsSolid_lead (slashes : Nat) (lead : Blanks) (form : Form) :
    EndsSolid (writeLead slashes lead form) := by
  have hword := ((endsSolid_word form).append lead.text).append (List.replicate slashes '/')
  exact hword.append ['/', '/']

theorem WrittenList.endsSolid (list : WrittenList) : EndsSolid list.write :=
  ⟨list.before.text ++ '[' :: list.inside, ']', by simp [write], by decide⟩

theorem WrittenReason.endsSolid (reason : WrittenReason) : EndsSolid reason.write := by
  have hlast := List.getLast?_eq_some_getLast reason.nonempty
  have htext := EndsSolid.of_getLast? hlast (reason.end_nonblank _ hlast)
  have hdashes := (htext.append reason.after.text).append ['-', '-']
  exact hdashes.append reason.before.text

theorem matches_lead {form : Form} {list reason : Option (List Char)} {text : List Char}
    (slashes : Nat) (lead : Blanks) (h : form.Takes list reason text) :
    form.Matches list reason (writeLead slashes lead form ++ text) :=
  ⟨List.replicate slashes '/', lead.text, text, by simp [writeLead],
    fun _ hc => List.eq_of_mem_replicate hc, lead.blank, h⟩

namespace Written

theorem trimEnd_write (written : Written) (extent : Extent) :
    trimEnd (written.write extent) = writeLead written.slashes written.lead (.ignore extent) ++
      (written.list.elim [] WrittenList.write ++ written.reason.elim [] WrittenReason.write) := by
  apply EndsSolid.trimEnd_append _ written.trail.blank
  cases written.reason with
  | some reason => exact (reason.endsSolid.append _).append _
  | none =>
      cases written.list with
      | some list =>
          show EndsSolid (_ ++ (list.write ++ []))
          rw [List.append_nil]
          exact list.endsSolid.append _
      | none =>
          show EndsSolid (_ ++ [])
          rw [List.append_nil]
          exact endsSolid_lead _ _ _

theorem takes_write (written : Written) (extent : Extent) :
    (Form.ignore extent).Takes (written.list.map WrittenList.inside)
      (written.reason.map WrittenReason.text)
      (written.list.elim [] WrittenList.write ++ written.reason.elim [] WrittenReason.write) := by
  refine ⟨written.list.elim [] WrittenList.write, written.reason.elim [] WrittenReason.write, [],
    by rw [List.append_nil], ?_, ?_, rfl⟩
  · cases written.list with
    | some list => exact list.part
    | none => exact .absent
  · cases written.reason with
    | some reason => exact reason.part
    | none => exact .absent

theorem keptTerms_eq (written : Written) :
    keptTerms (written.list.map WrittenList.inside) (written.reason.map WrittenReason.text) =
      written.terms := by
  have hlist : ((written.list.map WrittenList.inside).map readIds).getD [] =
      written.list.elim [] WrittenList.ruleIds := by
    cases written.list with
    | some list => exact list.readIds_inside
    | none => rfl
  have hreason : (written.reason.map WrittenReason.text).bind keptReason =
      written.reason.map fun reason => String.ofList reason.text := by
    cases written.reason with
    | some reason => exact reason.keptReason_text
    | none => rfl
  rw [keptTerms, hlist, hreason, terms]

theorem ofComment?_write (written : Written) (extent : Extent) :
    Directive.ofComment? (written.write extent) = some (.ignore extent written.terms) := by
  apply @ofComment?_of_read? _ (.ignore extent)
  rw [Form.read?_eq_some_iff, written.trimEnd_write, ← written.keptTerms_eq]
  exact ⟨_, _, matches_lead _ _ (written.takes_write extent), rfl⟩

end Written

theorem ofComment?_writeEnd (slashes : Nat) (lead trail : Blanks) :
    Directive.ofComment? (writeEnd slashes lead trail) = some .endBlock := by
  apply @ofComment?_of_read? _ .endBlock
  have htrim : trimEnd (writeEnd slashes lead trail) = writeLead slashes lead .endBlock ++ [] := by
    rw [List.append_nil]
    exact (endsSolid_lead slashes lead .endBlock).trimEnd_append trail.blank
  rw [Form.read?_eq_some_iff, htrim]
  exact ⟨none, none, matches_lead slashes lead ⟨rfl, rfl, rfl⟩, rfl⟩

/-- Directives are read back.  A directive with rules gives its extent, its rules in their order and
its reason, whatever blanks stand between its parts; what is left out stands for no rules and for no
reason.  The end of a block is read back too.  A pattern gives what it keeps of a comment, in
whichever way it matches.  No text is matched by two patterns, so trying them in any order is reading
the comment, and a block comment is matched by none. -/
theorem directives_read_back :
    (∀ written extent, Directive.ofComment? (Written.write written extent) =
      some (.ignore extent written.terms)) ∧
    (∀ slashes lead trail,
      Directive.ofComment? (writeEnd slashes lead trail) = some .endBlock) ∧
    (∀ (form : Form) comment directive, form.read? comment = some directive ↔
      ∃ list reason, form.Matches list reason (trimEnd comment) ∧
        directive = form.directive (keptTerms list reason)) ∧
    (∀ (form other : Form) list reason list' reason' text, form.Matches list reason text →
      other.Matches list' reason' text → form = other) ∧
    (∀ order : List Form, (∀ form, form ∈ order) → ∀ comment,
      order.findSome? (·.read? comment) = Directive.ofComment? comment) ∧
    ∀ (form : Form) list reason text, ¬ form.Matches list reason ('/' :: '*' :: text) := by
  constructor
  · exact Written.ofComment?_write
  constructor
  · exact ofComment?_writeEnd
  constructor
  · intro form comment directive
    exact Form.read?_eq_some_iff
  constructor
  · intro form other list reason list' reason' text h h'
    exact h.unique h'
  constructor
  · intro order horder comment
    exact findSome?_read? horder comment
  · exact Form.not_matches_block

/-- A reason may hold brackets and dashes, and no blanks are needed. -/
example : Directive.ofComment? "//caplint:ignore[a,*]--[b] -- c".toList =
    some (.ignore .sameLine ⟨["a", "*"], some "[b] -- c"⟩) := by decide

end CaptureLint.Suppression
