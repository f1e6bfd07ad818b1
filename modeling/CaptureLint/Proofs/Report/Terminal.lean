import CaptureLint.Proofs.Json.RoundTrip
import CaptureLint.Report.Terminal

/-!
# Terminal reports with and without colours

Without colours a terminal report is what each violation says of itself, line by line, and a summary
with their number.  Colours only put escape sequences around some of its words, so where no text of
the report holds an escape character, the report without them is found again by stripping these
sequences.
-/

namespace CaptureLint

namespace Style

variable {styled styled' text text' parameters rest : List Char}

/-! ## Stripping -/

/-- A text with styles, as it stands before any other text: stripping leaves `text`. -/
def Strips (styled text : List Char) : Prop :=
  ∀ rest, strip (styled ++ rest) = text ++ strip rest

namespace Strips

theorem nil : Strips [] [] := fun _ => rfl

theorem append (h : Strips styled text) (h' : Strips styled' text') :
    Strips (styled ++ styled') (text ++ text') := by
  intro rest
  rw [List.append_assoc, h, h', List.append_assoc]

theorem flatMap {α : Type} {write write' : α → List Char} {items : List α}
    (h : ∀ item ∈ items, Strips (write item) (write' item)) :
    Strips (items.flatMap write) (items.flatMap write') := by
  induction items with
  | nil => exact nil
  | cons item items ih =>
      rw [List.flatMap_cons, List.flatMap_cons]
      exact (h item List.mem_cons_self).append (ih fun other hother =>
        h other (List.mem_cons_of_mem item hother))

theorem strip_eq (h : Strips styled text) : strip styled = text := by
  have hend := h []
  rwa [List.append_nil, strip, List.append_nil] at hend

theorem of_not_mem (h : '\x1b' ∉ text) : Strips text text := by
  intro rest
  induction text with
  | nil => rfl
  | cons c text ih =>
      rw [List.mem_cons, not_or] at h
      have hstep : strip (c :: (text ++ rest)) = c :: strip (text ++ rest) := by
        rw [strip]
        intro later hc
        exact absurd hc.symm h.1
      rw [List.cons_append, hstep, ih h.2, List.cons_append]

end Strips

/-! ## Styles -/

def Numeric (parameters : List Char) : Prop :=
  parameters.all (fun c => c.isDigit || c == ';') = true

theorem strip_sequence (h : Numeric parameters) (rest : List Char) :
    strip ('\x1b' :: '[' :: (parameters ++ 'm' :: rest)) = strip rest := by
  have htake : (parameters ++ 'm' :: rest).takeWhile (fun c => c.isDigit || c == ';') =
      parameters := by
    rw [List.takeWhile_append_of_pos (List.all_eq_true.mp h), List.takeWhile_cons_of_neg (by decide),
      List.append_nil]
  have hdrop : (parameters ++ 'm' :: rest).drop (parameters.length + 1) = rest := by
    simp [List.drop_append]
  rw [strip, htake, List.getElem?_append_right (Nat.le_refl _), Nat.sub_self,
    List.getElem?_cons_zero, if_pos rfl, hdrop]

theorem strips_reset : Strips reset [] := strip_sequence (rfl : Numeric ['0'])

theorem strips_start {style : Style} (h : Numeric (";".intercalate style.codes).toList) :
    Strips style.start [] := by
  intro rest
  have hstrip := strip_sequence h rest
  simpa [start] using hstrip

theorem resume_of_not_mem (style : Style) (h : '\x1b' ∉ text) : resume style text = text := by
  induction text with
  | nil => rfl
  | cons c text ih =>
      rw [List.mem_cons, not_or] at h
      rw [resume, ih h.2]
      intro later hc
      exact absurd hc.symm h.1

theorem strips_paint (style : Style) {text : String}
    (hcodes : Numeric (";".intercalate style.codes).toList) (h : '\x1b' ∉ text.toList) :
    Strips (paint true style text) (paint false style text) := by
  have hpainted := ((strips_start hcodes).append (Strips.of_not_mem h)).append strips_reset
  rw [List.nil_append, List.append_nil] at hpainted
  simpa [paint, resume_of_not_mem style h] using hpainted

end Style

/-! ## The texts of a report -/

def Violation.texts (violation : Violation) : List String :=
  [violation.ruleId, violation.reference, violation.message] ++ violation.file.toList

def FileReport.texts (file : FileReport) : List String :=
  file.path :: file.violations.flatMap (·.texts)

/-- All texts that a report holds, in its violations or beside them. -/
def Report.texts (report : Report) : List String :=
  report.files.flatMap (·.texts) ++ report.failed

theorem Report.texts_of_mem_violations {report : Report} {violation : Violation} {text : String}
    (h : violation ∈ report.violations) (htext : text ∈ violation.texts) : text ∈ report.texts := by
  obtain ⟨file, hfile, hviolation⟩ := List.mem_flatMap.mp h
  refine List.mem_append_left _ (List.mem_flatMap.mpr ⟨file, hfile, ?_⟩)
  exact List.mem_cons_of_mem _ (List.mem_flatMap.mpr ⟨violation, hviolation, htext⟩)

theorem escape_not_mem_toDigits (n : Nat) : '\x1b' ∉ Nat.toDigits 10 n := by
  intro h
  have hdigit := Json.isDigit_of_mem_toDigits h
  revert hdigit
  decide

theorem Location.toList_render (place : Location) :
    place.render.toList = Nat.toDigits 10 place.line ++ ':' :: Nat.toDigits 10 place.column := by
  simp [render]
  rfl

theorem Violation.toList_render (violation : Violation) :
    violation.render.toList =
      violation.displayFile.toList ++ ':' :: (violation.location.render.toList ++ ':' :: ' ' ::
        (violation.severity.name.toList ++ ':' :: ' ' :: (violation.message.toList ++ ' ' :: '(' ::
          (violation.ruleId.toList ++ [')'])))) := by
  simp [render]
  rfl

namespace Report

open Style

variable {report : Report} {violation : Violation}

/-! ## Lines -/

theorem violationLine_false (violation : Violation) :
    violationLine false violation = violation.render.toList ++ ['\n'] := by
  simp [violationLine, paint, Violation.toList_render]
  rfl

theorem strips_violationLine (h : ∀ text ∈ violation.texts, '\x1b' ∉ text.toList) :
    Strips (violationLine true violation) (violationLine false violation) := by
  have hfile : '\x1b' ∉ violation.displayFile.toList := by
    rw [Violation.displayFile]
    cases hfile : violation.file with
    | none => decide
    | some file => exact h file (by simp [Violation.texts, hfile])
  have hplace : '\x1b' ∉ violation.location.render.toList := by
    simp [Location.toList_render, escape_not_mem_toDigits]
  have hmessage : '\x1b' ∉ violation.message.toList := h _ (by simp [Violation.texts])
  have hrule : '\x1b' ∉ (s!"({violation.ruleId})").toList := by
    have hid : '\x1b' ∉ violation.ruleId.toList := h _ (by simp [Violation.texts])
    have htext : (s!"({violation.ruleId})").toList = '(' :: (violation.ruleId.toList ++ [')']) := by
      simp
      rfl
    simp [htext, hid]
  have hseverity : '\x1b' ∉ violation.severity.name.toList := by
    cases violation.severity <;> decide
  have hstyle : Numeric (";".intercalate (severityStyle violation.severity).codes).toList := by
    cases violation.severity <;> rfl
  have hsigns : ∀ {signs : List Char}, '\x1b' ∉ signs → Strips signs signs := .of_not_mem
  unfold violationLine
  exact (((((((((strips_paint .bold rfl hfile).append (hsigns (by decide))).append (hsigns hplace)).append
    (hsigns (by decide))).append (strips_paint _ hstyle hseverity)).append
    (hsigns (by decide))).append (hsigns hmessage)).append (hsigns (by decide))).append
    (strips_paint .dimmed rfl hrule)).append (hsigns (by decide))

theorem strips_summaryLine (report : Report) :
    Strips (summaryLine true report) (summaryLine false report) := by
  unfold summaryLine
  split
  · refine (strips_paint .green rfl (by decide)).append (.of_not_mem ?_)
    simp [escape_not_mem_toDigits, ToString.toString]
  · refine (((strips_paint .red rfl (by decide)).append (.of_not_mem (by decide))).append
      (strips_paint .bold rfl ?_)).append (.of_not_mem ?_)
    · simp [escape_not_mem_toDigits]
    · simp [escape_not_mem_toDigits, ToString.toString]

theorem strips_failedLine (report : Report) :
    Strips (failedLine true report) (failedLine false report) := by
  unfold failedLine
  split
  · exact .nil
  · refine (strips_paint .yellow rfl (by decide)).append (.of_not_mem ?_)
    simp [escape_not_mem_toDigits, ToString.toString]

theorem strips_terminalText (h : ∀ text ∈ report.texts, '\x1b' ∉ text.toList) :
    Strips (report.terminalText true) (report.terminalText false) := by
  have hlines : Strips (report.violations.flatMap (violationLine true))
      (report.violations.flatMap (violationLine false)) :=
    .flatMap fun violation hviolation => strips_violationLine fun text htext =>
      h text (texts_of_mem_violations hviolation htext)
  have hbreak : Strips (if report.total = 0 then [] else ['\n'])
      (if report.total = 0 then [] else ['\n']) := by
    refine .of_not_mem ?_
    split <;> decide
  exact ((hlines.append hbreak).append (strips_summaryLine report)).append
    (strips_failedLine report)

/-! ## What is counted -/

theorem countAt_add_countAt (report : Report) :
    report.countAt .error + report.countAt .warning = report.violations.length := by
  rw [List.length_eq_countP_add_countP (·.severity == .error), countAt, countAt]
  congr 2
  funext violation
  cases violation.severity <;> rfl

/-! ## The whole text -/

theorem renderTerminal_false (report : Report) :
    report.renderTerminal false =
      String.join (report.violations.map fun violation => violation.render ++ "\n") ++
      (if report.violations = [] then
        s!"✓ No unused capture list entries in {report.checked} file(s)\n"
      else
        s!"\n✗ Found {report.violations.length} violation(s) ({report.countAt .error} error(s), " ++
          s!"{report.countAt .warning} warning(s)) in {report.files.length} of " ++
          s!"{report.checked} file(s)\n") ++
      (if report.failed = [] then ""
      else s!"! {report.failed.length} file(s) could not be read\n") := by
  have hlines : report.violations.flatMap (violationLine false) =
      (String.join (report.violations.map fun violation => violation.render ++ "\n")).toList := by
    rw [String.toList_join, List.flatMap_map]
    congr 1
    funext violation
    rw [violationLine_false, String.toList_append]
    rfl
  rw [← String.toList_inj, renderTerminal, String.toList_ofList, terminalText, hlines,
    String.toList_append, String.toList_append, List.append_assoc (String.toList _)]
  congr 1
  · congr 1
    by_cases hnone : report.violations = []
    · simp [summaryLine, total, paint, hnone, ToString.toString]
    · simp [summaryLine, total, paint, hnone, ToString.toString]
  · by_cases hread : report.failed = []
    · simp [failedLine, hread]
    · simp [failedLine, paint, hread, ToString.toString]

/-- A terminal report says of each violation what the violation says of itself, and its colours are
only decoration.  Without colours it has a line for each violation in the order of the report, then,
if there are any, an empty line, and a summary in which the errors and the warnings make up the
violations.  Where no text of the report holds an escape character, this is what is left of the
coloured report without its escape sequences. -/
theorem terminal_text_exact (report : Report) :
    (∃ errors warnings, errors + warnings = report.violations.length ∧
      errors = report.violations.countP (·.severity = .error) ∧
      warnings = report.violations.countP (·.severity = .warning) ∧
      report.renderTerminal false =
        String.join (report.violations.map fun violation => violation.render ++ "\n") ++
        (if report.violations = [] then
          s!"✓ No unused capture list entries in {report.checked} file(s)\n"
        else
          s!"\n✗ Found {report.violations.length} violation(s) ({errors} error(s), " ++
            s!"{warnings} warning(s)) in {report.files.length} of " ++
            s!"{report.checked} file(s)\n") ++
        (if report.failed = [] then ""
        else s!"! {report.failed.length} file(s) could not be read\n")) ∧
    ((∀ text ∈ report.texts, '\x1b' ∉ text.toList) →
      strip (report.renderTerminal true).toList = (report.renderTerminal false).toList) := by
  constructor
  · exact ⟨report.countAt .error, report.countAt .warning, report.countAt_add_countAt, rfl, rfl,
      report.renderTerminal_false⟩
  · intro h
    rw [renderTerminal, renderTerminal, String.toList_ofList, String.toList_ofList]
    exact (strips_terminalText h).strip_eq

theorem colours_strip_off :
    strip (renderTerminal true ⟨[⟨"a.swift", [⟨"unused_capture_list", "self", some "a.swift", 3,
      ⟨1, 4⟩, .warning, "Unused [m"⟩]⟩], 1, ["b.swift"]⟩).toList =
    ("a.swift:1:4: warning: Unused [m (unused_capture_list)\n\n✗ Found 1 violation(s) " ++
      "(0 error(s), 1 warning(s)) in 1 of 1 file(s)\n! 1 file(s) could not be read\n").toList := by
  rw [(terminal_text_exact _).2 (by decide), renderTerminal_false]
  rfl

end Report

end CaptureLint
