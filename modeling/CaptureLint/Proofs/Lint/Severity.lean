import CaptureLint.Proofs.Lint.Files

/-!
# Severities in a report

A rule copies the severity of its settings into what it finds, and nothing on the way to a report
looks at it.  So linting with another severity finds the same, with the other severity in every
violation, and only the verdict on the report may be another.
-/

namespace CaptureLint

/-! ## The same with another severity -/

def Violation.atSeverity (severity : Severity) (violation : Violation) : Violation :=
  { violation with severity }

def Rule.atSeverity (severity : Severity) : Rule → Rule
  | unusedCapture settings => unusedCapture { settings with severity }

def FileReport.atSeverity (severity : Severity) (report : FileReport) : FileReport :=
  { report with violations := report.violations.map (·.atSeverity severity) }

namespace Report

def atSeverity (severity : Severity) (report : Report) : Report :=
  { report with files := report.files.map (·.atSeverity severity) }

variable (severity : Severity) (report : Report)

theorem violations_atSeverity :
    (report.atSeverity severity).violations = report.violations.map (·.atSeverity severity) := by
  rw [violations, violations, atSeverity, List.flatMap_map, List.map_flatMap]
  rfl

theorem total_atSeverity : (report.atSeverity severity).total = report.total := by
  rw [total, total, violations_atSeverity, List.length_map]

theorem severity_of_mem_atSeverity {violation : Violation}
    (h : violation ∈ (report.atSeverity severity).violations) : violation.severity = severity := by
  rw [violations_atSeverity] at h
  obtain ⟨found, -, rfl⟩ := List.mem_map.mp h
  rfl

/-! ## The verdict on a report -/

theorem fails_strict_iff : report.fails true = true ↔ ∃ violation, violation ∈ report.violations := by
  rw [fails, if_pos rfl, decide_eq_true_iff, total, List.length_pos_iff_exists_mem]

/-- Strictness asks whether there are violations, so severities do not matter to it. -/
theorem fails_strict_atSeverity : (report.atSeverity severity).fails true = report.fails true := by
  rw [fails, fails, if_pos rfl, if_pos rfl, total_atSeverity]

theorem fails_atSeverity_error : (report.atSeverity .error).fails false = report.fails true := by
  have hcount : (report.atSeverity .error).countAt .error = report.total := by
    rw [← total_atSeverity .error, countAt, total, List.countP_eq_length]
    intro violation hviolation
    simp [severity_of_mem_atSeverity _ _ hviolation]
  rw [fails, fails, if_pos rfl, if_neg Bool.false_ne_true, hcount]

theorem fails_atSeverity_warning : (report.atSeverity .warning).fails false = false := by
  have hcount : (report.atSeverity .warning).countAt .error = 0 := by
    rw [countAt, List.countP_eq_zero]
    intro violation hviolation
    simp [severity_of_mem_atSeverity _ _ hviolation]
  rw [fails, if_neg Bool.false_ne_true, hcount]
  rfl

end Report

/-! ## What is found with another severity -/

theorem UnusedCapture.violations?_atSeverity (severity other : Severity) (program : Program)
    (closure : Closure) :
    violations? severity program closure =
      (violations? other program closure).map (·.map (·.atSeverity severity)) := by
  unfold violations?
  dsimp only
  -- Both sides take the same way through the closure; only the last step copies a severity.
  cases program.source.toCharRange? closure.range with
  | none => rfl
  | some whole =>
      cases closure.window? program.source with
      | none => rfl
      | some window =>
          dsimp only [Option.bind_eq_bind, Option.bind_some]
          cases Capture.listing? program.source window with
          | none => rfl
          | some list =>
              dsimp only
              cases Capture.entries list.text with
              | nil => rfl
              | cons entry entries =>
                  dsimp only
                  cases Capture.bodyRange? whole list.range with
                  | none => rfl
                  | some body =>
                      dsimp only [Option.bind_some]
                      cases Capture.namesIn? program.source program.tokens body with
                      | none => rfl
                      | some used =>
                          dsimp only [Option.bind_some, Option.map_some]
                          rw [List.map_map]
                          rfl

theorem UnusedCapture.value_check_atSeverity (severity other : Severity) (program : Program)
    (closure : Closure) :
    (check severity program closure).value =
      (check other program closure).value.map (·.atSeverity severity) := by
  rw [check, check, violations?_atSeverity severity other]
  cases violations? other program closure <;> rfl

theorem Rule.value_check_atSeverity (severity : Severity) (program : Program) (node : Node)
    (rule : Rule) :
    ((rule.atSeverity severity).check program node).value =
      (rule.check program node).value.map (·.atSeverity severity) := by
  obtain ⟨settings⟩ := rule
  rw [atSeverity, check, check]
  cases Closure.ofNode? node with
  | none => rfl
  | some closure => exact UnusedCapture.value_check_atSeverity severity _ program closure

namespace Lint

variable (severity : Severity) (rules : List Rule)

theorem foundAt_atSeverity (program : Program) (node : Node) :
    foundAt (rules.map (·.atSeverity severity)) program node =
      (foundAt rules program node).map (·.atSeverity severity) := by
  rw [foundAt, foundAt, List.flatMap_map, List.map_flatMap]
  simp only [Rule.value_check_atSeverity]

/-- Neither what suppresses a finding nor what comes first depends on severities. -/
theorem value_source_atSeverity (source : Source) :
    (Lint.source (rules.map (·.atSeverity severity)) source).value =
      (Lint.source rules source).value.map (·.atSeverity severity) := by
  have hfound : foundAt (rules.map (·.atSeverity severity)) (.ofSource source) =
      fun node => (foundAt rules (.ofSource source) node).map (·.atSeverity severity) :=
    funext fun node => foundAt_atSeverity severity rules _ node
  rw [value_source, value_source,
    List.map_mergeSort (s := fun first second => first.offset ≤ second.offset)
      (by intro first _ second _; rfl),
    hfound, ← List.map_flatMap, List.filter_map]
  rfl

theorem value_file_atSeverity (workspace : Workspace) (path : String) :
    (file workspace (rules.map (·.atSeverity severity)) path).value =
      (file workspace rules path).value.map (·.atSeverity severity) := by
  rw [value_file, value_file]
  cases readSource workspace path with
  | error failure => rfl
  | ok source =>
      dsimp only [Except.map]
      rw [value_source_atSeverity]
      rfl

namespace Outcomes

def atSeverity (severity : Severity) (outcomes : Outcomes) : Outcomes :=
  outcomes.map fun (path, outcome) => (path, outcome.map (·.atSeverity severity))

theorem readFiles_atSeverity (outcomes : Outcomes) :
    (outcomes.atSeverity severity).readFiles = outcomes.readFiles.map (·.atSeverity severity) := by
  rw [readFiles, readFiles, atSeverity, List.filterMap_map, List.map_filterMap]
  congr 1
  funext found
  obtain ⟨path, outcome⟩ := found
  cases outcome <;> rfl

theorem failures_atSeverity (outcomes : Outcomes) :
    (outcomes.atSeverity severity).failures = outcomes.failures := by
  rw [failures, failures, atSeverity, List.filterMap_map]
  congr 1
  funext found
  obtain ⟨path, outcome⟩ := found
  cases outcome <;> rfl

theorem report_atSeverity (outcomes : Outcomes) :
    (outcomes.atSeverity severity).report = outcomes.report.atSeverity severity := by
  have hkept : (fun file : FileReport => !file.violations.isEmpty) ∘ (·.atSeverity severity) =
      fun file : FileReport => !file.violations.isEmpty := by
    funext file
    simp [FileReport.atSeverity]
  rw [report, report, Report.atSeverity, readFiles_atSeverity, failures_atSeverity,
    List.filter_map, hkept, List.length_map]
  dsimp only
  rw [List.map_mergeSort (s := fun first second => Path.le first.path second.path)
    (by intro first _ second _; rfl)]

end Outcomes

theorem value_files_atSeverity (workspace : Workspace) (paths : List String) (parallel : Bool) :
    (files workspace (rules.map (·.atSeverity severity)) paths parallel).value =
      (files workspace rules paths parallel).value.atSeverity severity := by
  have houtcomes : outcomes workspace (rules.map (·.atSeverity severity)) paths =
      (outcomes workspace rules paths).atSeverity severity := by
    simp only [outcomes, value_file_atSeverity, Outcomes.atSeverity, List.map_map]
    rfl
  rw [value_files, value_files, houtcomes, Outcomes.report_atSeverity]

end Lint

/-! ## The severity of a configuration -/

namespace Config

def severity (config : Config) : Severity := config.unusedCaptureSettings.severity

variable (config : Config) (severity : Option Severity)

theorem withSeverity_none : config.withSeverity none = config := rfl

theorem enabled_withSeverity :
    (config.withSeverity severity).unusedCaptureSettings.enabled =
      config.unusedCaptureSettings.enabled := by
  cases severity <;> rfl

theorem severity_withSeverity :
    (config.withSeverity severity).severity = severity.getD config.severity := by
  cases severity <;> rfl

theorem patterns_withSeverity : (config.withSeverity severity).patterns = config.patterns := by
  cases severity <;> rfl

theorem rules_withSeverity :
    (config.withSeverity severity).rules =
      config.rules.map (·.atSeverity (severity.getD config.severity)) := by
  unfold rules
  rw [enabled_withSeverity]
  split
  · cases severity <;> rfl
  · rfl

end Config

end CaptureLint
