import CaptureLint.Proofs.Command.Footprint
import CaptureLint.Proofs.Failure.Results
import CaptureLint.Proofs.Lint.Severity

/-!
# Severity and the verdict of a check

A check may be asked for a severity and for strictness.  Neither matters before there is a report:
checks that differ in nothing else cannot be finished in the same cases and report the same findings,
with one severity throughout each report.  Only the verdict depends on them.
-/

namespace CaptureLint.CheckRequest

variable {request : CheckRequest} {workspace : Workspace}

/-! ## What a check reports -/

def ownConfig (request : CheckRequest) (workspace : Workspace) : Except Failure Config :=
  match request.config with
  | some path => (Config.load workspace path).value
  | none => .ok (Config.forWorkspace workspace).value

theorem value_resolveConfig (request : CheckRequest) (workspace : Workspace) :
    (request.resolveConfig workspace).value =
      (request.ownConfig workspace).map (·.withSeverity request.severity) := by
  rw [resolveConfig, ownConfig]
  cases request.config <;> rfl

theorem value_lint (request : CheckRequest) (workspace : Workspace) :
    (request.lint workspace).value =
      (request.resolveConfig workspace).value.bind fun config =>
        (request.targets workspace config).value.map fun paths =>
          (config, (Lint.files workspace config.rules paths request.parallel).value) :=
  value_lintAmid request .none workspace

theorem value_lint_eq_ok_iff {config : Config} {report : Report} :
    (request.lint workspace).value = .ok (config, report) ↔
      (request.resolveConfig workspace).value = .ok config ∧
        ∃ paths, (request.targets workspace config).value = .ok paths ∧
          (Lint.files workspace config.rules paths request.parallel).value = report := by
  rw [value_lint, Except.bind_eq_ok_iff]
  constructor
  · rintro ⟨own, hown, htargets⟩
    obtain ⟨paths, hpaths, hfound⟩ := Except.map_eq_ok_iff.mp htargets
    cases hfound
    exact ⟨hown, paths, hpaths, rfl⟩
  · rintro ⟨hconfig, paths, hpaths, rfl⟩
    exact ⟨config, hconfig, Except.map_eq_ok_iff.mpr ⟨paths, hpaths, rfl⟩⟩

/-- A finding in one of the files to lint that can be read and that no suppression there covers. -/
def Finds (request : CheckRequest) (workspace : Workspace) (violation : Violation) : Prop :=
  ∃ config paths, (request.resolveConfig workspace).value = .ok config ∧
    (request.targets workspace config).value = .ok paths ∧
      ∃ path ∈ paths, ∃ source, Lint.readSource workspace path = .ok source ∧
        Lint.Outstanding config.rules source violation

theorem mem_violations_lint {config : Config} {report : Report} {violation : Violation}
    (h : (request.lint workspace).value = .ok (config, report)) :
    violation ∈ report.violations ↔ request.Finds workspace violation := by
  obtain ⟨hconfig, paths, htargets, rfl⟩ := value_lint_eq_ok_iff.mp h
  rw [Lint.mem_violations_files]
  constructor
  · intro hfound
    exact ⟨config, paths, hconfig, htargets, hfound⟩
  · rintro ⟨config', paths', hconfig', htargets', hfound⟩
    rw [hconfig] at hconfig'
    cases hconfig'
    rw [htargets] at htargets'
    cases htargets'
    exact hfound

/-! ## The verdict on it -/

def opening (request : CheckRequest) (workspace : Workspace) : Except Failure Unit :=
  match request.output with
  | none => .ok ()
  | some path =>
      match workspace.writable path with
      | .error fault => .error (.system (some s!"Failed to create {path}") fault)
      | .ok _ => .ok ()

/-- Whether a check fails by its verdict, or why it cannot be finished. -/
def verdict (request : CheckRequest) (coloured : Bool) (workspace : Workspace) :
    Except Failure Bool :=
  ((request.perform coloured).runIn workspace).value.1.map (·.failed)

theorem verdict_eq (request : CheckRequest) (coloured : Bool) (workspace : Workspace) :
    request.verdict coloured workspace =
      (request.lint workspace).value.bind fun (_, report) =>
        (request.opening workspace).map fun _ => report.fails request.strict := by
  rw [verdict, value_perform]
  cases (request.lint workspace).value with
  | error failure => rfl
  | ok found =>
      dsimp only [Except.bind]
      rw [opening]
      cases request.output with
      | none => rfl
      | some path =>
          dsimp only
          cases workspace.writable path <;> rfl

theorem verdict_eq_ok_iff {coloured failed : Bool} :
    request.verdict coloured workspace = .ok failed ↔
      ∃ config report, (request.lint workspace).value = .ok (config, report) ∧
        request.opening workspace = .ok () ∧ report.fails request.strict = failed := by
  rw [verdict_eq, Except.bind_eq_ok_iff]
  constructor
  · rintro ⟨⟨config, report⟩, hlint, hfound⟩
    obtain ⟨opened, hopening, hfails⟩ := Except.map_eq_ok_iff.mp hfound
    exact ⟨config, report, hlint, hopening, hfails⟩
  · rintro ⟨config, report, hlint, hopening, hfails⟩
    exact ⟨(config, report), hlint, Except.map_eq_ok_iff.mpr ⟨(), hopening, hfails⟩⟩

/-! ## The same check judged otherwise -/

def judging (request : CheckRequest) (severity : Option Severity) (strict : Bool) : CheckRequest :=
  { request with severity, strict }

section

variable (request) (severity : Option Severity) (strict : Bool) (workspace)

theorem value_resolveConfig_judging :
    ((request.judging severity strict).resolveConfig workspace).value =
      (request.ownConfig workspace).map (·.withSeverity severity) :=
  value_resolveConfig _ _

theorem targets_judging (config : Config) :
    (request.judging severity strict).targets workspace (config.withSeverity severity) =
      (request.judging none false).targets workspace config := by
  rw [targets, targets, targetsAmid, targetsAmid, Config.patterns_withSeverity]
  rfl

/-- The report is the same with the severity that is asked for in every violation or, if none is, with
that of the configuration. -/
theorem value_lint_judging :
    ((request.judging severity strict).lint workspace).value =
      ((request.judging none false).lint workspace).value.map fun (config, report) =>
        (config.withSeverity severity, report.atSeverity (severity.getD config.severity)) := by
  -- Both runs start from the same configuration, and go on to the same files.
  rw [value_lint, value_lint, value_resolveConfig_judging, value_resolveConfig_judging]
  cases request.ownConfig workspace with
  | error failure => rfl
  | ok config =>
      dsimp only [Except.bind, Except.map]
      rw [targets_judging, Config.rules_withSeverity, Config.withSeverity_none]
      cases ((request.judging none false).targets workspace config).value with
      | error failure => rfl
      | ok paths =>
          dsimp only
          rw [Lint.value_files_atSeverity]
          rfl

theorem verdict_judging (coloured : Bool) :
    (request.judging severity strict).verdict coloured workspace =
      ((request.judging none false).lint workspace).value.bind fun (config, report) =>
        (request.opening workspace).map fun _ =>
          (report.atSeverity (severity.getD config.severity)).fails strict := by
  rw [verdict_eq, value_lint_judging]
  cases ((request.judging none false).lint workspace).value <;> rfl

/-- What keeps a check from being finished has nothing to do with severities. -/
theorem verdict_eq_error_iff (coloured : Bool) (failure : Failure) :
    (request.judging severity strict).verdict coloured workspace = .error failure ↔
      ((request.judging none false).lint workspace).value = .error failure ∨
        (∃ found, ((request.judging none false).lint workspace).value = .ok found) ∧
          request.opening workspace = .error failure := by
  rw [verdict_judging]
  cases ((request.judging none false).lint workspace).value with
  | error failure => simp [Except.bind]
  | ok found => cases request.opening workspace <;> simp [Except.bind, Except.map]

theorem verdict_error_eq_strict (coloured : Bool) :
    (request.judging (some .error) false).verdict coloured workspace =
      (request.judging severity true).verdict coloured workspace := by
  rw [verdict_judging, verdict_judging]
  congr 1
  funext found
  dsimp only [Option.getD_some]
  rw [Report.fails_atSeverity_error, Report.fails_strict_atSeverity]

end

theorem verdict_warning {coloured failed : Bool}
    (h : (request.judging (some .warning) false).verdict coloured workspace = .ok failed) :
    failed = false := by
  rw [verdict_judging] at h
  obtain ⟨⟨config, report⟩, -, hfound⟩ := Except.bind_eq_ok_iff.mp h
  obtain ⟨opened, -, rfl⟩ := Except.map_eq_ok_iff.mp hfound
  exact report.fails_atSeverity_warning

variable {severity : Option Severity} {strict : Bool} {config own : Config} {report : Report}

theorem severity_of_mem_lint
    (h : ((request.judging severity strict).lint workspace).value = .ok (config, report))
    {violation : Violation} (hviolation : violation ∈ report.violations) :
    violation.severity = config.severity := by
  rw [value_lint_judging] at h
  obtain ⟨⟨own, found⟩, -, heq⟩ := Except.map_eq_ok_iff.mp h
  obtain ⟨rfl, rfl⟩ := Prod.mk.inj heq
  rw [Report.severity_of_mem_atSeverity _ _ hviolation, Config.severity_withSeverity]

theorem nothing_found_of_disabled (hown : request.ownConfig workspace = .ok own)
    (hdisabled : own.unusedCaptureSettings.enabled = false)
    (h : ((request.judging severity strict).lint workspace).value = .ok (config, report)) :
    config.rules = [] ∧ report.violations = [] := by
  obtain ⟨hconfig, paths, -, rfl⟩ := value_lint_eq_ok_iff.mp h
  rw [value_resolveConfig_judging, hown] at hconfig
  cases hconfig
  have hrules : (own.withSeverity severity).rules = [] := by
    rw [Config.rules, Config.enabled_withSeverity, hdisabled]
    rfl
  refine ⟨hrules, List.eq_nil_iff_forall_not_mem.mpr fun violation hviolation => ?_⟩
  obtain ⟨path, -, source, -, ⟨node, -, hfound⟩, -⟩ := Lint.mem_violations_files.mp hviolation
  rw [hrules] at hfound
  cases hfound

/-! ## What the severity is for -/

/-- Severity and strictness change the verdict of a check and nothing else.  Checks that differ in
them only cannot be finished for the same reasons, and their reports are equal but for the severity,
which is one in each report.  Asking for errors is asking for strictness, which fails a check exactly
if it finds anything; asking for warnings without strictness never fails it.  And what the
configuration turns off stays off. -/
theorem severity_changes_verdict_only (request : CheckRequest) (workspace : Workspace)
    (coloured : Bool) :
    (∀ severity strict,
      (∀ failure, (request.judging severity strict).verdict coloured workspace = .error failure ↔
        (request.judging none false).verdict coloured workspace = .error failure) ∧
      ((request.judging severity strict).lint workspace).value =
        ((request.judging none false).lint workspace).value.map (fun (config, report) =>
          (config.withSeverity severity, report.atSeverity (severity.getD config.severity))) ∧
      ∀ config report, ((request.judging severity strict).lint workspace).value = .ok (config, report) →
        ∀ violation ∈ report.violations, violation.severity = config.severity) ∧
    (∀ severity,
      (request.judging (some .error) false).verdict coloured workspace =
        (request.judging severity true).verdict coloured workspace ∧
      ∀ failed, (request.judging severity true).verdict coloured workspace = .ok failed →
        (failed = true ↔ ∃ violation, (request.judging severity true).Finds workspace violation)) ∧
    (request.judging (some .warning) false).verdict coloured workspace ≠ .ok true ∧
    ∀ own, request.ownConfig workspace = .ok own → own.unusedCaptureSettings.enabled = false →
      ∀ severity strict config report,
        ((request.judging severity strict).lint workspace).value = .ok (config, report) →
          config.rules = [] ∧ report.violations = [] := by
  refine ⟨fun severity strict => ⟨fun failure => ?_, value_lint_judging .., ?_⟩,
    fun severity => ⟨?_, fun failed h => ?_⟩, fun h => ?_, ?_⟩
  · exact (verdict_eq_error_iff ..).trans (verdict_eq_error_iff ..).symm
  · intro config report h
    exact fun _ => severity_of_mem_lint h
  · exact verdict_error_eq_strict ..
  · obtain ⟨config, report, hlint, -, rfl⟩ := verdict_eq_ok_iff.mp h
    rw [judging, report.fails_strict_iff]
    exact exists_congr fun violation => mem_violations_lint hlint
  · exact Bool.false_ne_true (verdict_warning h).symm
  · intro own hown hdisabled severity strict config report h
    exact nothing_found_of_disabled hown hdisabled h

end CaptureLint.CheckRequest
