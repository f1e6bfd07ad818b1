import CaptureLint.Lint.Files
import CaptureLint.Proofs.Lint.Order

/-!
# What is reported of files

Every file is linted on its own, so a report is made of the outcomes for its files.  The violations
in it are the findings in the files that can be read, less those that a comment suppresses.
-/

namespace CaptureLint.Lint

open Node Suppression

variable {workspace : Workspace} {rules : List Rule} {paths : List String} {violation : Violation}

/-! ## One file -/

/-- A finding of the rules in a source that no suppression of the source covers. -/
structure Outstanding (rules : List Rule) (source : Source) (violation : Violation) : Prop where
  found : ∃ node ∈ closures (source.structureOf source.tokens),
    violation ∈ foundAt rules (.ofSource source) node
  unsuppressed :
    (Table.ofSource source source.tokens).suppresses violation.location.line violation.ruleId = false

theorem mem_value_source {source : Source} :
    violation ∈ (Lint.source rules source).value ↔ Outstanding rules source violation := by
  rw [value_source, List.mem_mergeSort, List.mem_filter, List.mem_flatMap, Bool.not_eq_true']
  exact ⟨fun ⟨hfound, hshown⟩ => ⟨hfound, hshown⟩, fun h => ⟨h.found, h.unsuppressed⟩⟩

theorem value_file (workspace : Workspace) (rules : List Rule) (path : String) :
    (file workspace rules path).value =
      (readSource workspace path).map fun source => ⟨path, (Lint.source rules source).value⟩ := by
  rw [file]
  cases readSource workspace path <;> rfl

/-! ## Many files -/

def outcomes (workspace : Workspace) (rules : List Rule) (paths : List String) : Outcomes :=
  paths.map fun path => (path, (file workspace rules path).value)

theorem value_files (workspace : Workspace) (rules : List Rule) (paths : List String)
    (parallel : Bool) :
    (files workspace rules paths parallel).value = (outcomes workspace rules paths).report := by
  rw [files, Logged.value_bind, Logged.value_bind, Logged.value_mapM]
  rfl

theorem Outcomes.mem_violations_report {outcomes : Outcomes} :
    violation ∈ outcomes.report.violations ↔
      ∃ path report, (path, .ok report) ∈ outcomes ∧ violation ∈ report.violations := by
  rw [Report.violations, List.mem_flatMap]
  constructor
  · rintro ⟨report, hreport, hviolation⟩
    rw [Outcomes.report, List.mem_mergeSort, List.mem_filter, readFiles, List.mem_filterMap] at hreport
    obtain ⟨⟨⟨path, outcome⟩, hmem, houtcome⟩, -⟩ := hreport
    cases outcome with
    | error failure => cases houtcome
    | ok found =>
        cases houtcome
        exact ⟨path, report, hmem, hviolation⟩
  · rintro ⟨path, report, hmem, hviolation⟩
    refine ⟨report, ?_, hviolation⟩
    rw [Outcomes.report, List.mem_mergeSort, List.mem_filter, readFiles, List.mem_filterMap]
    have hnonempty : report.violations ≠ [] := List.ne_nil_of_mem hviolation
    exact ⟨⟨_, hmem, rfl⟩, by simpa using hnonempty⟩

/-- The violations in a report are the outstanding findings in the files that can be read. -/
theorem mem_violations_files {parallel : Bool} :
    violation ∈ (files workspace rules paths parallel).value.violations ↔
      ∃ path ∈ paths, ∃ source, readSource workspace path = .ok source ∧
        Outstanding rules source violation := by
  rw [value_files, Outcomes.mem_violations_report]
  constructor
  · rintro ⟨path, report, hmem, hviolation⟩
    obtain ⟨path, hpath, heq⟩ := List.mem_map.mp hmem
    obtain ⟨rfl, hfile⟩ := Prod.mk.inj heq
    rw [value_file] at hfile
    cases hread : readSource workspace path with
    | error failure =>
        rw [hread] at hfile
        cases hfile
    | ok source =>
        rw [hread] at hfile
        cases hfile
        exact ⟨path, hpath, source, hread, mem_value_source.mp hviolation⟩
  · rintro ⟨path, hpath, source, hread, houtstanding⟩
    refine ⟨path, ⟨path, (Lint.source rules source).value⟩, List.mem_map.mpr ⟨path, hpath, ?_⟩,
      mem_value_source.mpr houtstanding⟩
    rw [value_file, hread]
    rfl

end CaptureLint.Lint
