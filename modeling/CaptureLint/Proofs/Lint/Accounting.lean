import CaptureLint.Proofs.FileSystem.PathOrder
import CaptureLint.Proofs.Lint.Files

/-!
# What a report accounts for

Every path that is given stands in the report once: it is counted as checked, with an entry if the
file has violations, or listed as failed.  Main statement: the entries are those that the files have
on their own, in the order of paths, so they depend neither on the files that cannot be read nor on
the order in which the paths are given.
-/

namespace CaptureLint.Lint

variable {workspace : Workspace} {rules : List Rule} {paths paths' : List String}

/-! ## One file -/

def readable (workspace : Workspace) (path : String) : Bool := (workspace.readText path).isOk

/-- The entry of a file on its own; a file that cannot be read or has no violations has none. -/
def fileReport? (workspace : Workspace) (rules : List Rule) (path : String) : Option FileReport :=
  match workspace.readText path with
  | .error _ => none
  | .ok text =>
      let violations := (source rules ⟨some path, text.toList⟩).value
      if violations.isEmpty then none else some ⟨path, violations⟩

theorem path_of_fileReport? {path : String} {entry : FileReport}
    (h : fileReport? workspace rules path = some entry) : entry.path = path := by
  unfold fileReport? at h
  split at h
  · cases h
  · dsimp only at h
    split at h
    · cases h
    · cases h
      rfl

theorem violations_of_fileReport? {path : String} {entry : FileReport}
    (h : fileReport? workspace rules path = some entry) :
    ∃ text : String, entry.violations = (source rules ⟨some path, text.toList⟩).value := by
  unfold fileReport? at h
  split at h
  · cases h
  next text _ =>
    dsimp only at h
    split at h
    · cases h
    · cases h
      exact ⟨text, rfl⟩

theorem fileReport?_of_not_readable {path : String} (h : readable workspace path = false) :
    fileReport? workspace rules path = none := by
  unfold readable at h
  unfold fileReport?
  cases hread : workspace.readText path with
  | error fault => rfl
  | ok text =>
      rw [hread] at h
      cases h

theorem isSome_value_file (workspace : Workspace) (rules : List Rule) (path : String) :
    (file workspace rules path).value.toOption.isSome = readable workspace path := by
  rw [value_file, readSource, readable]
  cases workspace.readText path <;> rfl

theorem filter_value_file (workspace : Workspace) (rules : List Rule) (path : String) :
    (file workspace rules path).value.toOption.filter (!·.violations.isEmpty) =
      fileReport? workspace rules path := by
  rw [value_file, readSource, fileReport?]
  cases workspace.readText path with
  | error fault => rfl
  | ok text =>
      show Option.filter _ (some _) = _
      rw [Option.filter_some]
      cases h : (source rules ⟨some path, text.toList⟩).value.isEmpty <;> simp [h]

/-! ## Many files -/

theorem readFiles_outcomes (workspace : Workspace) (rules : List Rule) (paths : List String) :
    (outcomes workspace rules paths).readFiles =
      paths.filterMap fun path => (file workspace rules path).value.toOption := by
  rw [Outcomes.readFiles, outcomes, List.filterMap_map]
  rfl

theorem length_readFiles_outcomes (workspace : Workspace) (rules : List Rule)
    (paths : List String) :
    (outcomes workspace rules paths).readFiles.length = paths.countP (readable workspace) := by
  rw [readFiles_outcomes, List.length_filterMap_eq_countP]
  simp only [isSome_value_file]

theorem filter_readFiles_outcomes (workspace : Workspace) (rules : List Rule)
    (paths : List String) :
    (outcomes workspace rules paths).readFiles.filter (!·.violations.isEmpty) =
      paths.filterMap (fileReport? workspace rules) := by
  rw [readFiles_outcomes, List.filter_filterMap]
  simp only [filter_value_file]

theorem failures_outcomes (workspace : Workspace) (rules : List Rule) (paths : List String) :
    (outcomes workspace rules paths).failures.map (·.1) =
      paths.filter (!readable workspace ·) := by
  rw [Outcomes.failures, outcomes, List.filterMap_map, List.map_filterMap,
    ← List.filterMap_eq_filter]
  congr 1
  funext path
  rw [Function.comp_apply, value_file, readSource, Option.guard, readable]
  cases workspace.readText path <;> rfl

def entryLe (first second : FileReport) : Bool := Path.le first.path second.path

theorem value_files_eq (workspace : Workspace) (rules : List Rule) (paths : List String)
    (parallel : Bool) :
    (files workspace rules paths parallel).value =
      ⟨(paths.filterMap (fileReport? workspace rules)).mergeSort entryLe,
        paths.countP (readable workspace), paths.filter (!readable workspace ·)⟩ := by
  rw [value_files, Outcomes.report, length_readFiles_outcomes, filter_readFiles_outcomes,
    failures_outcomes]
  rfl

/-! ## What is accounted for -/

/-- A report that accounts for every path it was made of. -/
structure Accounts (workspace : Workspace) (rules : List Rule) (paths : List String)
    (report : Report) : Prop where
  counted : report.checked + report.failed.length = paths.length
  failed : report.failed = paths.filter (!readable workspace ·)
  entries : report.files.Perm (paths.filterMap (fileReport? workspace rules))
  sorted : report.files.Pairwise fun first second => Path.le first.path second.path = true

theorem accounts_files (workspace : Workspace) (rules : List Rule) (paths : List String)
    (parallel : Bool) :
    Accounts workspace rules paths (files workspace rules paths parallel).value := by
  rw [value_files_eq]
  constructor
  · show paths.countP (readable workspace) + (paths.filter (!readable workspace ·)).length = _
    rw [← List.countP_eq_length_filter, List.length_eq_countP_add_countP (readable workspace)]
    simp only [Bool.not_eq_true, Bool.decide_eq_false]
  · rfl
  · exact List.mergeSort_perm _ _
  · apply List.pairwise_mergeSort
    · intro first second third h h'
      exact Path.le_trans h h'
    · intro first second
      exact Path.le_total first.path second.path

namespace Accounts

variable {report report' : Report}

theorem failed_perm (h : Accounts workspace rules paths report)
    (h' : Accounts workspace rules paths' report') (hperm : paths.Perm paths') :
    report'.failed.Perm report.failed := by
  rw [h.failed, h'.failed]
  exact (hperm.filter _).symm

theorem checked_eq (h : Accounts workspace rules paths report)
    (h' : Accounts workspace rules paths' report') (hperm : paths.Perm paths') :
    report'.checked = report.checked := by
  have hfailed := (h.failed_perm h' hperm).length_eq
  have hlength := hperm.length_eq
  have hcounted := h.counted
  have hcounted' := h'.counted
  omega

theorem files_perm (h : Accounts workspace rules paths report)
    (h' : Accounts workspace rules paths' report') (hperm : paths.Perm paths') :
    report'.files.Perm report.files :=
  h'.entries.trans ((hperm.filterMap _).symm.trans h.entries.symm)

theorem fileReport?_path (h : Accounts workspace rules paths report) {entry : FileReport}
    (hentry : entry ∈ report.files) :
    entry.path ∈ paths ∧ fileReport? workspace rules entry.path = some entry := by
  obtain ⟨path, hpath, heq⟩ := List.mem_filterMap.mp (h.entries.mem_iff.mp hentry)
  rw [path_of_fileReport? heq]
  exact ⟨hpath, heq⟩

/-- Distinct paths have their entries in one order only. -/
theorem files_eq (h : Accounts workspace rules paths report)
    (h' : Accounts workspace rules paths' report') (hperm : paths.Perm paths')
    (hdistinct : paths.Pairwise fun first second => Path.same first second = false) :
    report'.files = report.files := by
  apply List.Perm.eq_of_pairwise _ h'.sorted h.sorted (h.files_perm h' hperm)
  intro first second hfirst hsecond hle hge
  obtain ⟨hpath, hentry⟩ := h.fileReport?_path ((h.files_perm h' hperm).mem_iff.mp hfirst)
  obtain ⟨hpath', hentry'⟩ := h.fileReport?_path hsecond
  have hsame := Path.same_of_le_of_le hle hge
  rw [Path.eq_of_same hdistinct hpath hpath' hsame, hentry'] at hentry
  exact (Option.some.inj hentry).symm

end Accounts

theorem value_files_append_cons {path : String} (h : readable workspace path = false)
    (before after : List String) (parallel : Bool) :
    (files workspace rules (before ++ path :: after) parallel).value =
      { (files workspace rules (before ++ after) parallel).value with
        failed := before.filter (!readable workspace ·) ++
          path :: after.filter (!readable workspace ·) } := by
  rw [value_files_eq, value_files_eq]
  simp [fileReport?_of_not_readable h, h]

/-- Linting accounts for every path.  Each path is counted as checked or listed as failed, and the
entries of the report are those of the files that have one, in the order of paths, in parallel or
not.  A file that cannot be read leaves the rest of the report as it would be without it.  Another
order of distinct paths changes the order of those that failed and nothing else. -/
theorem every_path_accounted_for (workspace : Workspace) (rules : List Rule) :
    (∀ paths parallel,
      Accounts workspace rules paths (files workspace rules paths parallel).value) ∧
    (∀ paths, (files workspace rules paths true).value =
      (files workspace rules paths false).value) ∧
    (∀ before path after parallel, readable workspace path = false →
      (files workspace rules (before ++ path :: after) parallel).value =
        { (files workspace rules (before ++ after) parallel).value with
          failed := before.filter (!readable workspace ·) ++
            path :: after.filter (!readable workspace ·) }) ∧
    ∀ paths paths' : List String, paths.Perm paths' → ∀ parallel,
      let report := (files workspace rules paths parallel).value
      let report' := (files workspace rules paths' parallel).value
      report'.checked = report.checked ∧ report'.failed.Perm report.failed ∧
      report'.files.Perm report.files ∧
      (paths.Pairwise (fun first second => Path.same first second = false) →
        report'.files = report.files) := by
  constructor
  · exact accounts_files workspace rules
  constructor
  · intro paths
    rw [value_files, value_files]
  constructor
  · intro before path after parallel h
    exact value_files_append_cons h before after parallel
  · intro paths paths' hperm parallel
    have h := accounts_files workspace rules paths parallel
    have h' := accounts_files workspace rules paths' parallel
    exact ⟨h.checked_eq h' hperm, h.failed_perm h' hperm, h.files_perm h' hperm,
      h.files_eq h' hperm⟩

end CaptureLint.Lint
