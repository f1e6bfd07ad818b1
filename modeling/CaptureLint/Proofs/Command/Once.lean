import CaptureLint.Proofs.Command.Verdict
import CaptureLint.Proofs.FileSystem.Places
import CaptureLint.Proofs.Lint.Accounting
import CaptureLint.Proofs.Lint.Names
import CaptureLint.Proofs.Walk.Selection

/-!
# Files that are found once

A walk leaves out what is the same path as another one, and that is decided by components.  One file
can be wanted under paths with different components, if roots at or above it are spelled in different
ways.  Where every root that lies at or below another is spelled as the other one with the names that
lead on from there, every file is found once, and no finding is reported twice.
-/

namespace CaptureLint

open CaptureLint.Path

variable {workspace : Workspace} {patterns : List Glob.Pattern} {root other path path' : String}
  {roots paths : List String} {place : Place}

namespace Walk

def Apart (workspace : Workspace) (first second : String) : Prop :=
  ∀ place, workspace.Denotes first place → ¬ workspace.Denotes second place

theorem Apart.symm (h : Apart workspace path path') : Apart workspace path' path :=
  fun place hpath' hpath => h place hpath hpath'

/-- A root at or below another one has the components of the other and the names that lead on from
there. -/
def SpelledAlike (workspace : Workspace) (roots : List String) : Prop :=
  ∀ root ∈ roots, ∀ other ∈ roots, ∀ place names,
    workspace.Denotes root place → workspace.Denotes other (place ++ names) →
      components other = components root ++ namesOf names

/-- Roots that begin alike and go on with names are spelled alike, and so is every single root. -/
theorem spelledAlike_of_begin (begin : List Component)
    (h : ∀ root ∈ roots, ∃ names, components root = begin ++ namesOf names) :
    SpelledAlike workspace roots := by
  intro root hroot other hother place names hdenotes hdenotes'
  obtain ⟨down, hspelled⟩ := h root hroot
  obtain ⟨down', hspelled'⟩ := h other hother
  have hplace := hdenotes.eq_placeOf
  have hplace' := hdenotes'.eq_placeOf
  rw [Workspace.placeOf, hspelled, List.foldl_append, Workspace.foldl_lead_namesOf] at hplace
  rw [Workspace.placeOf, hspelled', List.foldl_append, Workspace.foldl_lead_namesOf, hplace,
    List.append_assoc] at hplace'
  rw [hspelled, hspelled', ← List.append_cancel_left hplace', namesOf_append, List.append_assoc]

/-! ## Wanted files -/

theorem Wanted.spelled (h : Wanted workspace patterns root path) (htree : workspace.files.IsTree) :
    ∃ place names content, workspace.Denotes root place ∧
      components path = components root ++ namesOf names ∧
      workspace.locate path = .ok (place ++ names, .file content) := by
  cases h with
  | @file place content hroot =>
      refine ⟨place, [], content, ⟨_, hroot⟩, (List.append_nil _).symm, ?_⟩
      rw [List.append_nil, hroot]
  | @below place names found hroot hyields =>
      obtain ⟨content, hentry⟩ := hyields.listed
      have hne : root ≠ "" := (Workspace.locate_eq_ok_iff.mp hroot).1
      have hnames : ∀ name ∈ names, EntryName name := fun name hname =>
        htree.named _ hentry name (List.mem_append_right place hname)
      exact ⟨place, names, content, ⟨_, hroot⟩, components_descend hne hnames,
        Workspace.locate_descend htree hroot hentry hyields.below⟩

/-- All paths under which one file is wanted are the same path. -/
def WantedOnce (workspace : Workspace) (patterns : List Glob.Pattern) (roots : List String) : Prop :=
  ∀ root ∈ roots, ∀ other ∈ roots, ∀ path path' place, Wanted workspace patterns root path →
    Wanted workspace patterns other path' → workspace.Denotes path place →
      workspace.Denotes path' place → same path path' = true

/-- Below roots that are spelled alike the path of a file is decided by its place. -/
theorem SpelledAlike.wantedOnce (h : SpelledAlike workspace roots) (htree : workspace.files.IsTree) :
    WantedOnce workspace patterns roots := by
  intro root hroot other hother path path' place hwanted hwanted' hpath hpath'
  obtain ⟨top, names, content, hdenotes, hspelled, hlocate⟩ := hwanted.spelled htree
  obtain ⟨top', names', content', hdenotes', hspelled', hlocate'⟩ := hwanted'.spelled htree
  have hplaces : top ++ names = top' ++ names' :=
    (hpath.unique ⟨_, hlocate⟩).symm.trans (hpath'.unique ⟨_, hlocate'⟩)
  rw [same, beq_iff_eq, hspelled, hspelled']
  -- of two directories above one file, one lies at or below the other
  rcases List.append_eq_append_iff.mp hplaces with ⟨between, rfl, rfl⟩ | ⟨between, rfl, rfl⟩
  · rw [h root hroot other hother top between hdenotes hdenotes', List.append_assoc,
      namesOf_append]
  · rw [h other hother root hroot top' between hdenotes' hdenotes, List.append_assoc,
      namesOf_append]

namespace Selects

theorem exists_file (h : Selects workspace patterns roots paths) (htree : workspace.files.IsTree)
    (hpath : path ∈ paths) : ∃ place content, workspace.locate path = .ok (place, .file content) := by
  obtain ⟨root, -, hwanted⟩ := h.wanted path hpath
  obtain ⟨place, names, content, -, -, hlocate⟩ := hwanted.spelled htree
  exact ⟨_, content, hlocate⟩

theorem exists_found (h : Selects workspace patterns roots paths) (htree : workspace.files.IsTree)
    (hroot : root ∈ roots) (hwanted : Wanted workspace patterns root path)
    (hpath : workspace.Denotes path place) :
    ∃ found ∈ paths, same found path = true ∧ workspace.Denotes found place := by
  obtain ⟨found, hfound, hspelling⟩ := h.complete root hroot path hwanted
  obtain ⟨there, content, hthere⟩ := h.exists_file htree hfound
  have hplace : there = place := by
    rw [hpath.eq_placeOf, Workspace.place_of_locate hthere, Workspace.placeOf,
      Workspace.placeOf, beq_iff_eq.mp hspelling]
  exact ⟨found, hfound, hspelling, .file content, hplace ▸ hthere⟩

/-- The paths found lead to different files exactly if every file is wanted under one path only. -/
theorem apart_iff (h : Selects workspace patterns roots paths) (htree : workspace.files.IsTree) :
    paths.Pairwise (Apart workspace) ↔ WantedOnce workspace patterns roots := by
  constructor
  · intro hapart root hroot other hother path path' place hwanted hwanted' hpath hpath'
    obtain ⟨found, hfound, hspelling, hdenotes⟩ := h.exists_found htree hroot hwanted hpath
    obtain ⟨found', hfound', hspelling', hdenotes'⟩ := h.exists_found htree hother hwanted' hpath'
    have : Std.Symm (Apart workspace) := ⟨fun _ _ => Apart.symm⟩
    have heq : found = found' := by
      by_contra hne
      exact hapart.forall hfound hfound' hne place hdenotes hdenotes'
    rw [same, beq_iff_eq] at hspelling hspelling' ⊢
    rw [← hspelling, ← hspelling', heq]
  · intro honce
    refine h.ordered.imp_of_mem fun hfirst hsecond hbefore place hdenotes hdenotes' => ?_
    obtain ⟨root, hroot, hwanted⟩ := h.wanted _ hfirst
    obtain ⟨other, hother, hwanted'⟩ := h.wanted _ hsecond
    have hsame := honce root hroot other hother _ _ place hwanted hwanted' hdenotes hdenotes'
    rw [hbefore.2] at hsame
    cases hsame

end Selects

theorem value_files_of_sorted {found : List (List String)}
    (hfound : roots.mapM (filesAt workspace patterns) = .ok found)
    (hsorted : found.flatten.Pairwise (le · · = true)) :
    (files workspace patterns roots).value = .ok (dropRepeats found.flatten) := by
  rw [value_files, hfound, Except.map, List.mergeSort_of_pairwise hsorted]

end Walk

namespace Lint

open Walk

variable {config : Config} {rules : List Rule} {report : Report}

/-! ## Findings -/

def SameFinding (workspace : Workspace) (first second : Violation) : Prop :=
  first.offset = second.offset ∧
    (first.file = second.file ∨ ∃ path path' place, first.file = some path ∧
      second.file = some path' ∧ workspace.Denotes path place ∧ workspace.Denotes path' place)

theorem not_sameFinding_of_apart {entry entry' : FileReport} {first second : Violation}
    (hentry : fileReport? workspace rules path = some entry)
    (hentry' : fileReport? workspace rules path' = some entry') (hapart : Apart workspace path path')
    (hplace : workspace.Denotes path place) (hfirst : first ∈ entry.violations)
    (hsecond : second ∈ entry'.violations) : ¬ SameFinding workspace first second := by
  obtain ⟨text, htext⟩ := violations_of_fileReport? hentry
  obtain ⟨text', htext'⟩ := violations_of_fileReport? hentry'
  have hfile : first.file = some path := file_of_mem_source (htext ▸ hfirst)
  have hfile' : second.file = some path' := file_of_mem_source (htext' ▸ hsecond)
  rintro ⟨-, hsame | ⟨file, file', there, heq, heq', hdenotes, hdenotes'⟩⟩
  · cases hfile.symm.trans (hsame.trans hfile')
    exact hapart place hplace hplace
  · cases hfile.symm.trans heq
    cases hfile'.symm.trans heq'
    exact hapart there hdenotes hdenotes'

theorem Accounts.pairwise_violations (h : Accounts workspace config.rules paths report)
    (hapart : paths.Pairwise (Apart workspace))
    (hplaces : ∀ path ∈ paths, ∃ place, workspace.Denotes path place) :
    report.violations.Pairwise fun first second => ¬ SameFinding workspace first second := by
  have hentries : report.files.Pairwise fun first second =>
      Apart workspace first.path second.path := by
    refine List.Pairwise.perm (List.pairwise_filterMap.mpr (hapart.imp ?_)) h.entries.symm
      Apart.symm
    intro first second happart entry hentry entry' hentry'
    rwa [path_of_fileReport? hentry, path_of_fileReport? hentry']
  rw [Report.violations, List.pairwise_flatMap]
  constructor
  · intro entry hentry
    obtain ⟨text, htext⟩ := violations_of_fileReport? (h.fileReport?_path hentry).2
    rw [htext]
    refine (increasing_source config _).imp fun hlt => ?_
    rintro ⟨hoffset, -⟩
    exact Nat.ne_of_lt hlt hoffset
  · refine hentries.imp_of_mem fun hfirst hsecond happart violation hviolation other hother => ?_
    obtain ⟨hpath, hentry⟩ := h.fileReport?_path hfirst
    obtain ⟨-, hentry'⟩ := h.fileReport?_path hsecond
    obtain ⟨place, hplace⟩ := hplaces _ hpath
    exact not_sameFinding_of_apart hentry hentry' happart hplace hviolation hother

end Lint

namespace CheckRequest

open Walk Lint

theorem files_of_targets {request : CheckRequest} {config : Config}
    (h : (request.targets workspace config).value = .ok paths) :
    ∃ patterns, (Walk.files workspace patterns request.paths).value = .ok paths := by
  rw [targets, value_targetsAmid] at h
  obtain ⟨patterns, -, hfiles⟩ := Except.bind_eq_ok_iff.mp h
  exact ⟨patterns, hfiles⟩

/-- When a file is linted once.  Every path found in a tree leads to a file, and two of them lead to
one file exactly if it is wanted under two paths with different components.  That cannot be below roots
that are spelled alike, as those are that begin alike, so a check of such roots reports no finding
twice. -/
theorem files_linted_once (workspace : Workspace) (htree : workspace.files.IsTree) :
    (∀ patterns roots paths, (Walk.files workspace patterns roots).value = .ok paths →
      (∀ path ∈ paths, ∃ place content, workspace.locate path = .ok (place, .file content)) ∧
      (paths.Pairwise (Apart workspace) ↔ WantedOnce workspace patterns roots)) ∧
    (∀ patterns roots, SpelledAlike workspace roots → WantedOnce workspace patterns roots) ∧
    (∀ roots begin, (∀ root ∈ roots, ∃ names, components root = begin ++ namesOf names) →
      SpelledAlike workspace roots) ∧
    ∀ (request : CheckRequest) config report, SpelledAlike workspace request.paths →
      (request.lint workspace).value = .ok (config, report) →
        report.violations.Pairwise fun first second => ¬ SameFinding workspace first second := by
  constructor
  · intro patterns roots paths hpaths
    have hselects := selects_of_files hpaths
    exact ⟨fun path => hselects.exists_file htree, hselects.apart_iff htree⟩
  constructor
  · intro patterns roots halike
    exact halike.wantedOnce htree
  constructor
  · intro roots begin hbegin
    exact spelledAlike_of_begin begin hbegin
  · intro request config report halike hlint
    obtain ⟨-, paths, htargets, rfl⟩ := value_lint_eq_ok_iff.mp hlint
    obtain ⟨patterns, hpaths⟩ := files_of_targets htargets
    have hselects := selects_of_files hpaths
    have hapart := (hselects.apart_iff htree).mpr (halike.wantedOnce htree)
    refine (accounts_files workspace config.rules paths request.parallel).pairwise_violations hapart
      fun path hpath => ?_
    obtain ⟨place, content, hlocate⟩ := hselects.exists_file htree hpath
    exact ⟨place, .file content, hlocate⟩

def twoFiles : Workspace :=
  ⟨⟨[ (["B.swift"], .file (.text "")), (["a"], .directory),
      (["a", "X.swift"], .file (.text "f { [self] in }")) ]⟩, []⟩

theorem isTree_twoFiles : twoFiles.files.IsTree := by decide +kernel

theorem overlapping_roots_linted_once :
    (Walk.files twoFiles [] [".", "./a"]).value = .ok ["./B.swift", "./a/X.swift"] ∧
      ["./B.swift", "./a/X.swift"].Pairwise (Apart twoFiles) := by
  obtain ⟨hwalk, honce, halike, -⟩ := files_linted_once twoFiles isTree_twoFiles
  have hroots : SpelledAlike twoFiles [".", "./a"] := by
    refine halike _ [.current] fun root hroot => ?_
    rcases List.mem_pair.mp hroot with rfl | rfl
    · exact ⟨[], by decide⟩
    · exact ⟨["a"], by decide⟩
  have hpaths : (Walk.files twoFiles [] [".", "./a"]).value =
      .ok ["./B.swift", "./a/X.swift"] := by
    have hfound : [".", "./a"].mapM (filesAt twoFiles []) =
        .ok [["./B.swift", "./a/X.swift"], ["./a/X.swift"]] := rfl
    rw [value_files_of_sorted hfound (by decide +kernel)]
    simp +decide [dropRepeats]
  exact ⟨hpaths, (hwalk _ _ _ hpaths).2.mpr (honce _ _ hroots)⟩

/-- The working directory and a directory in it, with no `./` before its name. -/
theorem respelled_roots_linted_twice :
    ¬ ∀ (workspace : Workspace) (patterns : List Glob.Pattern) (roots paths : List String),
      workspace.files.IsTree → (Walk.files workspace patterns roots).value = .ok paths →
        paths.Pairwise (Apart workspace) := by
  intro hall
  have hpaths : (Walk.files twoFiles [] [".", "a"]).value =
      .ok ["./B.swift", "./a/X.swift", "a/X.swift"] := by
    have hfound : [".", "a"].mapM (filesAt twoFiles []) =
        .ok [["./B.swift", "./a/X.swift"], ["a/X.swift"]] := rfl
    rw [value_files_of_sorted hfound (by decide +kernel)]
    simp +decide [dropRepeats]
  have hapart := hall _ _ _ _ isTree_twoFiles hpaths
  exact List.rel_of_pairwise_cons (List.pairwise_cons.mp hapart).2 List.mem_cons_self
    ["a", "X.swift"] ⟨.file (.text "f { [self] in }"), rfl⟩ ⟨.file (.text "f { [self] in }"), rfl⟩

end CheckRequest

end CaptureLint
