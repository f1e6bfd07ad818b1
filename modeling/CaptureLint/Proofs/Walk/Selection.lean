import CaptureLint.Proofs.Failure.Results
import CaptureLint.Proofs.FileSystem.PathOrder
import CaptureLint.Walk

/-!
# The files found

A walk lists the files at and below all roots, sorts them and leaves out what is the same path as the
one before it.  The order of paths brings all texts of one path together, so every path comes once.
Such a list is determined by the paths in it, which is why the order of the roots does not matter.
-/

namespace CaptureLint.Path

variable {first second : String}

/-- Two paths in order that are not the same path. -/
def Before (first second : String) : Prop := le first second = true ∧ same first second = false

theorem le_of_same (h : same first second = true) : le first second = true := by
  rw [same, beq_iff_eq] at h
  have htotal := componentsLe_total (components first) (components second)
  rw [h, or_self] at htotal
  rwa [le, h]

/-- Lists in strict order with the same paths differ only in how the paths are spelled. -/
theorem components_eq_of_pairwise_before {firsts seconds : List String}
    (hfirsts : firsts.Pairwise Before) (hseconds : seconds.Pairwise Before)
    (hsame : ∀ path, (∃ found ∈ firsts, same found path = true) ↔
      ∃ found ∈ seconds, same found path = true) :
    firsts.map components = seconds.map components := by
  have hnodup : ∀ {paths : List String}, paths.Pairwise Before →
      (paths.map components).Nodup := by
    intro paths hpaths
    refine List.pairwise_map.mpr (hpaths.imp fun hbefore => ?_)
    exact ne_of_beq_false hbefore.2
  have hsorted : ∀ {paths : List String}, paths.Pairwise Before →
      (paths.map components).Pairwise (componentsLe · · = true) := by
    intro paths hpaths
    exact List.pairwise_map.mpr (hpaths.imp And.left)
  have hmem : ∀ {paths : List String} {path : String}, components path ∈ paths.map components ↔
      ∃ found ∈ paths, same found path = true := by
    intro paths path
    simp only [List.mem_map, same, beq_iff_eq]
  have hperm : (firsts.map components).Perm (seconds.map components) := by
    refine (List.perm_ext_iff_of_nodup (hnodup hfirsts) (hnodup hseconds)).mpr fun path => ?_
    constructor
    · rintro hpath
      obtain ⟨text, -, rfl⟩ := List.mem_map.mp hpath
      exact hmem.mpr ((hsame text).mp (hmem.mp hpath))
    · rintro hpath
      obtain ⟨text, -, rfl⟩ := List.mem_map.mp hpath
      exact hmem.mpr ((hsame text).mpr (hmem.mp hpath))
  exact hperm.eq_of_pairwise (fun _ _ _ _ => componentsLe_antisymm) (hsorted hfirsts)
    (hsorted hseconds)

end CaptureLint.Path

namespace CaptureLint.Walk

open CaptureLint.Path

variable {workspace : Workspace} {patterns : List Glob.Pattern} {root path : String}
  {paths roots : List String}

/-! ## Leaving out repeats -/

theorem dropRepeats_sublist (paths : List String) : (dropRepeats paths).Sublist paths := by
  fun_induction dropRepeats paths with
  | case1 first second paths _ ih => exact ih.trans ((List.sublist_cons_self _ _).cons_cons _)
  | case2 first second paths _ ih => exact ih.cons_cons _
  | case3 => exact List.Sublist.refl _

/-- Every path is still there, if in another spelling. -/
theorem exists_mem_dropRepeats (h : path ∈ paths) :
    ∃ kept ∈ dropRepeats paths, same kept path = true := by
  fun_induction dropRepeats paths generalizing path with
  | case1 first second paths hsame ih =>
      rcases List.mem_cons.mp h with rfl | h
      · exact ih List.mem_cons_self
      · rcases List.mem_cons.mp h with rfl | h
        · obtain ⟨kept, hkept, hfirst⟩ := ih List.mem_cons_self
          refine ⟨kept, hkept, ?_⟩
          rw [same, beq_iff_eq] at hsame hfirst ⊢
          exact hfirst.trans hsame
        · exact ih (List.mem_cons_of_mem _ h)
  | case2 first second paths _ ih =>
      rcases List.mem_cons.mp h with rfl | h
      · exact ⟨path, List.mem_cons_self, beq_self_eq_true _⟩
      · obtain ⟨kept, hkept, hpath⟩ := ih h
        exact ⟨kept, List.mem_cons_of_mem _ hkept, hpath⟩
  | case3 => exact ⟨path, h, beq_self_eq_true _⟩

theorem pairwise_dropRepeats (h : paths.Pairwise (le · · = true)) :
    (dropRepeats paths).Pairwise Before := by
  fun_induction dropRepeats paths with
  | case1 first second paths _ ih => exact ih (h.sublist ((List.sublist_cons_self _ _).cons_cons _))
  | case2 first second paths hother ih =>
      obtain ⟨hfirst, hrest⟩ := List.pairwise_cons.mp h
      refine List.pairwise_cons.mpr ⟨fun path hpath => ?_, ih hrest⟩
      have hmem := (dropRepeats_sublist _).subset hpath
      refine ⟨hfirst path hmem, Bool.eq_false_iff.mpr fun hsame => hother ?_⟩
      -- what stands between two spellings of a path is a third one
      have hsecond : le second path = true := by
        rcases List.mem_cons.mp hmem with rfl | hmem
        · exact le_of_same (beq_self_eq_true _)
        · exact List.rel_of_pairwise_cons hrest hmem
      have hback : le path first = true := by
        rw [same, Bool.beq_comm] at hsame
        exact le_of_same hsame
      exact same_of_le_of_le (hfirst second List.mem_cons_self) (le_trans hsecond hback)
  | case3 paths hshort =>
      cases paths with
      | nil => exact .nil
      | cons first rest =>
          cases rest with
          | nil => exact List.pairwise_singleton _ first
          | cons second rest => exact (hshort first second rest rfl).elim

/-! ## One root -/

/-- A file that a walk below a root comes to: `names` lead to it from the place of the root, and the
ignore files leave out neither the file nor a directory on the way.  There is no walk below `-`, which
stands for standard input. -/
structure Yields (files : FileSystem) (root : String) (place : Place) (names : List String) :
    Prop where
  listed : ∃ content, (place ++ names, .file content) ∈ files.entries
  below : names ≠ []
  kept : Ignore.excluded files false place names = false
  walked : root ≠ "-"

/-- A path to lint: a root that is a file, or a file below one that is a directory, with the extension
`swift` in any case and a path that no pattern accepts. -/
inductive Wanted (workspace : Workspace) (patterns : List Glob.Pattern) (root : String) :
    String → Prop where
  | file {place : Place} {content : Content}
      (hroot : workspace.locate root = .ok (place, .file content)) :
      Wanted workspace patterns root root
  | below {place : Place} {names : List String} {found : List Char}
      (hroot : workspace.locate root = .ok (place, .directory))
      (hyields : Yields workspace.files root place names)
      (hextension : Path.extension? (Path.descend root names) = some found)
      (hswift : found.map Char.toLower = "swift".toList)
      (hpatterns : ∀ pattern ∈ patterns, pattern.accepts ("/".intercalate names) = false ∧
        pattern.accepts (Path.descend root names) = false) :
      Wanted workspace patterns root (Path.descend root names)

theorem hasExtension_iff : Path.hasExtension path extension = true ↔
    ∃ found, Path.extension? path = some found ∧ found.map Char.toLower = "swift".toList := by
  rw [Path.hasExtension, Option.any_eq_true]
  simp only [beq_iff_eq]
  rfl

example : hasExtension "x/.swift" "swift" = false ∧ hasExtension "B.SWIFT" "swift" = true := by
  decide

theorem matchesAny_eq_false_iff {relative : String} : matchesAny patterns relative path = false ↔
    ∀ pattern ∈ patterns, pattern.accepts relative = false ∧ pattern.accepts path = false := by
  simp [matchesAny]

theorem mem_below {files : FileSystem} {directory : Place} {names : List String} {entry : Entry} :
    (names, entry) ∈ files.below directory ↔
      (directory ++ names, entry) ∈ files.entries ∧ names ≠ [] := by
  rw [FileSystem.below, List.mem_filterMap]
  constructor
  · rintro ⟨⟨place, found⟩, hmem, hnames⟩
    simp only [Option.ite_none_right_eq_some, Bool.and_eq_true, decide_eq_true_eq,
      List.isPrefixOf_iff_prefix, Option.some.injEq, Prod.mk.injEq] at hnames
    obtain ⟨⟨⟨rest, rfl⟩, hlength⟩, rfl, rfl⟩ := hnames
    rw [List.drop_left]
    refine ⟨hmem, ?_⟩
    rintro rfl
    simp at hlength
  · rintro ⟨hmem, hne⟩
    refine ⟨_, hmem, ?_⟩
    simp [List.length_pos_iff.mpr hne]

theorem mem_filesBelow {files : FileSystem} {place : Place} :
    path ∈ filesBelow files patterns root place ↔
      ∃ names, Yields files root place names ∧ path = Path.descend root names ∧
        Path.hasExtension path extension = true ∧
          matchesAny patterns ("/".intercalate names) path = false := by
  rw [filesBelow]
  split
  · rename_i hdash
    refine ⟨fun hnone => absurd hnone List.not_mem_nil, ?_⟩
    rintro ⟨names, hyields, -⟩
    exact absurd hdash hyields.walked
  · rename_i hwalked
    rw [List.mem_filterMap]
    constructor
    · rintro ⟨⟨names, entry⟩, hmem, hpath⟩
      simp only [Option.ite_none_right_eq_some, Bool.and_eq_true, Bool.not_eq_true',
        Option.some.injEq] at hpath
      obtain ⟨⟨⟨⟨hfile, hkept⟩, hextension⟩, hpatterns⟩, rfl⟩ := hpath
      obtain ⟨hentry, hne⟩ := mem_below.mp hmem
      cases entry with
      | directory => cases hfile
      | file content =>
          exact ⟨names, ⟨⟨content, hentry⟩, hne, hkept, hwalked⟩, rfl, hextension, hpatterns⟩
    · rintro ⟨names, hyields, rfl, hextension, hpatterns⟩
      obtain ⟨content, hentry⟩ := hyields.listed
      refine ⟨(names, .file content), mem_below.mpr ⟨hentry, hyields.below⟩, ?_⟩
      simp [Entry.isDirectory, hyields.kept, hextension, hpatterns]

theorem filesAt_error_iff :
    (∃ failure, filesAt workspace patterns root = .error failure) ↔
      ∀ found, workspace.locate root ≠ .ok found := by
  rw [filesAt, filesAtAmid]
  rcases workspace.locate root with fault | ⟨place, _ | content⟩
  · exact ⟨fun _ _ => nofun, fun _ => ⟨_, rfl⟩⟩
  · exact ⟨nofun, fun h => (h _ rfl).elim⟩
  · exact ⟨nofun, fun h => (h _ rfl).elim⟩

theorem mem_filesAt {found : List String} (h : filesAt workspace patterns root = .ok found) :
    path ∈ found ↔ Wanted workspace patterns root path := by
  rw [filesAt, filesAtAmid] at h
  rcases hroot : workspace.locate root with fault | ⟨place, _ | content⟩ <;> rw [hroot] at h
  · cases h
  · cases h
    rw [mem_filesBelow]
    constructor
    · rintro ⟨names, hyields, rfl, hextension, hpatterns⟩
      obtain ⟨found, hextension, hswift⟩ := hasExtension_iff.mp hextension
      exact .below hroot hyields hextension hswift (matchesAny_eq_false_iff.mp hpatterns)
    · intro hwanted
      cases hwanted with
      | file hfile =>
          rw [hroot] at hfile
          cases hfile
      | below hdirectory hyields hextension hswift hpatterns =>
          rw [hroot] at hdirectory
          cases hdirectory
          exact ⟨_, hyields, rfl, hasExtension_iff.mpr ⟨_, hextension, hswift⟩,
            matchesAny_eq_false_iff.mpr hpatterns⟩
  · cases h
    rw [List.mem_singleton]
    constructor
    · rintro rfl
      exact .file hroot
    · intro hwanted
      cases hwanted with
      | file => rfl
      | below hdirectory =>
          rw [hroot] at hdirectory
          cases hdirectory

/-! ## All roots -/

theorem value_filesAmid (faults : EntryFaults) (workspace : Workspace)
    (patterns : List Glob.Pattern) (roots : List String) :
    (filesAmid faults workspace patterns roots).value =
      (roots.mapM (filesAtAmid faults workspace patterns)).map fun found =>
        dropRepeats (found.flatten.mergeSort Path.le) := by
  rw [filesAmid]
  cases roots.mapM (filesAtAmid faults workspace patterns) <;> rfl

theorem value_files (workspace : Workspace) (patterns : List Glob.Pattern) (roots : List String) :
    (files workspace patterns roots).value =
      (roots.mapM (filesAt workspace patterns)).map fun found =>
        dropRepeats (found.flatten.mergeSort Path.le) :=
  value_filesAmid _ _ _ _

theorem files_error_iff :
    (∃ failure, (files workspace patterns roots).value = .error failure) ↔
      ∃ root ∈ roots, ∀ found, workspace.locate root ≠ .ok found := by
  simp only [value_files, Except.map_eq_error_iff, Except.mapM_fails_iff, filesAt_error_iff]

/-- The paths to lint at or below some roots: no path twice, and nothing but what is wanted. -/
structure Selects (workspace : Workspace) (patterns : List Glob.Pattern) (roots paths : List String) :
    Prop where
  ordered : paths.Pairwise Before
  wanted : ∀ path ∈ paths, ∃ root ∈ roots, Wanted workspace patterns root path
  complete : ∀ root ∈ roots, ∀ path, Wanted workspace patterns root path →
    ∃ found ∈ paths, same found path = true

theorem mem_flatten_found {found : List (List String)}
    (h : roots.mapM (filesAt workspace patterns) = .ok found) :
    path ∈ found.flatten ↔ ∃ root ∈ roots, Wanted workspace patterns root path := by
  rw [List.mem_flatten]
  constructor
  · rintro ⟨below, hbelow, hpath⟩
    obtain ⟨root, hroot, hfiles⟩ := (Except.mem_of_mapM_eq_ok h).mp hbelow
    exact ⟨root, hroot, (mem_filesAt hfiles).mp hpath⟩
  · rintro ⟨root, hroot, hwanted⟩
    cases hfiles : filesAt workspace patterns root with
    | error failure =>
        have herror := Except.mapM_fails_iff.mpr ⟨root, hroot, failure, hfiles⟩
        rw [h] at herror
        exact absurd herror nofun
    | ok below =>
        exact ⟨below, (Except.mem_of_mapM_eq_ok h).mpr ⟨root, hroot, hfiles⟩,
          (mem_filesAt hfiles).mpr hwanted⟩

theorem selects_of_files (h : (files workspace patterns roots).value = .ok paths) :
    Selects workspace patterns roots paths := by
  rw [value_files, Except.map_eq_ok_iff] at h
  obtain ⟨found, hfound, rfl⟩ := h
  have hsorted : (found.flatten.mergeSort Path.le).Pairwise (Path.le · · = true) := by
    refine List.pairwise_mergeSort (fun first second third h h' => ?_) (fun first second => ?_) _
    · exact Path.le_trans h h'
    · exact Path.le_total first second
  have hmem : ∀ path, path ∈ found.flatten.mergeSort Path.le ↔
      ∃ root ∈ roots, Wanted workspace patterns root path := fun path => by
    rw [List.mem_mergeSort, mem_flatten_found hfound]
  refine ⟨pairwise_dropRepeats hsorted, fun path hpath => ?_, fun root hroot path hwanted => ?_⟩
  · exact (hmem path).mp ((dropRepeats_sublist _).subset hpath)
  · exact exists_mem_dropRepeats ((hmem path).mpr ⟨root, hroot, hwanted⟩)

/-- Patterns are tried one by one, so only which ones there are matters. -/
theorem Wanted.of_mem_iff {patterns' : List Glob.Pattern}
    (hpatterns : ∀ pattern, pattern ∈ patterns' ↔ pattern ∈ patterns)
    (h : Wanted workspace patterns root path) : Wanted workspace patterns' root path := by
  cases h with
  | file hroot => exact .file hroot
  | below hroot hyields hextension hswift hnone =>
      exact .below hroot hyields hextension hswift fun pattern hpattern =>
        hnone pattern ((hpatterns pattern).mp hpattern)

namespace Selects

/-- A path is selected, in some spelling, exactly if it is one of the wanted ones. -/
theorem mem_iff (h : Selects workspace patterns roots paths) (path : String) :
    (∃ found ∈ paths, same found path = true) ↔
      ∃ root ∈ roots, ∃ wanted, Wanted workspace patterns root wanted ∧ same wanted path = true := by
  constructor
  · rintro ⟨found, hfound, hsame⟩
    obtain ⟨root, hroot, hwanted⟩ := h.wanted found hfound
    exact ⟨root, hroot, found, hwanted, hsame⟩
  · rintro ⟨root, hroot, wanted, hwanted, hsame⟩
    obtain ⟨found, hfound, hspelling⟩ := h.complete root hroot wanted hwanted
    refine ⟨found, hfound, ?_⟩
    rw [same, beq_iff_eq] at hsame hspelling ⊢
    exact hspelling.trans hsame

theorem components_eq {patterns' : List Glob.Pattern} {roots' paths' : List String}
    (h : Selects workspace patterns roots paths) (h' : Selects workspace patterns' roots' paths')
    (hpatterns : ∀ pattern, pattern ∈ patterns' ↔ pattern ∈ patterns)
    (hroots : ∀ root, root ∈ roots' ↔ root ∈ roots) :
    paths'.map components = paths.map components := by
  have hwanted : ∀ root path, Wanted workspace patterns' root path ↔
      Wanted workspace patterns root path := fun root path =>
    ⟨.of_mem_iff fun pattern => (hpatterns pattern).symm, .of_mem_iff hpatterns⟩
  refine components_eq_of_pairwise_before h'.ordered h.ordered fun path => ?_
  simp only [h.mem_iff, h'.mem_iff, hroots, hwanted]

end Selects

/-- The walk finds exactly the right files, in order.  It fails exactly if a root is not there;
otherwise the paths found are in strict order, and a path is among them, in some spelling, exactly if
it is wanted.  So neither the order nor the repetition of roots and patterns matters. -/
theorem files_found_exactly (workspace : Workspace) (patterns : List Glob.Pattern)
    (roots : List String) :
    ((∃ failure, (files workspace patterns roots).value = .error failure) ↔
      ∃ root ∈ roots, ∀ found, workspace.locate root ≠ .ok found) ∧
    (∀ paths, (files workspace patterns roots).value = .ok paths →
      paths.Pairwise (fun first second => Path.le first second = true ∧
        Path.same first second = false) ∧
      (∀ path ∈ paths, ∃ root ∈ roots, Wanted workspace patterns root path) ∧
      ∀ path, (∃ found ∈ paths, Path.same found path = true) ↔
        ∃ root ∈ roots, ∃ wanted, Wanted workspace patterns root wanted ∧
          Path.same wanted path = true) ∧
    ∀ (patterns' : List Glob.Pattern) (roots' : List String),
      (∀ pattern, pattern ∈ patterns' ↔ pattern ∈ patterns) →
      (∀ root, root ∈ roots' ↔ root ∈ roots) →
        (files workspace patterns' roots').value.toOption.map (·.map Path.components) =
          (files workspace patterns roots).value.toOption.map (·.map Path.components) := by
  refine ⟨files_error_iff, fun paths hpaths => ?_, fun patterns' roots' hpatterns hroots => ?_⟩
  · have hselects := selects_of_files hpaths
    exact ⟨hselects.ordered, hselects.wanted, hselects.mem_iff⟩
  · have hfails : (∃ failure, (files workspace patterns' roots').value = .error failure) ↔
        ∃ failure, (files workspace patterns roots).value = .error failure := by
      simp only [files_error_iff, hroots]
    cases hfirst : (files workspace patterns' roots').value with
    | error failure =>
        obtain ⟨failure', hsecond⟩ := hfails.mp ⟨failure, hfirst⟩
        rw [hsecond]
        rfl
    | ok paths' =>
        cases hsecond : (files workspace patterns roots).value with
        | error failure =>
            have hother := hfails.mpr ⟨failure, hsecond⟩
            rw [hfirst] at hother
            exact absurd hother nofun
        | ok paths =>
            exact congrArg some
              ((selects_of_files hsecond).components_eq (selects_of_files hfirst) hpatterns hroots)

end CaptureLint.Walk
