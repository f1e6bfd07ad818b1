import CaptureLint.Config.Lookup

/-!
# Which configuration file decides

The search for a configuration tries a directory and its parents, nearest first, and takes the first
file that is there, is a text and can be used.  So the nearest file decides if it can be used, and
then no file farther away counts.  A nearest file that cannot be used is passed over: what decides
then is what the search finds farther away, and the defaults hold only if it finds nothing there.
-/

namespace CaptureLint.Config

variable {workspace : Workspace} {directory : String}

/-! ## One directory -/

def HoldsFile (workspace : Workspace) (directory : String) : Prop :=
  workspace.isFile (Path.join directory fileName) = true

instance : Decidable (HoldsFile workspace directory) := by
  unfold HoldsFile
  infer_instance

/-- The configuration in the file of a directory, if the file is there, is a text and can be used. -/
def usableIn? (workspace : Workspace) (directory : String) : Option Config :=
  match workspace.readText (Path.join directory fileName) with
  | .error _ => none
  | .ok text => (read text).toOption

theorem value_tryLoad (workspace : Workspace) (directory : String) :
    (tryLoad workspace (Path.join directory fileName)).value = usableIn? workspace directory := by
  unfold tryLoad usableIn?
  cases workspace.readText (Path.join directory fileName) with
  | error fault => cases fault <;> rfl
  | ok text =>
      dsimp only
      cases read text <;> rfl

theorem isFile_of_readText {path text : String} (h : workspace.readText path = .ok text) :
    workspace.isFile path = true := by
  unfold Workspace.readText at h
  unfold Workspace.isFile
  cases hlocate : workspace.locate path with
  | error fault =>
      rw [hlocate] at h
      cases h
  | ok found =>
      obtain ⟨place, entry⟩ := found
      rw [hlocate] at h
      cases entry with
      | directory => cases h
      | file content => rfl

theorem usableIn?_of_not_holdsFile (h : ¬ HoldsFile workspace directory) :
    usableIn? workspace directory = none := by
  unfold usableIn?
  cases hread : workspace.readText (Path.join directory fileName) with
  | error fault => rfl
  | ok text => exact absurd (isFile_of_readText hread) h

/-! ## A list of directories -/

theorem value_firstIn (workspace : Workspace) (directories : List String) :
    (firstIn workspace directories).value =
      (directories.findSome? (usableIn? workspace)).getD .default := by
  induction directories with
  | nil => rfl
  | cons directory directories ih =>
      rw [firstIn, Logged.value_bind, value_tryLoad, List.findSome?_cons]
      cases usableIn? workspace directory with
      | none => exact ih
      | some config => rfl

/-- Directories without a configuration file are passed over. -/
theorem value_firstIn_append {nearer : List String} (farther : List String)
    (h : ∀ near ∈ nearer, usableIn? workspace near = none) :
    (firstIn workspace (nearer ++ farther)).value = (firstIn workspace farther).value := by
  rw [value_firstIn, value_firstIn, List.findSome?_append, List.findSome?_eq_none_iff.mpr h,
    Option.none_or]

theorem value_firstIn_cons_of_usable {config : Config} (farther : List String)
    (h : usableIn? workspace directory = some config) :
    (firstIn workspace (directory :: farther)).value = config := by
  rw [value_firstIn, List.findSome?_cons, h]
  rfl

theorem value_firstIn_cons_of_unusable (farther : List String)
    (h : usableIn? workspace directory = none) :
    (firstIn workspace (directory :: farther)).value = (firstIn workspace farther).value := by
  have hpassed : ∀ near ∈ [directory], usableIn? workspace near = none := by simpa using h
  exact value_firstIn_append farther hpassed

/-- The configuration of the nearest directory that holds a file, and the defaults if that file
cannot be used or there is none. -/
def nearestIn (workspace : Workspace) (directories : List String) : Config :=
  match directories.find? fun directory => HoldsFile workspace directory with
  | none => .default
  | some directory => (usableIn? workspace directory).getD .default

theorem nearestIn_of_nearest {nearer : List String} (farther : List String)
    (hnearer : ∀ near ∈ nearer, ¬ HoldsFile workspace near)
    (hholds : HoldsFile workspace directory) :
    nearestIn workspace (nearer ++ directory :: farther) =
      (usableIn? workspace directory).getD .default := by
  have hfind : (nearer ++ directory :: farther).find?
      (fun directory => HoldsFile workspace directory) = some directory := by
    rw [List.find?_append, List.find?_eq_none.mpr (by simpa using hnearer), Option.none_or]
    exact List.find?_cons_of_pos (by simpa using hholds)
  rw [nearestIn, hfind]

/-! ## The directories of a search -/

/-- What the search for a configuration finds.  A nearest file that can be used decides, whatever
stands farther away.  A nearest file that cannot be used leaves the decision to the directories
farther away, so the outcome is that of the nearest file exactly if nothing but the defaults is
found there. -/
theorem nearest_usable_decides (workspace : Workspace) (start : String) :
    (forDirectory workspace start).value =
        ((Path.ancestors maxDirectories start).findSome? (usableIn? workspace)).getD .default ∧
    ((∀ directory ∈ Path.ancestors maxDirectories start, ¬ HoldsFile workspace directory) →
      (forDirectory workspace start).value = .default) ∧
    ∀ nearer directory farther,
      Path.ancestors maxDirectories start = nearer ++ directory :: farther →
      (∀ near ∈ nearer, ¬ HoldsFile workspace near) → HoldsFile workspace directory →
        (∀ config, usableIn? workspace directory = some config →
          ∀ other : Workspace,
            (∀ near ∈ nearer ++ [directory], usableIn? other near = usableIn? workspace near) →
              (forDirectory other start).value = config) ∧
        (usableIn? workspace directory = none →
          (forDirectory workspace start).value = (firstIn workspace farther).value ∧
          ((forDirectory workspace start).value =
              nearestIn workspace (Path.ancestors maxDirectories start) ↔
            (firstIn workspace farther).value = .default)) := by
  refine ⟨value_firstIn _ _, fun hnone => ?_, ?_⟩
  · have hpassed : ∀ near ∈ Path.ancestors maxDirectories start, usableIn? workspace near = none :=
      fun near hnear => usableIn?_of_not_holdsFile (hnone near hnear)
    rw [forDirectory, ← List.append_nil (Path.ancestors maxDirectories start),
      value_firstIn_append [] hpassed]
    rfl
  · intro nearer directory farther hsplit hnearer hholds
    have hpassed : ∀ near ∈ nearer, usableIn? workspace near = none :=
      fun near hnear => usableIn?_of_not_holdsFile (hnearer near hnear)
    constructor
    · intro config hconfig other hagree
      have hother : ∀ near ∈ nearer, usableIn? other near = none := by
        intro near hnear
        rw [hagree near (List.mem_append_left _ hnear), hpassed near hnear]
      have hdirectory : usableIn? other directory = some config := by
        rw [hagree directory (by simp), hconfig]
      rw [forDirectory, hsplit, value_firstIn_append _ hother,
        value_firstIn_cons_of_usable _ hdirectory]
    · intro hunusable
      have hvalue : (forDirectory workspace start).value = (firstIn workspace farther).value := by
        rw [forDirectory, hsplit, value_firstIn_append _ hpassed,
          value_firstIn_cons_of_unusable _ hunusable]
      refine ⟨hvalue, ?_⟩
      rw [hvalue, hsplit, nearestIn_of_nearest farther hnearer hholds, hunusable]
      rfl

/-- A broken file next to the start does not bring the defaults: the file above it is used, although
the log says that defaults are. -/
theorem broken_nearest_passed_over :
    ¬ ∀ (workspace : Workspace) (start : String),
      (forDirectory workspace start).value =
        nearestIn workspace (Path.ancestors maxDirectories start) := by
  intro hall
  have hvalue := hall
    ⟨⟨[([".caplint.toml"], .file (.text "[unused_capture_list]\nenabled = false\n")),
      (["a"], .directory), (["a", ".caplint.toml"], .file (.text "not = [toml"))]⟩, []⟩ "a"
  revert hvalue
  decide +kernel

end CaptureLint.Config
