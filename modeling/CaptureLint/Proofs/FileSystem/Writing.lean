import CaptureLint.FileSystem.Basic

/-!
# Writing to files

A text goes to the one place that its path leads to.  Nothing else changes there: no other place
gains, loses or changes an entry.  A file is never written over a directory, so every path that could
be followed before leads to the same place after, and the path that was written to is read back as
the text.
-/

namespace CaptureLint.FileSystem

variable {files : FileSystem} {place other : Place} {entry : Entry}

/-! ## Entries -/

theorem lookup_map_replace (entries : List (Place × Entry)) (place other : Place) (entry : Entry) :
    (entries.map fun found => if found.1 = place then (place, entry) else found).lookup other =
      if other = place then (entries.lookup place).map fun _ => entry else entries.lookup other := by
  induction entries with
  | nil => simp
  | cons found entries ih =>
      obtain ⟨key, old⟩ := found
      by_cases hkey : key = place
      · by_cases hother : other = place
        · simp [hkey, hother]
        · have hne : (other == place) = false := beq_eq_false_iff_ne.mpr hother
          simp [hkey, hother, List.lookup_cons, hne, ih]
      · by_cases hother : other = place
        · have hne : (place == key) = false := beq_eq_false_iff_ne.mpr (Ne.symm hkey)
          rw [if_pos hother] at ih ⊢
          rw [List.map_cons, if_neg hkey, hother, List.lookup_cons, List.lookup_cons, hne, ← hother]
          rw [hother] at ih ⊢
          exact ih
        · rw [if_neg hother] at ih ⊢
          rw [List.map_cons, if_neg hkey, List.lookup_cons, List.lookup_cons, ih]

theorem lookup_put (files : FileSystem) (place other : Place) (entry : Entry) :
    (files.put place entry).entries.lookup other =
      if other = place then some entry else files.entries.lookup other := by
  unfold put
  split
  next hfound =>
    rw [lookup_map_replace]
    obtain ⟨old, hold⟩ := Option.isSome_iff_exists.mp hfound
    rw [hold]
    rfl
  next hfound =>
    rw [Bool.not_eq_true, Option.isSome_eq_false_iff, Option.isNone_iff_eq_none] at hfound
    rw [List.lookup_append]
    by_cases hother : other = place
    · simp [hother, hfound]
    · have hne : (other == place) = false := beq_eq_false_iff_ne.mpr hother
      simp [hother, List.lookup_cons, hne]

theorem put_put (files : FileSystem) (place : Place) (first second : Entry) :
    (files.put place first).put place second = files.put place second := by
  have hthere : ((files.put place first).entries.lookup place).isSome = true := by
    rw [lookup_put, if_pos rfl]
    rfl
  rw [put, if_pos hthere]
  unfold put
  split
  next hfound =>
    simp only [List.map_map, FileSystem.mk.injEq]
    apply List.map_congr_left
    intro found _
    by_cases hplace : found.1 = place <;> simp [hplace]
  next hfound =>
    rw [Bool.not_eq_true, Option.isSome_eq_false_iff, Option.isNone_iff_eq_none,
      List.lookup_eq_none_iff] at hfound
    have hkept : files.entries.map (fun found =>
        if found.1 = place then (place, second) else found) = files.entries := by
      refine (List.map_congr_left ?_).trans (List.map_id files.entries)
      intro found hmem
      have hne : place ≠ found.1 := by simpa using hfound found hmem
      exact if_neg (Ne.symm hne)
    simp only [List.map_append, hkept]
    simp

end CaptureLint.FileSystem

namespace CaptureLint.Workspace

open FileSystem

variable {workspace : Workspace} {files : FileSystem} {place here there : Place}

/-! ## Following paths -/

/-- A part that is the name of a file or directory. -/
structure IsName (part : String) : Prop where
  not_stay : ¬ (part = "" ∨ part = ".")
  not_up : part ≠ ".."
  length : ¬ maxNameBytes < part.utf8ByteSize

inductive StepsTo (files : FileSystem) (here : Place) : String → Place → Prop where
  | stay {part : String} (h : part = "" ∨ part = ".") : StepsTo files here part here
  | up : StepsTo files here ".." here.dropLast
  | down {part : String} (hname : IsName part) (hthere : files.entry? (here ++ [part]) ≠ none) :
      StepsTo files here part (here ++ [part])

/-- A path is followed part by part, from directory to directory. -/
theorem follow_cons_eq_ok_iff {part : String} {parts : List String} :
    follow files here (part :: parts) = .ok there ↔
      files.entry? here = some .directory ∧
        ∃ next, StepsTo files here part next ∧ follow files next parts = .ok there := by
  constructor
  · intro h
    unfold follow at h
    split at h
    · cases h
    · cases h
    next hhere =>
      refine ⟨hhere, ?_⟩
      split at h
      next hstay => exact ⟨here, .stay hstay, h⟩
      split at h
      next hup => exact ⟨here.dropLast, hup ▸ .up, h⟩
      split at h
      · cases h
      next hstay hup hlength =>
        split at h
        · cases h
        next hthere =>
          rw [Option.isNone_iff_eq_none] at hthere
          exact ⟨here ++ [part], .down ⟨hstay, hup, hlength⟩ hthere, h⟩
  · rintro ⟨hhere, next, hstep, h⟩
    unfold follow
    rw [hhere]
    dsimp only
    cases hstep with
    | stay hstay => rwa [if_pos hstay]
    | up => exact h
    | down hname hthere =>
        rw [if_neg hname.not_stay, if_neg hname.not_up, if_neg hname.length, if_neg]
        · exact h
        · rwa [Option.isNone_iff_eq_none]

theorem follow_append_eq_ok_iff {front rest : List String} :
    follow files here (front ++ rest) = .ok there ↔
      ∃ middle, follow files here front = .ok middle ∧ follow files middle rest = .ok there := by
  induction front generalizing here with
  | nil =>
      constructor
      · exact fun h => ⟨here, rfl, h⟩
      · rintro ⟨middle, hmiddle, h⟩
        cases hmiddle
        exact h
  | cons part front ih =>
      constructor
      · intro h
        obtain ⟨hhere, next, hstep, hnext⟩ := follow_cons_eq_ok_iff.mp h
        obtain ⟨middle, hfront, hrest⟩ := ih.mp hnext
        exact ⟨middle, follow_cons_eq_ok_iff.mpr ⟨hhere, next, hstep, hfront⟩, hrest⟩
      · rintro ⟨middle, hfront, hrest⟩
        obtain ⟨hhere, next, hstep, hnext⟩ := follow_cons_eq_ok_iff.mp hfront
        exact follow_cons_eq_ok_iff.mpr ⟨hhere, next, hstep, ih.mpr ⟨middle, hnext, hrest⟩⟩

theorem locate_of_follow {path : String} {origin : Place} {parts : List String} {entry : Entry}
    (hstart : workspace.start path = .ok (origin, parts))
    (hfollow : follow workspace.files origin parts = .ok place)
    (hentry : workspace.files.entry? place = some entry) :
    workspace.locate path = .ok (place, entry) := by
  simp only [locate, hstart, bind, Except.bind, hfollow, hentry]

theorem fill_fill (workspace : Workspace) (place : Place) (first second : String) :
    (workspace.fill place first).fill place second = workspace.fill place second := by
  unfold fill
  rw [put_put]

end CaptureLint.Workspace
