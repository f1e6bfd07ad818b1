import CaptureLint.Proofs.Failure.Results
import CaptureLint.Proofs.FileSystem.Writing
import Mathlib.Data.List.Basic

/-!
# The places of paths

Without links the place that a path leads to can be read off its components.  In such a tree the path
of an entry below a directory has the components of the directory and the names that lead from there
to the entry, and it leads to that entry.
-/

namespace CaptureLint

/-- A name that stands for an entry of a directory is a component of a path. -/
theorem Workspace.IsName.componentOf?_toList {name : String} (h : Workspace.IsName name) :
    Path.componentOf? name.toList = some (.name name.toList) := by
  have hstay : ¬ (name.toList = [] ∨ name.toList = ['.']) := by
    rintro (hempty | hpoint)
    · exact h.not_stay (.inl (String.toList_inj.mp hempty))
    · exact h.not_stay (.inr (String.toList_inj.mp hpoint))
  have hup : name.toList ≠ ['.', '.'] := fun hpoints => h.not_up (String.toList_inj.mp hpoints)
  rw [Path.componentOf?, if_neg hstay, if_neg hup]

/-- A name that an entry of a directory can have: one part of a path, and not one that stays or goes
up. -/
structure EntryName (name : String) : Prop extends Workspace.IsName name where
  no_slash : '/' ∉ name.toList
  no_nul : '\x00' ∉ name.toList

instance (name : String) : Decidable (EntryName name) :=
  decidable_of_iff
    ((¬ (name = "" ∨ name = ".") ∧ name ≠ ".." ∧ ¬ Workspace.maxNameBytes < name.utf8ByteSize) ∧
      '/' ∉ name.toList ∧ '\x00' ∉ name.toList)
    ⟨fun ⟨⟨hstay, hup, hlength⟩, hslash, hnul⟩ => ⟨⟨hstay, hup, hlength⟩, hslash, hnul⟩,
      fun h => ⟨⟨h.not_stay, h.not_up, h.length⟩, h.no_slash, h.no_nul⟩⟩

theorem EntryName.isAbsolute_eq_false {name : String} (h : EntryName name) :
    Path.isAbsolute name = false := by
  rw [Path.isAbsolute, beq_eq_false_iff_ne]
  intro hhead
  exact h.no_slash (List.mem_of_mem_head? hhead)

namespace Path

variable {directory name path : String} {names : List String}

/-! ## Parts and components -/

/-- The component that the first part of a path makes; an empty one stands before the slash that makes
the path absolute. -/
def firstComponent? (part : List Char) : Option Component :=
  if part = [] then some .root else if part = ['.'] then some .current else componentOf? part

def componentsOf : List (List Char) → List Component
  | [] => []
  | first :: rest => (firstComponent? first).toList ++ rest.filterMap componentOf?

theorem componentsOf_concat {front : List (List Char)} (h : front ≠ []) (last : List Char) :
    componentsOf (front ++ [last]) = componentsOf front ++ (componentOf? last).toList := by
  obtain ⟨first, rest, rfl⟩ := List.exists_cons_of_ne_nil h
  rw [List.cons_append, componentsOf, componentsOf, List.filterMap_append, List.append_assoc]
  cases hlast : componentOf? last <;> simp [hlast]

/-- The first part is empty exactly if the path is absolute, or there is nothing else. -/
theorem parts_cases (h : path ≠ "") :
    ∃ first rest, parts path = first :: rest ∧
      ((first = [] ∧ rest ≠ [] ∧ isAbsolute path = true) ∨
        first ≠ [] ∧ isAbsolute path = false) := by
  cases hchars : path.toList with
  | nil => exact absurd (String.toList_inj.mp hchars) h
  | cons c chars =>
      unfold parts isAbsolute
      rw [hchars, Text.split]
      by_cases hslash : c = '/'
      · rw [if_pos hslash]
        exact ⟨_, _, rfl, .inl ⟨rfl, Text.split_ne_nil _ _, by simp [hslash]⟩⟩
      · rw [if_neg hslash]
        cases hsplit : Text.split '/' chars with
        | nil => exact absurd hsplit (Text.split_ne_nil _ _)
        | cons part rest =>
            exact ⟨c :: part, rest, rfl, .inr ⟨List.cons_ne_nil c part, by simpa using hslash⟩⟩

theorem components_eq_componentsOf (h : path ≠ "") : components path = componentsOf (parts path) := by
  obtain ⟨first, rest, hparts, ⟨rfl, hrest, -⟩ | ⟨hfirst, -⟩⟩ := parts_cases h
  · rw [components, hparts, componentsOf]
    simp [hrest, firstComponent?]
  · rw [components, hparts, componentsOf, firstComponent?, if_neg hfirst]
    split
    next heq => exact absurd (List.cons.inj heq).1 hfirst
    next heq =>
      obtain ⟨rfl, rfl⟩ := List.cons.inj heq
      rfl
    next hpoint =>
      have hne : first ≠ ['.'] := fun heq => hpoint rest (heq ▸ rfl)
      rw [if_neg hne, List.filterMap_cons]
      cases componentOf? first <;> rfl

theorem toList_join (h : directory ≠ "") (hname : EntryName name) :
    ∃ front, (join directory name).toList = front ++ '/' :: name.toList ∧
      (directory.toList = front ++ ['/'] ∨ directory.toList = front) := by
  have hempty : directory.isEmpty = false := by simpa using h
  rw [join, hname.isAbsolute_eq_false, hempty, Bool.or_false, if_neg Bool.false_ne_true]
  split
  next hslash =>
    obtain ⟨front, hfront⟩ : ∃ front, directory.toList = front ++ ['/'] :=
      List.getLast?_eq_some_iff.mp (beq_iff_eq.mp hslash)
    exact ⟨front, by simp [hfront], .inl hfront⟩
  next => exact ⟨directory.toList, by simp, .inr rfl⟩

theorem join_ne (h : directory ≠ "") (hname : EntryName name) : join directory name ≠ "" := by
  obtain ⟨front, hjoined, -⟩ := toList_join h hname
  intro hempty
  rw [hempty] at hjoined
  simp at hjoined

theorem isAbsolute_join (h : directory ≠ "") (hname : EntryName name) :
    isAbsolute (join directory name) = isAbsolute directory := by
  obtain ⟨front, hjoined, hfront⟩ := toList_join h hname
  have hchars : directory.toList ≠ [] := fun hnil => h (String.toList_inj.mp hnil)
  rw [isAbsolute, isAbsolute, hjoined]
  rcases hfront with hfront | hfront <;> rw [hfront] at hchars ⊢
  · cases front <;> rfl
  · cases front with
    | nil => exact absurd rfl hchars
    | cons c front => rfl

theorem parts_join (h : directory ≠ "") (hname : EntryName name) :
    ∃ front, front ≠ [] ∧ parts (join directory name) = front ++ [name.toList] ∧
      (parts directory = front ++ [[]] ∨ parts directory = front) := by
  obtain ⟨front, hjoined, hfront⟩ := toList_join h hname
  refine ⟨Text.split '/' front, Text.split_ne_nil _ _, ?_, hfront.imp (fun hfront => ?_) ?_⟩
  · rw [parts, hjoined, Text.split_append_cons, Text.split_of_not_mem hname.no_slash]
  · rw [parts, hfront, Text.split_append_cons]
    rfl
  · exact congrArg (Text.split '/')

theorem components_join (h : directory ≠ "") (hname : EntryName name) :
    components (join directory name) = components directory ++ [.name name.toList] := by
  obtain ⟨front, hfront, hjoined, hparts⟩ := parts_join h hname
  rw [components_eq_componentsOf (join_ne h hname), components_eq_componentsOf h, hjoined,
    componentsOf_concat hfront, hname.toIsName.componentOf?_toList]
  rcases hparts with hparts | hparts
  · rw [hparts, componentsOf_concat hfront]
    simp [componentOf?]
  · rw [hparts]
    rfl

def namesOf (names : List String) : List Component := names.map fun name => .name name.toList

theorem namesOf_append (names names' : List String) :
    namesOf (names ++ names') = namesOf names ++ namesOf names' :=
  List.map_append

theorem components_descend (h : directory ≠ "") (hnames : ∀ name ∈ names, EntryName name) :
    components (descend directory names) = components directory ++ namesOf names := by
  induction names generalizing directory with
  | nil => exact (List.append_nil _).symm
  | cons name names ih =>
      have hname := hnames name List.mem_cons_self
      show components (descend (join directory name) names) = _
      rw [ih (join_ne h hname) fun other hother => hnames other (List.mem_cons_of_mem name hother),
        components_join h hname, List.append_assoc]
      rfl

end Path

namespace Workspace

variable {workspace : Workspace} {files : FileSystem} {place here there : Place} {path : String}
  {entry : Entry}

/-! ## Following components -/

def lead (here : Place) : Path.Component → Place
  | .root => []
  | .current => here
  | .parent => here.dropLast
  | .name text => here ++ [String.ofList text]

def placeOf (workspace : Workspace) (path : String) : Place :=
  (Path.components path).foldl lead workspace.current

theorem foldl_lead_namesOf (names : List String) :
    (Path.namesOf names).foldl lead here = here ++ names := by
  induction names generalizing here with
  | nil => exact (List.append_nil _).symm
  | cons name names ih =>
      show (Path.namesOf names).foldl lead (here ++ [String.ofList name.toList]) = _
      rw [ih, String.ofList_toList, List.append_assoc, List.singleton_append]

theorem StepsTo.eq_lead {part : List Char} (h : StepsTo files here (String.ofList part) there) :
    there = (Path.componentOf? part).toList.foldl lead here := by
  generalize hname : String.ofList part = name at h
  obtain rfl : part = name.toList := by rw [← hname, String.toList_ofList]
  cases h with
  | stay hstay =>
      rcases hstay with rfl | rfl <;> rfl
  | up => rfl
  | down hname _ =>
      rw [hname.componentOf?_toList]
      show _ = here ++ [String.ofList name.toList]
      rw [String.ofList_toList]

theorem place_of_follow {parts : List (List Char)}
    (h : follow files here (parts.map String.ofList) = .ok there) :
    there = (parts.filterMap Path.componentOf?).foldl lead here := by
  induction parts generalizing here with
  | nil =>
      cases h
      rfl
  | cons part parts ih =>
      obtain ⟨-, next, hstep, hnext⟩ := follow_cons_eq_ok_iff.mp h
      rw [ih hnext, hstep.eq_lead, List.filterMap_cons]
      cases Path.componentOf? part <;> rfl

def origin (workspace : Workspace) (path : String) : Place :=
  if Path.isAbsolute path then [] else workspace.current

theorem locate_eq_ok_iff : workspace.locate path = .ok (place, entry) ↔
    path ≠ "" ∧ '\x00' ∉ path.toList ∧
      follow workspace.files (workspace.origin path) ((Path.parts path).map String.ofList) =
        .ok place ∧
      workspace.files.entry? place = some entry := by
  by_cases hpath : path = ""
  · simp [locate, start, hpath, bind, Except.bind]
  by_cases hnul : '\x00' ∈ path.toList
  · simp [locate, start, hpath, hnul, bind, Except.bind]
  have hstart : workspace.start path =
      .ok (workspace.origin path, (Path.parts path).map String.ofList) := by
    simp [start, origin, hpath, hnul]
  constructor
  · intro h
    obtain ⟨started, hstarted, h⟩ := Except.bind_eq_ok_iff.mp h
    cases hstart.symm.trans hstarted
    obtain ⟨found, hfollow, hentry⟩ := Except.bind_eq_ok_iff.mp h
    split at hentry
    next hfound =>
      cases hentry
      exact ⟨hpath, hnul, hfollow, hfound⟩
    · cases hentry
  · rintro ⟨-, -, hfollow, hentry⟩
    exact locate_of_follow hstart hfollow hentry

theorem place_of_locate (h : workspace.locate path = .ok (place, entry)) :
    place = workspace.placeOf path := by
  obtain ⟨hpath, -, hfollow, -⟩ := locate_eq_ok_iff.mp h
  obtain ⟨first, rest, hparts, hfirst⟩ := Path.parts_cases hpath
  rw [place_of_follow hfollow, placeOf, Path.components_eq_componentsOf hpath, hparts, origin,
    Path.componentsOf, Path.firstComponent?]
  rcases hfirst with ⟨rfl, -, habsolute⟩ | ⟨hfirst, hrelative⟩
  · rw [habsolute]
    rfl
  · rw [hrelative, if_neg hfirst, if_neg Bool.false_ne_true]
    by_cases hpoint : first = ['.']
    · rw [hpoint]
      rfl
    · rw [if_neg hpoint, List.filterMap_cons]
      cases Path.componentOf? first <;> rfl

/-- A path that leads to a place where something is. -/
def Denotes (workspace : Workspace) (path : String) (place : Place) : Prop :=
  ∃ entry, workspace.locate path = .ok (place, entry)

theorem Denotes.eq_placeOf (h : workspace.Denotes path place) :
    place = workspace.placeOf path := by
  obtain ⟨entry, h⟩ := h
  exact place_of_locate h

theorem Denotes.unique {place' : Place} (h : workspace.Denotes path place)
    (h' : workspace.Denotes path place') : place = place' := by
  obtain ⟨entry, h⟩ := h
  obtain ⟨entry', h'⟩ := h'
  cases h.symm.trans h'
  rfl

/-! ## Going down -/

theorem locate_join {directory name : String}
    (h : workspace.locate directory = .ok (place, .directory)) (hname : EntryName name)
    (hentry : workspace.files.entry? (place ++ [name]) = some entry) :
    workspace.locate (Path.join directory name) = .ok (place ++ [name], entry) := by
  obtain ⟨hdirectory, hnul, hfollow, hplace⟩ := locate_eq_ok_iff.mp h
  obtain ⟨front, hfront, hjoined, hparts⟩ := Path.parts_join hdirectory hname
  have hthere : follow workspace.files (workspace.origin directory) (front.map String.ofList) =
      .ok place := by
    rcases hparts with hparts | hparts <;> rw [hparts] at hfollow
    · rw [List.map_append] at hfollow
      obtain ⟨middle, hmiddle, hlast⟩ := follow_append_eq_ok_iff.mp hfollow
      have hstay : follow workspace.files middle ([[]].map String.ofList) = .ok place := hlast
      rw [hmiddle, place_of_follow hstay]
      rfl
    · exact hfollow
  have hdown : follow workspace.files place [name] = .ok (place ++ [name]) := by
    refine follow_cons_eq_ok_iff.mpr ⟨hplace, _, .down hname.toIsName ?_, rfl⟩
    rw [hentry]
    exact Option.some_ne_none _
  refine locate_eq_ok_iff.mpr ⟨Path.join_ne hdirectory hname, ?_, ?_, hentry⟩
  · obtain ⟨lead, hjoined, hlead⟩ := Path.toList_join hdirectory hname
    have hfree : '\x00' ∉ lead := by
      rcases hlead with hlead | hlead <;> rw [hlead] at hnul
      · exact fun hmem => hnul (List.mem_append_left _ hmem)
      · exact hnul
    simp [hjoined, hfree, hname.no_nul]
  · rw [origin, Path.isAbsolute_join hdirectory hname, ← origin, hjoined, List.map_append]
    exact follow_append_eq_ok_iff.mpr ⟨place, hthere, by simpa using hdown⟩

end Workspace

namespace FileSystem

variable {files : FileSystem} {place : Place} {names : List String} {entry : Entry}

/-- A tree of files and directories: every entry has names that can stand in a path, is the one entry
at its place, and stands in directories. -/
structure IsTree (files : FileSystem) : Prop where
  named : ∀ found ∈ files.entries, ∀ name ∈ found.1, EntryName name
  single : ∀ found ∈ files.entries, files.entry? found.1 = some found.2
  rooted : ∀ found ∈ files.entries, ∀ count < found.1.length,
    files.entry? (found.1.take count) = some .directory

instance (files : FileSystem) : Decidable files.IsTree :=
  decidable_of_iff
    ((∀ found ∈ files.entries, ∀ name ∈ found.1, EntryName name) ∧
      (∀ found ∈ files.entries, files.entry? found.1 = some found.2) ∧
      ∀ found ∈ files.entries, ∀ count < found.1.length,
        files.entry? (found.1.take count) = some .directory)
    ⟨fun ⟨hnamed, hsingle, hrooted⟩ => ⟨hnamed, hsingle, hrooted⟩,
      fun h => ⟨h.named, h.single, h.rooted⟩⟩

end FileSystem

namespace Workspace

variable {workspace : Workspace} {place : Place} {entry : Entry} {names : List String}

theorem locate_descend (htree : workspace.files.IsTree) {directory : String}
    (h : workspace.locate directory = .ok (place, .directory))
    (hmem : (place ++ names, entry) ∈ workspace.files.entries) (hbelow : names ≠ []) :
    workspace.locate (Path.descend directory names) = .ok (place ++ names, entry) := by
  induction names generalizing directory place with
  | nil => exact absurd rfl hbelow
  | cons name names ih =>
      have hname := htree.named _ hmem name (by simp)
      show workspace.locate (Path.descend (Path.join directory name) names) = _
      rw [← List.singleton_append, ← List.append_assoc] at hmem ⊢
      cases names with
      | nil =>
          rw [List.append_nil] at hmem ⊢
          exact locate_join h hname (htree.single _ hmem)
      | cons next names =>
          have hdirectory := htree.rooted _ hmem (place ++ [name]).length (by simp)
          rw [List.take_left] at hdirectory
          exact ih (locate_join h hname hdirectory) hmem (List.cons_ne_nil next names)

end Workspace

end CaptureLint
