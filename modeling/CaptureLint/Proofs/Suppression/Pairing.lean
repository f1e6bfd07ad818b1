import CaptureLint.Suppression.Table

/-!
# Pairing starts and ends of blocks

`Pairing` says which end closes which start, by places in the list of directives and without a
stack.  The reader keeps a stack of open blocks; `Tracked` relates it to the places where these
blocks start, and one directive keeps the relation.
-/

namespace CaptureLint.Suppression

variable {directives : List (Nat × Directive)} {closes : Nat → Nat → Prop} {place start stop : Nat}

/-! ## Places -/

/-- The block that starts at a place of the list, as long as nothing closes it. -/
def startAt? (directives : List (Nat × Directive)) (place : Nat) : Option Block :=
  match directives[place]? with
  | some (line, .ignore .block terms) => some ⟨line, none, terms⟩
  | _ => none

def endAt? (directives : List (Nat × Directive)) (place : Nat) : Option Nat :=
  match directives[place]? with
  | some (line, .endBlock) => some line
  | _ => none

def blockAt? (directives : List (Nat × Directive)) (start stop : Nat) : Option Block := do
  let block ← startAt? directives start
  let line ← endAt? directives stop
  some { block with endLine := some line }

/-- An end may close a start when the start comes first, nothing before the end closes it, and
everything started in between has been closed. -/
structure Closes (directives : List (Nat × Directive)) (closes : Nat → Nat → Prop)
    (start stop : Nat) : Prop where
  lt : start < stop
  starts : (startAt? directives start).isSome
  ends : (endAt? directives stop).isSome
  still_open : ∀ earlier < stop, ¬ closes start earlier
  most_recent : ∀ later, start < later → later < stop → (startAt? directives later).isSome →
    ∃ earlier < stop, closes later earlier

/-- Every end closes the most recent start that is still open there, if there is one. -/
def Pairing (directives : List (Nat × Directive)) (closes : Nat → Nat → Prop) : Prop :=
  ∀ start stop, closes start stop ↔ Closes directives closes start stop

theorem Closes.congr {closes' : Nat → Nat → Prop} (h : Closes directives closes start stop)
    (heq : ∀ start, ∀ earlier < stop, closes start earlier ↔ closes' start earlier) :
    Closes directives closes' start stop where
  lt := h.lt
  starts := h.starts
  ends := h.ends
  still_open earlier hlt hcloses := h.still_open earlier hlt ((heq start earlier hlt).mpr hcloses)
  most_recent later hafter hbefore hstarts := by
    obtain ⟨earlier, hlt, hcloses⟩ := h.most_recent later hafter hbefore hstarts
    exact ⟨earlier, hlt, (heq later earlier hlt).mp hcloses⟩

theorem closes_congr_iff {closes' : Nat → Nat → Prop}
    (heq : ∀ start, ∀ earlier < stop, closes start earlier ↔ closes' start earlier) :
    Closes directives closes start stop ↔ Closes directives closes' start stop :=
  ⟨fun h => h.congr heq, fun h => h.congr fun start earlier hlt => (heq start earlier hlt).symm⟩

/-- There is only one way to pair starts and ends. -/
theorem Pairing.unique {closes' : Nat → Nat → Prop} (h : Pairing directives closes)
    (h' : Pairing directives closes') : closes = closes' := by
  have heq : ∀ stop start, closes start stop ↔ closes' start stop := by
    intro stop
    induction stop using Nat.strongRecOn with
    | ind stop ih =>
        intro start
        rw [h start stop, h' start stop]
        exact closes_congr_iff fun start earlier hlt => ih earlier hlt start
  funext start stop
  exact propext (heq stop start)

theorem Pairing.stop_unique {stop' : Nat} (h : Pairing directives closes) (hs : closes start stop)
    (hs' : closes start stop') : stop = stop' := by
  have hopen := ((h start stop).mp hs).still_open stop'
  have hopen' := ((h start stop').mp hs').still_open stop
  rcases Nat.lt_trichotomy stop stop' with hlt | heq | hgt
  · exact absurd hs (hopen' hlt)
  · exact heq
  · exact absurd hs' (hopen hgt)

/-! ## One more directive -/

theorem lt_of_startAt? {block : Block} (h : startAt? directives place = some block) :
    place < directives.length := by
  apply Classical.byContradiction
  intro hge
  rw [startAt?, List.getElem?_eq_none (Nat.le_of_not_lt hge)] at h
  cases h

theorem lt_of_endAt? {line : Nat} (h : endAt? directives place = some line) :
    place < directives.length := by
  apply Classical.byContradiction
  intro hge
  rw [endAt?, List.getElem?_eq_none (Nat.le_of_not_lt hge)] at h
  cases h

theorem startAt?_concat (h : place < directives.length) (directive : Nat × Directive) :
    startAt? (directives ++ [directive]) place = startAt? directives place := by
  simp only [startAt?, List.getElem?_append_left h]

theorem endAt?_concat (h : place < directives.length) (directive : Nat × Directive) :
    endAt? (directives ++ [directive]) place = endAt? directives place := by
  simp only [endAt?, List.getElem?_append_left h]

theorem startAt?_length (line : Nat) (directive : Directive) :
    startAt? (directives ++ [(line, directive)]) directives.length =
      match directive with
      | .ignore .block terms => some ⟨line, none, terms⟩
      | _ => none := by
  rw [startAt?, List.getElem?_concat_length]
  rcases directive with ⟨_ | _ | _, _⟩ | _ <;> rfl

theorem endAt?_length (line : Nat) (directive : Directive) :
    endAt? (directives ++ [(line, directive)]) directives.length =
      match directive with
      | .endBlock => some line
      | _ => none := by
  rw [endAt?, List.getElem?_concat_length]
  rcases directive with ⟨_ | _ | _, _⟩ | _ <;> rfl

/-- What stands further on does not matter. -/
theorem closes_concat_iff (h : stop < directives.length) (directive : Nat × Directive) :
    Closes (directives ++ [directive]) closes start stop ↔ Closes directives closes start stop := by
  have hplace : ∀ {place}, place < stop →
      startAt? (directives ++ [directive]) place = startAt? directives place :=
    fun hlt => startAt?_concat (Nat.lt_trans hlt h) directive
  constructor
  · intro hcloses
    refine ⟨hcloses.lt, ?_, ?_, hcloses.still_open, ?_⟩
    · rw [← hplace hcloses.lt]
      exact hcloses.starts
    · rw [← endAt?_concat h directive]
      exact hcloses.ends
    · intro later hafter hlt hstarts
      rw [← hplace hlt] at hstarts
      exact hcloses.most_recent later hafter hlt hstarts
  · intro hcloses
    refine ⟨hcloses.lt, ?_, ?_, hcloses.still_open, ?_⟩
    · rw [hplace hcloses.lt]
      exact hcloses.starts
    · rw [endAt?_concat h]
      exact hcloses.ends
    · intro later hafter hlt hstarts
      rw [hplace hlt] at hstarts
      exact hcloses.most_recent later hafter hlt hstarts

theorem Closes.stop_lt (h : Closes directives closes start stop) : stop < directives.length := by
  obtain ⟨line, hline⟩ := Option.isSome_iff_exists.mp h.ends
  exact lt_of_endAt? hline

/-- What a further directive adds to a pairing are the pairs that end with it. -/
theorem Pairing.concat {closes' : Nat → Nat → Prop} (h : Pairing directives closes)
    (directive : Nat × Directive)
    (hsame : ∀ start stop, stop ≠ directives.length → (closes' start stop ↔ closes start stop))
    (hnew : ∀ start, closes' start directives.length ↔
      Closes (directives ++ [directive]) closes start directives.length) :
    Pairing (directives ++ [directive]) closes' := by
  intro start stop
  have hbefore : stop ≤ directives.length → ∀ start, ∀ earlier < stop,
      closes start earlier ↔ closes' start earlier := by
    intro hle start earlier hlt
    exact (hsame start earlier (by omega)).symm
  rcases Nat.lt_trichotomy stop directives.length with hlt | rfl | hgt
  · rw [hsame start stop (by omega), h start stop, ← closes_concat_iff hlt directive]
    exact closes_congr_iff (hbefore (by omega))
  · rw [hnew start]
    exact closes_congr_iff (hbefore (Nat.le_refl _))
  · -- no directive stands there
    rw [hsame start stop (by omega), h start stop]
    constructor
    · intro hcloses
      have hlt := hcloses.stop_lt
      omega
    · intro hcloses
      have hlt := hcloses.stop_lt
      rw [List.length_append, List.length_singleton] at hlt
      omega

/-! ## The reader -/

/-- A reading of some directives: the places where its open blocks start, newest first, and the
places of the two ends of its closed blocks. -/
structure Tracked (directives : List (Nat × Directive)) (reading : Reading) (opened : List Nat)
    (closed : List (Nat × Nat)) : Prop where
  pairing : Pairing directives fun start stop => (start, stop) ∈ closed
  descending : opened.Pairwise fun later earlier => earlier < later
  mem_opened : ∀ place, place ∈ opened ↔
    (startAt? directives place).isSome ∧ ∀ stop, (place, stop) ∉ closed
  stops : closed.Pairwise fun later earlier => earlier.2 < later.2
  opened_eq : opened.map (startAt? directives) = reading.opened.map some
  closed_eq : closed.map (fun pair => blockAt? directives pair.1 pair.2) = reading.closed.map some

namespace Tracked

variable {reading : Reading} {opened : List Nat} {closed : List (Nat × Nat)} {line : Nat}

theorem lt_of_mem_opened (h : Tracked directives reading opened closed) (hplace : place ∈ opened) :
    place < directives.length := by
  obtain ⟨block, hblock⟩ := Option.isSome_iff_exists.mp ((h.mem_opened place).mp hplace).1
  exact lt_of_startAt? hblock

theorem lt_of_mem_closed (h : Tracked directives reading opened closed)
    (hpair : (start, stop) ∈ closed) : start < stop ∧ stop < directives.length := by
  have hcloses := (h.pairing start stop).mp hpair
  exact ⟨hcloses.lt, hcloses.stop_lt⟩

theorem le_of_head? (h : Tracked directives reading opened closed) (hhead : opened.head? = some start)
    (hplace : place ∈ opened) : place ≤ start := by
  obtain ⟨older, rfl⟩ := List.head?_eq_some_iff.mp hhead
  rcases List.mem_cons.mp hplace with rfl | hmem
  · exact Nat.le_refl _
  · exact Nat.le_of_lt ((List.pairwise_cons.mp h.descending).1 place hmem)

/-- The next place is closed, if it is an end, by the newest of the open starts. -/
theorem closes_length_iff (h : Tracked directives reading opened closed) (directive : Directive) :
    Closes (directives ++ [(line, directive)]) (fun start stop => (start, stop) ∈ closed) start
        directives.length ↔
      directive = .endBlock ∧ opened.head? = some start := by
  have hclosed : ∀ {place stop}, (place, stop) ∈ closed → stop < directives.length :=
    fun hpair => (h.lt_of_mem_closed hpair).2
  have hends : (endAt? (directives ++ [(line, directive)]) directives.length).isSome ↔
      directive = .endBlock := by
    rw [endAt?_length]
    rcases directive with ⟨_ | _ | _, _⟩ | _ <;> simp
  constructor
  · intro hcloses
    have hstart : start ∈ opened := by
      rw [h.mem_opened, ← startAt?_concat hcloses.lt (line, directive)]
      exact ⟨hcloses.starts, fun stop hpair => hcloses.still_open stop (hclosed hpair) hpair⟩
    refine ⟨hends.mp hcloses.ends, ?_⟩
    have hsome : opened.head?.isSome := List.isSome_head?.mpr (List.ne_nil_of_mem hstart)
    obtain ⟨newest, hhead⟩ := Option.isSome_iff_exists.mp hsome
    rcases Nat.eq_or_lt_of_le (h.le_of_head? hhead hstart) with rfl | hlt
    · exact hhead
    · -- the newest open start would have to be closed
      have hnewest : newest ∈ opened := List.mem_of_head? hhead
      have hin := h.lt_of_mem_opened hnewest
      obtain ⟨hstarts, hopen⟩ := (h.mem_opened newest).mp hnewest
      rw [← startAt?_concat hin (line, directive)] at hstarts
      obtain ⟨earlier, -, hpair⟩ := hcloses.most_recent newest hlt hin hstarts
      exact absurd hpair (hopen earlier)
  · rintro ⟨hend, hhead⟩
    have hstart : start ∈ opened := List.mem_of_head? hhead
    have hlt := h.lt_of_mem_opened hstart
    obtain ⟨hstarts, hopen⟩ := (h.mem_opened start).mp hstart
    refine ⟨hlt, ?_, hends.mpr hend, fun earlier _ => hopen earlier, ?_⟩
    · rw [startAt?_concat hlt]
      exact hstarts
    · intro later hafter hin hlater
      rw [startAt?_concat hin] at hlater
      apply Classical.byContradiction
      intro hnone
      have hmem : later ∈ opened := (h.mem_opened later).mpr
        ⟨hlater, fun stop hpair => hnone ⟨stop, hclosed hpair, hpair⟩⟩
      have hle := h.le_of_head? hhead hmem
      omega

theorem opened_eq_concat (h : Tracked directives reading opened closed)
    (directive : Nat × Directive) :
    opened.map (startAt? (directives ++ [directive])) = reading.opened.map some := by
  rw [← h.opened_eq]
  exact List.map_congr_left fun place hplace => startAt?_concat (h.lt_of_mem_opened hplace) directive

theorem closed_eq_concat (h : Tracked directives reading opened closed)
    (directive : Nat × Directive) :
    closed.map (fun pair => blockAt? (directives ++ [directive]) pair.1 pair.2) =
      reading.closed.map some := by
  rw [← h.closed_eq]
  refine List.map_congr_left fun pair hpair => ?_
  obtain ⟨hlt, hin⟩ := h.lt_of_mem_closed hpair
  rw [blockAt?, blockAt?, startAt?_concat (Nat.lt_trans hlt hin), endAt?_concat hin]

theorem pairing_skip (h : Tracked directives reading opened closed) {directive : Directive}
    (hskip : directive = .endBlock → opened = []) :
    Pairing (directives ++ [(line, directive)]) fun start stop => (start, stop) ∈ closed := by
  refine h.pairing.concat _ (fun _ _ _ => Iff.rfl) fun start => ?_
  rw [h.closes_length_iff]
  constructor
  · intro hpair
    have hlt := (h.lt_of_mem_closed hpair).2
    omega
  · rintro ⟨hend, hhead⟩
    rw [hskip hend] at hhead
    cases hhead

theorem startAt?_isSome_concat_iff (line : Nat) (directive : Directive) :
    (startAt? (directives ++ [(line, directive)]) place).isSome ↔
      (startAt? directives place).isSome ∨
        place = directives.length ∧ ∃ terms, directive = .ignore .block terms := by
  rcases Nat.lt_trichotomy place directives.length with hlt | rfl | hgt
  · rw [startAt?_concat hlt]
    simp [Nat.ne_of_lt hlt]
  · have hnone : startAt? directives directives.length = none := by
      rw [startAt?, List.getElem?_eq_none (Nat.le_refl _)]
    rw [startAt?_length, hnone]
    rcases directive with ⟨_ | _ | _, _⟩ | _ <;> simp
  · have hnone : ∀ {directives : List (Nat × Directive)}, directives.length ≤ place →
        startAt? directives place = none := by
      intro directives hle
      rw [startAt?, List.getElem?_eq_none hle]
    rw [hnone (Nat.le_of_lt hgt), hnone (by rw [List.length_append, List.length_singleton]; omega)]
    simp
    omega

theorem take_start (h : Tracked directives reading opened closed) (line : Nat) (terms : Terms) :
    Tracked (directives ++ [(line, .ignore .block terms)])
      (reading.take line (.ignore .block terms)) (directives.length :: opened) closed where
  pairing := h.pairing_skip (by simp)
  descending := List.pairwise_cons.mpr ⟨fun place hplace => h.lt_of_mem_opened hplace, h.descending⟩
  mem_opened place := by
    rw [List.mem_cons, h.mem_opened, startAt?_isSome_concat_iff]
    constructor
    · rintro (rfl | ⟨hstarts, hopen⟩)
      · refine ⟨.inr ⟨rfl, terms, rfl⟩, fun stop hpair => ?_⟩
        have hlt := h.lt_of_mem_closed hpair
        omega
      · exact ⟨.inl hstarts, hopen⟩
    · rintro ⟨hstarts | ⟨rfl, -⟩, hopen⟩
      · exact .inr ⟨hstarts, hopen⟩
      · exact .inl rfl
  stops := h.stops
  opened_eq := by
    rw [List.map_cons, h.opened_eq_concat, startAt?_length]
    rfl
  closed_eq := h.closed_eq_concat _

theorem take_skip (h : Tracked directives reading opened closed) {directive : Directive}
    {marks : List LineMark} (hstart : ∀ terms, directive ≠ .ignore .block terms)
    (hskip : directive = .endBlock → opened = []) :
    Tracked (directives ++ [(line, directive)]) { reading with marks } opened closed where
  pairing := h.pairing_skip hskip
  descending := h.descending
  mem_opened place := by
    rw [h.mem_opened, startAt?_isSome_concat_iff]
    simp [hstart]
  stops := h.stops
  opened_eq := h.opened_eq_concat _
  closed_eq := h.closed_eq_concat _

theorem take_end {block : Block} {blocks : List Block} {newest : Nat} {older : List Nat}
    (h : Tracked directives reading (newest :: older) closed)
    (hblocks : reading.opened = block :: blocks) (line : Nat) :
    Tracked (directives ++ [(line, .endBlock)])
      { reading with
        opened := blocks
        closed := { block with endLine := some line } :: reading.closed }
      older ((newest, directives.length) :: closed) := by
  obtain ⟨hlater, hdescending⟩ := List.pairwise_cons.mp h.descending
  have hnewest := h.lt_of_mem_opened List.mem_cons_self
  have hopened := h.opened_eq_concat (line, .endBlock)
  rw [hblocks, List.map_cons, List.map_cons, List.cons.injEq] at hopened
  refine ⟨?_, hdescending, ?_, ?_, hopened.2, ?_⟩
  · refine h.pairing.concat _ ?_ fun start => ?_
    · intro start stop hne
      simp [hne]
    · rw [h.closes_length_iff, List.mem_cons, Prod.mk.injEq, List.head?_cons, Option.some.injEq]
      constructor
      · rintro (⟨rfl, -⟩ | hpair)
        · exact ⟨rfl, rfl⟩
        · have hlt := (h.lt_of_mem_closed hpair).2
          omega
      · rintro ⟨-, rfl⟩
        exact .inl ⟨rfl, rfl⟩
  · intro place
    have hmem := h.mem_opened place
    rw [List.mem_cons] at hmem
    rw [startAt?_isSome_concat_iff]
    constructor
    · intro hplace
      obtain ⟨hstarts, hopen⟩ := hmem.mp (.inr hplace)
      refine ⟨.inl hstarts, fun stop hpair => ?_⟩
      rcases List.mem_cons.mp hpair with heq | hpair
      · have hlt := hlater place hplace
        cases heq
        omega
      · exact hopen stop hpair
    · rintro ⟨hstarts, hopen⟩
      have hstarts := hstarts.resolve_right (by simp)
      have hplace := hmem.mpr ⟨hstarts, fun stop hpair => hopen stop (List.mem_cons_of_mem _ hpair)⟩
      refine hplace.resolve_left ?_
      rintro rfl
      exact hopen directives.length List.mem_cons_self
  · exact List.pairwise_cons.mpr ⟨fun pair hpair => (h.lt_of_mem_closed hpair).2, h.stops⟩
  · rw [List.map_cons, h.closed_eq_concat, blockAt?, hopened.1, endAt?_length]
    rfl

/-- One directive keeps the places. -/
theorem take (h : Tracked directives reading opened closed) (line : Nat) (directive : Directive) :
    ∃ opened closed,
      Tracked (directives ++ [(line, directive)]) (reading.take line directive) opened closed := by
  cases directive with
  | ignore extent terms =>
      cases extent with
      | block => exact ⟨_, _, h.take_start line terms⟩
      | sameLine => exact ⟨opened, closed, h.take_skip (by simp) (by simp)⟩
      | nextLine => exact ⟨opened, closed, h.take_skip (by simp) (by simp)⟩
  | endBlock =>
      have hlengths := congrArg List.length h.opened_eq
      rw [List.length_map, List.length_map] at hlengths
      unfold Reading.take
      cases hblocks : reading.opened with
      | nil =>
          rw [hblocks] at hlengths
          exact ⟨opened, closed, h.take_skip (by simp) fun _ => List.length_eq_zero_iff.mp hlengths⟩
      | cons block blocks =>
          cases opened with
          | nil => simp [hblocks] at hlengths
          | cons newest older => exact ⟨_, _, h.take_end hblocks line⟩

end Tracked

theorem Reading.takeAll_concat (reading : Reading) (directives : List (Nat × Directive))
    (line : Nat) (directive : Directive) :
    reading.takeAll (directives ++ [(line, directive)]) =
      (reading.takeAll directives).take line directive := by
  induction directives generalizing reading with
  | nil => rfl
  | cons first rest ih => exact ih (reading.take first.1 first.2)

/-- Reading pairs the starts and the ends. -/
theorem exists_tracked (directives : List (Nat × Directive)) :
    ∃ opened closed, Tracked directives (Reading.initial.takeAll directives) opened closed := by
  rw [← List.reverse_reverse directives]
  induction directives.reverse with
  | nil =>
      refine ⟨[], [], ?_, .nil, by simp [startAt?], .nil, rfl, rfl⟩
      intro start stop
      constructor
      · intro hpair
        cases hpair
      · intro hcloses
        exact absurd hcloses.stop_lt (Nat.not_lt_zero _)
  | cons directive directives ih =>
      obtain ⟨line, directive⟩ := directive
      obtain ⟨opened, closed, h⟩ := ih
      rw [List.reverse_cons, Reading.takeAll_concat]
      exact h.take line directive

end CaptureLint.Suppression
