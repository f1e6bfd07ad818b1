/-!
# Results that may be failures

When a computation gives a value: one that is mapped or followed by another one, and one for each of
the items of a list, where the first failure ends it.
-/

namespace Except

variable {ε α β : Type}

theorem map_eq_ok_iff {result : Except ε α} {value : β} {f : α → β} :
    result.map f = .ok value ↔ ∃ found, result = .ok found ∧ f found = value := by
  cases result <;> simp [Except.map]

theorem map_eq_error_iff {result : Except ε α} {failure : ε} {f : α → β} :
    result.map f = .error failure ↔ result = .error failure := by
  cases result <;> simp [Except.map]

theorem bind_eq_ok_iff {result : Except ε α} {value : β} {next : α → Except ε β} :
    result.bind next = .ok value ↔ ∃ found, result = .ok found ∧ next found = .ok value := by
  cases result <;> simp [Except.bind]

variable {f : α → Except ε β} {items : List α}

theorem mapM_fails_iff : (∃ failure, items.mapM f = .error failure) ↔
    ∃ item ∈ items, ∃ failure, f item = .error failure := by
  induction items with
  | nil => simp [pure, Except.pure]
  | cons item items ih =>
      rw [List.mapM_cons]
      cases hitem : f item with
      | error failure =>
          exact ⟨fun _ => ⟨item, List.mem_cons_self, failure, hitem⟩, fun _ => ⟨_, rfl⟩⟩
      | ok value =>
          have hfirst : ¬ ∃ failure, f item = .error failure := by
            rw [hitem]
            exact nofun
          simp only [List.mem_cons, exists_eq_or_imp, hfirst, false_or, ← ih]
          cases items.mapM f with
          | error failure => exact ⟨fun _ => ⟨_, rfl⟩, fun _ => ⟨_, rfl⟩⟩
          | ok values => exact ⟨nofun, nofun⟩

theorem mem_of_mapM_eq_ok {found : List β} (h : items.mapM f = .ok found) {value : β} :
    value ∈ found ↔ ∃ item ∈ items, f item = .ok value := by
  induction items generalizing found with
  | nil =>
      cases h
      simp
  | cons item items ih =>
      rw [List.mapM_cons] at h
      obtain ⟨first, hfirst, h⟩ := bind_eq_ok_iff.mp h
      obtain ⟨rest, hrest, h⟩ := bind_eq_ok_iff.mp h
      cases h
      simp only [List.mem_cons, exists_eq_or_imp, hfirst, Except.ok.injEq, ih hrest]
      rw [@eq_comm β value]

end Except
