import CaptureLint.FileSystem.Path
import Mathlib.Data.Char
import Mathlib.Data.List.Lex
import Mathlib.Data.List.Pairwise

/-!
# The order of paths

Paths are ordered by their components as words are by their letters.  The order is total and
transitive, and two texts that stand in it both ways are the same path; they need not be the same
text.
-/

namespace CaptureLint.Path

/-! ## Components -/

namespace Component

variable {first second third : Component}

theorem before_iff : first.before second = true ↔ first.rank < second.rank ∨
    ∃ text text', first = .name text ∧ second = .name text' ∧ text < text' := by
  cases first <;> cases second <;> simp [before, rank]

theorem before_irrefl (component : Component) : component.before component = false := by
  cases component <;> simp [before]

theorem before_trans (h : first.before second = true) (h' : second.before third = true) :
    first.before third = true := by
  rw [before_iff] at h h' ⊢
  rcases h with h | ⟨a, b, rfl, rfl, hab⟩
  · rcases h' with h' | ⟨b, c, rfl, rfl, -⟩
    · exact .inl (h.trans h')
    · exact .inl h
  · rcases h' with h' | ⟨b', c, heq, rfl, hbc⟩
    · exact .inl h'
    · cases heq
      exact .inr ⟨a, c, rfl, rfl, hab.trans hbc⟩

/-- The kinds other than names have one component each. -/
theorem before_or_before (hne : first ≠ second) :
    first.before second = true ∨ second.before first = true := by
  cases first with
  | name text =>
      cases second with
      | name text' =>
          have htext : text ≠ text' := fun h => hne (congrArg name h)
          simpa [before] using lt_or_gt_of_ne htext
      | _ => exact .inr rfl
  | _ =>
      cases second with
      | name text' => exact .inl rfl
      | _ => first | exact absurd rfl hne | exact .inl rfl | exact .inr rfl

end Component

/-! ## Lists of components -/

theorem componentsLe_cons {first second : Component} {firsts seconds : List Component} :
    componentsLe (first :: firsts) (second :: seconds) = true ↔
      first.before second = true ∨ first = second ∧ componentsLe firsts seconds = true := by
  rw [componentsLe]
  split
  · rename_i heq
    simp [heq, Component.before_irrefl]
  · rename_i hne
    simp [hne]

theorem componentsLe_total (firsts seconds : List Component) :
    componentsLe firsts seconds = true ∨ componentsLe seconds firsts = true := by
  induction firsts generalizing seconds with
  | nil => exact .inl rfl
  | cons first firsts ih =>
      cases seconds with
      | nil => exact .inr rfl
      | cons second seconds =>
          rw [componentsLe_cons, componentsLe_cons]
          by_cases heq : first = second
          · exact (ih seconds).imp (fun h => .inr ⟨heq, h⟩) fun h => .inr ⟨heq.symm, h⟩
          · exact (Component.before_or_before heq).imp .inl .inl

theorem componentsLe_trans {firsts seconds thirds : List Component}
    (h : componentsLe firsts seconds = true) (h' : componentsLe seconds thirds = true) :
    componentsLe firsts thirds = true := by
  induction firsts generalizing seconds thirds with
  | nil => rfl
  | cons first firsts ih =>
      cases seconds with
      | nil => cases h
      | cons second seconds =>
          cases thirds with
          | nil => cases h'
          | cons third thirds =>
              rw [componentsLe_cons] at h h' ⊢
              rcases h with hbefore | ⟨rfl, h⟩
              · rcases h' with hbefore' | ⟨rfl, -⟩
                · exact .inl (Component.before_trans hbefore hbefore')
                · exact .inl hbefore
              · exact h'.imp_right fun ⟨heq, h'⟩ => ⟨heq, ih h h'⟩

theorem componentsLe_antisymm {firsts seconds : List Component}
    (h : componentsLe firsts seconds = true) (h' : componentsLe seconds firsts = true) :
    firsts = seconds := by
  induction firsts generalizing seconds with
  | nil =>
      cases seconds with
      | nil => rfl
      | cons second seconds => cases h'
  | cons first firsts ih =>
      cases seconds with
      | nil => cases h
      | cons second seconds =>
          rw [componentsLe_cons] at h h'
          rcases h with hbefore | ⟨rfl, h⟩
          · -- a component that stands before another cannot stand behind it, nor be it
            have hself : first.before first = true := by
              rcases h' with hbefore' | ⟨rfl, -⟩
              · exact Component.before_trans hbefore hbefore'
              · exact hbefore
            rw [Component.before_irrefl] at hself
            cases hself
          · rcases h' with hbefore | ⟨-, h'⟩
            · rw [Component.before_irrefl] at hbefore
              cases hbefore
            · rw [ih h h']

/-! ## Paths -/

theorem le_total (first second : String) : (le first second || le second first) = true :=
  Bool.or_eq_true_iff.mpr (componentsLe_total _ _)

theorem le_trans {first second third : String} (h : le first second = true)
    (h' : le second third = true) : le first third = true :=
  componentsLe_trans h h'

theorem same_of_le_of_le {first second : String} (h : le first second = true)
    (h' : le second first = true) : same first second = true :=
  beq_iff_eq.mpr (componentsLe_antisymm h h')

/-- A directory comes before what its name begins, other than in the order of texts. -/
example : le "a/b" "a-b" = true ∧ "a-b" < "a/b" := by decide

theorem eq_of_same {paths : List String}
    (hdistinct : paths.Pairwise fun first second => same first second = false)
    {first second : String} (hfirst : first ∈ paths) (hsecond : second ∈ paths)
    (h : same first second = true) : first = second := by
  have : Std.Symm fun first second => same first second = false := by
    constructor
    intro a b hab
    rw [same, Bool.beq_comm]
    exact hab
  by_contra hne
  rw [hdistinct.forall hfirst hsecond hne] at h
  cases h

end CaptureLint.Path
