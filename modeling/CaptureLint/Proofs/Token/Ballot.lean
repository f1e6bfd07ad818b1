import CaptureLint.Token.Lexer

/-!
# Openings and closings in order

Interpolations open and close along a text, and round brackets along the code in one.  Both
accounts have the same laws: a part may close what the parts before it leave open, and there is one
place where more is closed than was opened.
-/

namespace CaptureLint.Token

/-- In every prefix the items that close are no more than the items that open and `slack` more. -/
def Ballot {α : Type} (opens closes : α → Bool) (slack : Nat) (items : List α) : Prop :=
  ∀ front back, items = front ++ back → front.countP closes ≤ front.countP opens + slack

variable {α : Type} {opens closes : α → Bool} {slack slack' : Nat}
  {front front' later back back' items : List α} {item : α}

theorem ballot_iff_take : Ballot opens closes slack items ↔ ∀ length < items.length + 1,
    (items.take length).countP closes ≤ (items.take length).countP opens + slack := by
  constructor
  · exact fun h length _ => h _ _ (List.take_append_drop length items).symm
  · rintro h left right rfl
    have hle := h left.length (by rw [List.length_append]; omega)
    rwa [List.take_left] at hle

instance : Decidable (Ballot opens closes slack items) := decidable_of_iff _ ballot_iff_take.symm

namespace Ballot

theorem of_le (h : front.countP closes ≤ slack) : Ballot opens closes slack front := by
  rintro left right rfl
  rw [List.countP_append] at h
  omega

theorem map {β : Type} (f : β → α) {items : List β}
    (h : Ballot (fun item => opens (f item)) (fun item => closes (f item)) slack items) :
    Ballot opens closes slack (items.map f) := by
  intro left right hsplit
  obtain ⟨first, second, rfl, rfl, rfl⟩ := List.map_eq_append_iff.mp hsplit
  have hle := h first second rfl
  rw [List.countP_map, List.countP_map]
  exact hle

theorem append (h : Ballot opens closes slack front)
    (hcount : front.countP opens + slack = front.countP closes + slack')
    (h' : Ballot opens closes slack' back) : Ballot opens closes slack (front ++ back) := by
  intro left right hsplit
  rw [List.append_eq_append_iff] at hsplit
  rcases hsplit with ⟨later, rfl, hback⟩ | ⟨later, hfront, -⟩
  · have hlater := h' later right hback
    rw [List.countP_append, List.countP_append]
    omega
  · exact h left later hfront

theorem right (h : Ballot opens closes slack (front ++ back))
    (hcount : front.countP opens + slack = front.countP closes + slack') :
    Ballot opens closes slack' back := by
  rintro left right rfl
  have hlonger := h (front ++ left) right (List.append_assoc _ _ _).symm
  rw [List.countP_append, List.countP_append] at hlonger
  omega

/-- Once everything is closed, no item that closes follows. -/
theorem later_eq_nil (h : Ballot opens closes slack (front ++ later))
    (hzero : front.countP opens + slack = front.countP closes) (hcloses : closes item = true)
    (hopens : opens item = false) (hlater : item :: back = later ++ back') : later = [] := by
  cases later with
  | nil => rfl
  | cons next later =>
      obtain rfl : item = next := (List.cons.inj hlater).1
      have hle := h (front ++ [item]) later (by simp)
      simp [hcloses, hopens] at hle
      omega

/-- The first item that closes more than was opened stands at one place. -/
theorem unique (h : Ballot opens closes slack front) (h' : Ballot opens closes slack front')
    (hzero : front.countP opens + slack = front.countP closes)
    (hzero' : front'.countP opens + slack = front'.countP closes) (hcloses : closes item = true)
    (hopens : opens item = false) (hsplit : front ++ item :: back = front' ++ item :: back') :
    front = front' := by
  rw [List.append_eq_append_iff] at hsplit
  rcases hsplit with ⟨later, rfl, hlater⟩ | ⟨later, rfl, hlater⟩
  · rw [h'.later_eq_nil hzero hcloses hopens hlater, List.append_nil]
  · rw [h.later_eq_nil hzero' hcloses hopens hlater, List.append_nil]

end Ballot

end CaptureLint.Token
