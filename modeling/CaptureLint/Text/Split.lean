/-!
# Splitting a text at a character

The parts between the occurrences of a separator, of which there is always at least one.  Parts that
do not hold the separator are found again in the text that they make (`split_join`).
-/

namespace CaptureLint.Text

def split (separator : Char) : List Char → List (List Char)
  | [] => [[]]
  | c :: text =>
      if c = separator then [] :: split separator text
      else
        match split separator text with
        | part :: parts => (c :: part) :: parts
        | [] => [[c]]

def join (separator : Char) : List (List Char) → List Char
  | [] => []
  | [part] => part
  | part :: parts => part ++ separator :: join separator parts

theorem split_ne_nil (separator : Char) (text : List Char) : split separator text ≠ [] := by
  cases text with
  | nil => simp [split]
  | cons c text =>
      simp only [split]
      split
      · simp
      · split <;> simp

theorem split_of_not_mem {separator : Char} {part : List Char} (h : separator ∉ part) :
    split separator part = [part] := by
  induction part with
  | nil => rfl
  | cons c part ih =>
      rw [List.mem_cons, not_or] at h
      rw [split, if_neg (Ne.symm h.1), ih h.2]

/-- A separator ends one part and starts another. -/
theorem split_append_cons (separator : Char) (front text : List Char) :
    split separator (front ++ separator :: text) =
      split separator front ++ split separator text := by
  induction front with
  | nil => simp [split]
  | cons c front ih =>
      simp only [List.cons_append, split, ih]
      split
      · rfl
      · cases h : split separator front with
        | nil => exact absurd h (split_ne_nil separator front)
        | cons part parts => rfl

theorem split_join {separator : Char} {parts : List (List Char)} (hne : parts ≠ [])
    (h : ∀ part ∈ parts, separator ∉ part) : split separator (join separator parts) = parts := by
  induction parts with
  | nil => exact absurd rfl hne
  | cons part parts ih =>
      have hpart : separator ∉ part := h part List.mem_cons_self
      cases parts with
      | nil => exact split_of_not_mem hpart
      | cons next parts =>
          have hrest := ih (List.cons_ne_nil next parts) fun other hother =>
            h other (List.mem_cons_of_mem part hother)
          show split separator (part ++ separator :: join separator (next :: parts)) = _
          rw [split_append_cons, split_of_not_mem hpart, hrest]
          rfl

/-- What the parts make is made of their characters and of separators. -/
theorem mem_join {separator c : Char} {parts : List (List Char)} (h : c ∈ join separator parts) :
    c = separator ∨ ∃ part ∈ parts, c ∈ part := by
  induction parts with
  | nil => cases h
  | cons part parts ih =>
      cases parts with
      | nil => exact .inr ⟨part, List.mem_cons_self, h⟩
      | cons next parts =>
          change c ∈ part ++ separator :: join separator (next :: parts) at h
          rw [List.mem_append, List.mem_cons] at h
          rcases h with hpart | hseparator | hrest
          · exact .inr ⟨part, List.mem_cons_self, hpart⟩
          · exact .inl hseparator
          · rcases ih hrest with hseparator | ⟨other, hother, hc⟩
            · exact .inl hseparator
            · exact .inr ⟨other, List.mem_cons_of_mem part hother, hc⟩

/-- The lines of a text, each without its newline and without a carriage return before it; a newline
at the end of the text does not start another line. -/
def lines (text : List Char) : List (List Char) :=
  let parts := split '\n' text
  let parts := if parts.getLast? = some [] then parts.dropLast else parts
  parts.map fun line => if line.getLast? = some '\r' then line.dropLast else line

end CaptureLint.Text
