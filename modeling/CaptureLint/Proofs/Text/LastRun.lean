/-!
# Runs at the ends of a text

Every text starts and ends in a run of the characters of a class, perhaps an empty one.  Reading the
text from its end finds the last run and what stands in front of it.
-/

namespace CaptureLint.Text

/-- How a text is written that ends in a run of accepted characters, none of them left in front. -/
structure EndsInRun (accepts : Char → Bool) (text front run : List Char) : Prop where
  split : text = front ++ run
  accepted : ∀ c ∈ run, accepts c = true
  front_stop : ∀ c ∈ front.getLast?, accepts c = false

variable {accepts : Char → Bool} {text front run : List Char}

theorem endsInRun (accepts : Char → Bool) (text : List Char) :
    EndsInRun accepts text (text.reverse.dropWhile accepts).reverse
      (text.reverse.takeWhile accepts).reverse where
  split := by
    rw [← List.reverse_append, List.takeWhile_append_dropWhile, List.reverse_reverse]
  accepted := by
    intro c hc
    exact List.all_eq_true.mp List.all_takeWhile c (List.mem_reverse.mp hc)
  front_stop := by
    intro c hc
    rw [List.getLast?_reverse] at hc
    have hhead := List.head?_dropWhile_not accepts text.reverse
    rw [Option.mem_def.mp hc] at hhead
    simpa using hhead

theorem drop_takeWhile (p : Char → Bool) (text : List Char) :
    text.drop (text.takeWhile p).length = text.dropWhile p := by
  induction text with
  | nil => rfl
  | cons c text ih =>
      by_cases hc : p c = true
      · rw [List.takeWhile_cons_of_pos hc, List.dropWhile_cons_of_pos hc, List.length_cons,
          List.drop_succ_cons, ih]
      · rw [List.takeWhile_cons_of_neg hc, List.dropWhile_cons_of_neg hc]
        rfl

namespace EndsInRun

theorem takeWhile_reverse (h : EndsInRun accepts text front run) :
    text.reverse.takeWhile accepts = run.reverse := by
  have hrun : ∀ c ∈ run.reverse, accepts c = true := fun c hc =>
    h.accepted c (List.mem_reverse.mp hc)
  rw [h.split, List.reverse_append, List.takeWhile_append_of_pos hrun]
  cases hlast : front.reverse with
  | nil => exact List.append_nil _
  | cons c rest =>
      have hc := h.front_stop c (by simp [List.getLast?_eq_head?_reverse, hlast])
      rw [List.takeWhile_cons_of_neg (by simp [hc]), List.append_nil]

theorem dropWhile_reverse (h : EndsInRun accepts text front run) :
    text.reverse.dropWhile accepts = front.reverse := by
  have hsplit := List.takeWhile_append_dropWhile (p := accepts) (l := text.reverse)
  rw [h.takeWhile_reverse] at hsplit
  conv at hsplit => rhs; rw [h.split, List.reverse_append]
  exact List.append_cancel_left hsplit

end EndsInRun

end CaptureLint.Text
