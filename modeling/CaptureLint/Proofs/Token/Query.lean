import CaptureLint.Proofs.Token.Stream
import CaptureLint.Token.Query

/-!
# Queries on ordered tokens

Halving finds the place where two groups of items meet, and the tokens of a source are ordered.  A
query for the tokens of a byte range therefore gives what a search through all of them would.
-/

namespace CaptureLint.Token

/-! ## Halving -/

section Partition

variable {α : Type} {before : α → Bool} {first second : List α}

theorem any_probe (hfirst : ∀ item ∈ first, before item = true)
    (hsecond : ∀ item ∈ second, before item = false) (place : Nat) :
    (first ++ second).toArray[place]?.any before = decide (place < first.length) := by
  rw [List.getElem?_toArray]
  by_cases hplace : place < first.length
  · rw [List.getElem?_append_left hplace, List.getElem?_eq_getElem hplace, Option.any_some,
      hfirst _ (List.getElem_mem hplace), decide_eq_true hplace]
  · rw [List.getElem?_append_right (Nat.le_of_not_lt hplace), decide_eq_false hplace,
      Option.any_eq_false]
    intro item hitem
    simp [hsecond item (List.mem_of_getElem? hitem)]

/-- The end of the first group stays between the two bounds. -/
theorem partitionIn_append (hfirst : ∀ item ∈ first, before item = true)
    (hsecond : ∀ item ∈ second, before item = false) (low high : Nat) (hlow : low ≤ first.length)
    (hhigh : first.length ≤ high) :
    partitionIn before (first ++ second).toArray low high = first.length := by
  induction low, high using partitionIn.induct before (first ++ second).toArray with
  | case1 low high hlt middle hprobe ih =>
      rw [partitionIn, if_pos hlt, if_pos hprobe]
      rw [any_probe hfirst hsecond, decide_eq_true_eq] at hprobe
      exact ih hprobe hhigh
  | case2 low high hlt middle hprobe ih =>
      rw [partitionIn, if_pos hlt, if_neg hprobe]
      rw [any_probe hfirst hsecond, decide_eq_true_eq] at hprobe
      exact ih hlow (Nat.le_of_not_lt hprobe)
  | case3 low high hge =>
      rw [partitionIn, if_neg hge]
      omega

theorem partitionPoint_append (hfirst : ∀ item ∈ first, before item = true)
    (hsecond : ∀ item ∈ second, before item = false) :
    partitionPoint before (first ++ second) = first.length :=
  partitionIn_append hfirst hsecond 0 _ (Nat.zero_le _) (by simp)

/-- Where no item satisfies `before` behind one that does not, the items are in two groups. -/
theorem filter_append_filter_not {items : List α}
    (hitems : items.Pairwise fun item next => before next = true → before item = true) :
    items.filter before ++ items.filter (! before ·) = items := by
  induction hitems with
  | nil => rfl
  | @cons item items hhead htail ih =>
      by_cases hitem : before item = true
      · rw [List.filter_cons_of_pos hitem, List.filter_cons_of_neg (by simp [hitem]),
          List.cons_append, ih]
      · have hnone : items.filter before = [] :=
          List.filter_eq_nil_iff.mpr fun next hnext hbefore => hitem (hhead next hnext hbefore)
        rw [hnone, List.nil_append] at ih
        rw [List.filter_cons_of_neg hitem, List.filter_cons_of_pos (by simp [hitem]), hnone,
          List.nil_append, ih]

/-- Halving counts the items that satisfy `before`. -/
theorem partitionPoint_eq_countP {items : List α}
    (hitems : items.Pairwise fun item next => before next = true → before item = true) :
    partitionPoint before items = items.countP before := by
  conv => lhs; rw [← filter_append_filter_not hitems]
  rw [partitionPoint_append, List.countP_eq_length_filter]
  · exact fun item hitem => (List.mem_filter.mp hitem).2
  · intro item hitem
    simpa using (List.mem_filter.mp hitem).2

end Partition

/-! ## Ordered tokens -/

theorem pairwise_start_lt {tokens : List Token} (hsorted : tokens.Pairwise (·.start < ·.start))
    (bound : Nat) : tokens.Pairwise fun token next =>
      decide (next.start < bound) = true → decide (token.start < bound) = true :=
  hsorted.imp fun hlt => by
    simp only [decide_eq_true_eq]
    omega

theorem filter_append_filter {tokens : List Token}
    (hsorted : tokens.Pairwise (·.start < ·.start)) (bound : Nat) :
    tokens.filter (·.start < bound) ++ tokens.filter (bound ≤ ·.start) = tokens := by
  have hsplit := filter_append_filter_not (pairwise_start_lt hsorted bound)
  simpa only [← decide_not, Nat.not_lt] using hsplit

theorem partitionPoint_start {tokens : List Token}
    (hsorted : tokens.Pairwise (·.start < ·.start)) (bound : Nat) :
    partitionPoint (·.start < bound) tokens = (tokens.filter (·.start < bound)).length := by
  rw [partitionPoint_eq_countP (pairwise_start_lt hsorted bound), List.countP_eq_length_filter]

theorem partitionPoint_start_le_length {tokens : List Token}
    (hsorted : tokens.Pairwise (·.start < ·.start)) (bound : Nat) :
    partitionPoint (·.start < bound) tokens ≤ tokens.length := by
  rw [partitionPoint_start hsorted]
  exact List.length_filter_le _ _

theorem partitionPoint_start_mono {tokens : List Token}
    (hsorted : tokens.Pairwise (·.start < ·.start)) {bound bound' : Nat} (hle : bound ≤ bound') :
    partitionPoint (·.start < bound) tokens ≤ partitionPoint (·.start < bound') tokens := by
  rw [partitionPoint_eq_countP (pairwise_start_lt hsorted bound),
    partitionPoint_eq_countP (pairwise_start_lt hsorted bound')]
  apply List.countP_mono_left
  intro token _ hstart
  rw [decide_eq_true_eq] at hstart ⊢
  omega

theorem partitionPoint_start_le_iff {tokens : List Token}
    (hsorted : tokens.Pairwise (·.start < ·.start)) {low high : Nat} (hle : low ≤ high) :
    partitionPoint (·.start < high) tokens ≤ partitionPoint (·.start < low) tokens ↔
      ∀ token ∈ tokens, low ≤ token.start → high ≤ token.start := by
  rw [partitionPoint_eq_countP (pairwise_start_lt hsorted high),
    partitionPoint_eq_countP (pairwise_start_lt hsorted low)]
  clear hsorted
  induction tokens with
  | nil => simp
  | cons token tokens ih =>
      have hmono : tokens.countP (·.start < low) ≤ tokens.countP (·.start < high) :=
        List.countP_mono_left fun token _ hstart => by
          rw [decide_eq_true_eq] at hstart ⊢
          omega
      rw [List.forall_mem_cons, ← ih, List.countP_cons, List.countP_cons]
      simp only [decide_eq_true_eq]
      split <;> split <;> omega

end CaptureLint.Token

namespace CaptureLint.Source

open Token

theorem tokensIn?_eq_filter {source : Source} {tokens : List Token} {range : ByteRange}
    (hsorted : tokens.Pairwise (·.start < ·.start)) (hrange : range.stop ≤ source.byteLength) :
    source.tokensIn? tokens range =
      some (tokens.filter fun token => range.start ≤ token.start && token.start < range.stop) := by
  have htake : tokens.take (partitionPoint (·.start < range.stop) tokens) =
      tokens.filter (·.start < range.stop) := by
    rw [partitionPoint_start hsorted]
    conv => lhs; arg 2; rw [← filter_append_filter hsorted range.stop]
    exact List.take_left
  have hbelow : tokens.filter (·.start < range.start) =
      (tokens.filter (·.start < range.stop)).filter (·.start < range.start) := by
    rw [List.filter_filter]
    refine List.filter_congr fun token _ => ?_
    have : range.start ≤ range.stop := Nat.le_add_right _ _
    rw [Bool.eq_iff_iff]
    simp only [Bool.and_eq_true, decide_eq_true_eq]
    omega
  have hdrop : (tokens.filter (·.start < range.stop)).drop
      (partitionPoint (·.start < range.start) tokens) =
        (tokens.filter (·.start < range.stop)).filter (range.start ≤ ·.start) := by
    rw [partitionPoint_start hsorted, hbelow]
    conv => lhs; arg 2; rw [← filter_append_filter (hsorted.filter _) range.start]
    exact List.drop_left
  simp only [tokensIn?, if_pos hrange, htake, hdrop, List.filter_filter]

theorem tokensIn?_eq_none_iff {source : Source} {tokens : List Token} {range : ByteRange} :
    source.tokensIn? tokens range = none ↔ source.byteLength < range.stop := by
  unfold tokensIn?
  by_cases hrange : range.stop ≤ source.byteLength
  · simp [hrange]
  · simp [hrange, Nat.lt_of_not_le hrange]

/-! ## Ranges in words -/

section

variable {source : Source} {tokens : List Token} {range : WordRange}

theorem toNat_stop_of_fits (h : range.overflows = false) :
    range.stop.toNat = range.toByteRange.stop := by
  rw [WordRange.overflows, decide_eq_false_iff_not, Nat.not_le] at h
  rw [WordRange.stop, UInt64.toNat_add]
  exact Nat.mod_eq_of_lt h

/-- A sum that is no word wraps around, to a word before the start. -/
theorem toNat_stop_of_overflows (h : range.overflows = true) :
    range.stop.toNat + UInt64.size = range.toByteRange.stop ∧
      range.stop.toNat < range.start.toNat := by
  rw [WordRange.overflows, decide_eq_true_eq] at h
  have hstart := range.start.toNat_lt_size
  have hlength := range.length.toNat_lt_size
  have hsum : range.toByteRange.stop = range.start.toNat + range.length.toNat := rfl
  have hstop : range.stop.toNat = range.toByteRange.stop % UInt64.size := by
    rw [WordRange.stop, UInt64.toNat_add]
    rfl
  rw [Nat.mod_eq_sub_mod h, Nat.mod_eq_of_lt (by omega)] at hstop
  omega

theorem tokensInWords_of_fits (checked : Bool) (hsorted : tokens.Pairwise (·.start < ·.start))
    (h : range.overflows = false) :
    source.tokensInWords checked tokens range = .ok (source.tokensIn? tokens range.toByteRange) := by
  have hle : range.toByteRange.start ≤ range.toByteRange.stop := Nat.le_add_right _ _
  have hordered := partitionPoint_start_mono hsorted hle
  rw [tokensInWords, h, Bool.and_false, if_neg Bool.false_ne_true, toNat_stop_of_fits h, tokensIn?]
  split
  · exact if_pos hordered
  · rfl

theorem tokensInWords_of_checked (source : Source) (tokens : List Token)
    (h : range.overflows = true) :
    source.tokensInWords true tokens range = .error .overflow := by
  rw [tokensInWords, h, Bool.and_self, if_pos rfl]

/-- A range that has wrapped around ends before it starts, and the tokens between are missing. -/
theorem tokensInWords_of_wrapped (hsorted : tokens.Pairwise (·.start < ·.start))
    (h : range.overflows = true) (hinside : range.stop.toNat ≤ source.byteLength) :
    source.tokensInWords false tokens range =
      if tokens.any fun token => range.stop.toNat ≤ token.start && token.start < range.start.toNat then
        .error .inverted
      else .ok (some []) := by
  have hlt := (toNat_stop_of_overflows h).2
  have hiff := partitionPoint_start_le_iff hsorted (Nat.le_of_lt hlt)
  rw [tokensInWords, Bool.false_and, if_neg Bool.false_ne_true, if_pos hinside]
  dsimp only
  split
  next hplaces =>
    have hnone := hiff.mp hplaces
    have hempty : ¬ (tokens.any fun token =>
        range.stop.toNat ≤ token.start && token.start < range.start.toNat) = true := by
      simp only [List.any_eq_true, Bool.and_eq_true, decide_eq_true_eq, not_exists, not_and, Nat.not_lt]
      exact hnone
    have hmono := partitionPoint_start_mono hsorted (Nat.le_of_lt hlt)
    rw [if_neg hempty, List.drop_eq_nil_of_le (Nat.le_trans (List.length_take_le _ _) hmono)]
  next hplaces =>
    rw [hiff] at hplaces
    simp only [Classical.not_forall, Nat.not_le, exists_prop] at hplaces
    rw [if_pos (by simpa using hplaces)]

end

/-- A query on tokens in words.  As long as the sum that ends the range is a word, it is answered for
the ranges that end inside the text, and the answer is what a search through all tokens finds: those
that start in the range, in their order.  Neither end of the range has to be the end of a token or of a
character, and the two places found by halving come in order and lie inside the list.  A sum that is
no word brings the query down where sums are checked.  Elsewhere the range wraps around and ends before
it starts, and a token between these places brings the query down too. -/
theorem tokensInWords_exact (checked : Bool) (source : Source) (range : WordRange) :
    (range.start.toNat + range.length.toNat < UInt64.size →
      (source.tokensInWords checked source.tokens range = .ok none ↔
        source.byteLength < range.start.toNat + range.length.toNat) ∧
      (range.start.toNat + range.length.toNat ≤ source.byteLength →
        source.tokensInWords checked source.tokens range =
          .ok (some (source.tokens.filter fun token => range.start.toNat ≤ token.start &&
            token.start < range.start.toNat + range.length.toNat))) ∧
      partitionPoint (·.start < range.start.toNat) source.tokens ≤
        partitionPoint (·.start < range.stop.toNat) source.tokens ∧
      partitionPoint (·.start < range.stop.toNat) source.tokens ≤ source.tokens.length) ∧
    (UInt64.size ≤ range.start.toNat + range.length.toNat →
      source.tokensInWords true source.tokens range = .error .overflow ∧
      range.stop.toNat < range.start.toNat ∧
      (source.byteLength < range.stop.toNat →
        source.tokensInWords false source.tokens range = .ok none) ∧
      (range.stop.toNat ≤ source.byteLength →
        source.tokensInWords false source.tokens range =
          if source.tokens.any fun token =>
              range.stop.toNat ≤ token.start && token.start < range.start.toNat then
            .error .inverted
          else .ok (some []))) ∧
    ∀ range : ByteRange,
      (source.tokensIn? source.tokens range = none ↔ source.byteLength < range.stop) ∧
      (range.stop ≤ source.byteLength → source.tokensIn? source.tokens range =
        some (source.tokens.filter fun token =>
          range.start ≤ token.start && token.start < range.stop)) := by
  have hsorted : source.tokens.Pairwise (·.start < ·.start) := source.ordered_tokens.starts
  refine ⟨fun hfits => ?_, fun hover => ?_,
    fun range => ⟨tokensIn?_eq_none_iff, tokensIn?_eq_filter hsorted⟩⟩
  · have hword : range.overflows = false := decide_eq_false (Nat.not_le_of_lt hfits)
    have hle : range.start.toNat ≤ range.stop.toNat := by
      rw [toNat_stop_of_fits hword]
      exact Nat.le_add_right _ _
    rw [tokensInWords_of_fits checked hsorted hword, Except.ok.injEq, Except.ok.injEq]
    exact ⟨tokensIn?_eq_none_iff, @tokensIn?_eq_filter source _ range.toByteRange hsorted,
      partitionPoint_start_mono hsorted hle, partitionPoint_start_le_length hsorted _⟩
  · have hword : range.overflows = true := decide_eq_true hover
    refine ⟨tokensInWords_of_checked source _ hword, (toNat_stop_of_overflows hword).2,
      fun houtside => ?_, tokensInWords_of_wrapped hsorted hword⟩
    rw [tokensInWords, Bool.false_and, if_neg Bool.false_ne_true,
      if_neg (Nat.not_le_of_lt houtside)]

/-- Both ends of the range cut a character in the middle of a name. -/
example : (tokensIn? ⟨none, "aé bé+c".toList⟩ (tokens ⟨none, "aé bé+c".toList⟩) ⟨2, 4⟩).map
    (·.map (·.start)) = some [4] := by decide +kernel

/-- A range that ends far behind a text with one token, at a sum that is no word. -/
theorem query_past_words_brought_down :
    ¬ ∃ checked : Bool, ∀ (source : Source) (range : WordRange),
      source.byteLength < range.start.toNat + range.length.toNat →
        source.tokensInWords checked source.tokens range = .ok none := by
  rintro ⟨checked, hall⟩
  have hnone := hall ⟨none, ['a']⟩ ⟨2 ^ 63, 2 ^ 63⟩ (by decide +kernel)
  have hoverflows : WordRange.overflows ⟨2 ^ 63, 2 ^ 63⟩ = true := by decide +kernel
  cases checked with
  | true =>
      rw [tokensInWords_of_checked _ _ hoverflows] at hnone
      cases hnone
  | false =>
      have hsorted := (ordered_tokens ⟨none, ['a']⟩).starts
      rw [tokensInWords_of_wrapped hsorted hoverflows (by decide +kernel),
        if_pos (by decide +kernel)] at hnone
      cases hnone

end CaptureLint.Source
