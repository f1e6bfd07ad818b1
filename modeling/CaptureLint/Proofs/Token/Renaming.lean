import CaptureLint.Proofs.Token.Names

/-!
# Renaming a name in a text

What stands in front of a name looks at the name only to see that a name starts there.  So it is cut
in the same way when another word takes the place of the name, unless a number ends right before it:
a number goes on through letters of ASCII and stops at others.
-/

namespace CaptureLint.Token

inductive Alike : List Char → List Char → Prop where
  | words {c d : Char} {name other : List Char} (right : List Char) (hc : isNameStart c = true)
      (hname : name.all isNameChar = true) (hd : isNameStart d = true)
      (hother : other.all isNameChar = true) :
      Alike (c :: (name ++ right)) (d :: (other ++ right))

variable {old new text rest : List Char} {p : Char → Bool} {c sign : Char} {bound : Bool}
  {opened : List Interpolation} {before : Option Piece} {delimiter : Delimiter}

theorem quotedNameLength?_run {run : List Char} (hne : run ≠ [])
    (hrun : run.all (fun c => c != '\x60' && c != '\n') = true) (right : List Char) :
    quotedNameLength? (run ++ right) =
      let later := right.takeWhile fun c => c != '\x60' && c != '\n'
      if right[later.length]? == some '\x60' then some (run.length + later.length + 1)
      else none := by
  have htake : (run ++ right).takeWhile (fun c => c != '\x60' && c != '\n') =
      run ++ right.takeWhile fun c => c != '\x60' && c != '\n' :=
    List.takeWhile_append_of_pos (List.all_eq_true.mp hrun)
  have hmark : ∀ place, (run ++ right)[run.length + place]? = right[place]? := by
    intro place
    rw [List.getElem?_append_right (Nat.le_add_right _ _), Nat.add_sub_cancel_left]
  have hempty : (run ++ right.takeWhile fun c => c != '\x60' && c != '\n').isEmpty = false := by
    rw [List.isEmpty_eq_false_iff]
    exact List.append_ne_nil_of_left_ne_nil hne _
  rw [quotedNameLength?, htake, List.length_append, hmark, hempty]
  rfl

/-- In front of a name one step of a segment looks at the text before it only. -/
theorem segment_cons_name (c : Char) {d : Char} (hd : isNameStart d = true) (text tail : List Char) :
    segment delimiter 0 (c :: (text ++ d :: tail)) =
      if c = '\\' ∧ delimiter.interpolates text then (0, .interpolation)
      else if c = '"' ∧ delimiter.closing.isPrefixOf (c :: text) then (delimiter.width, .closed)
      else if c = '\n' ∧ ¬ delimiter.multiline then (0, .broken)
      else
        let escaped := if c = '\\' ∧ delimiter.escapes text then delimiter.hashes + 1 else 0
        ((segment delimiter escaped (text ++ d :: tail)).1 + 1,
          (segment delimiter escaped (text ++ d :: tail)).2) := by
  have hclosing : d ∉ delimiter.closing := by
    simp [Delimiter.closing, (ne_of_class hd (by decide) : d ≠ '"'),
      (ne_of_class hd (by decide) : d ≠ '#')]
  rw [segment, interpolates_append_stop _ (ne_of_class hd (by decide)) (ne_of_class hd (by decide)),
    escapes_append_stop _ (ne_of_class hd (by decide)), ← List.cons_append,
    isPrefixOf_append_stop hclosing]

namespace Alike

theorem exists_cons (h : Alike old new) :
    (∃ c tail, old = c :: tail ∧ isNameStart c = true) ∧
      ∃ d tail, new = d :: tail ∧ isNameStart d = true := by
  cases h with
  | words right hc hname hd hother => exact ⟨⟨_, _, rfl, hc⟩, _, _, rfl, hd⟩

/-- A reader that takes a name for the end of the text finds the same in front of both. -/
theorem congr {α : Type} (h : Alike old new) (read : List Char → α)
    (hread : ∀ c tail, isNameStart c = true → read (text ++ c :: tail) = read text) :
    read (text ++ new) = read (text ++ old) := by
  obtain ⟨⟨c, tail, rfl, hc⟩, d, tail', rfl, hd⟩ := h.exists_cons
  rw [hread c tail hc, hread d tail' hd]

/-! ## Readers that end in front of a name -/

theorem takeWhile (h : Alike old new) (goes : Bool)
    (hp : ∀ c, isNameStart c = true → p c = goes)
    (hle : ((text ++ old).takeWhile p).length ≤ text.length) :
    (text ++ new).takeWhile p = (text ++ old).takeWhile p := by
  induction text with
  | nil =>
      obtain ⟨⟨c, tail, rfl, hc⟩, d, tail', rfl, hd⟩ := h.exists_cons
      have hstop : p c = false := by
        rw [Bool.eq_false_iff]
        intro hpc
        simp [hpc] at hle
      rw [hp c hc] at hstop
      simp [hp c hc, hp d hd, hstop]
  | cons e text ih =>
      rw [List.cons_append, List.cons_append, List.takeWhile_cons, List.takeWhile_cons]
      split
      · rename_i hpe
        refine congrArg (e :: ·) (ih ?_)
        simpa [hpe] using hle
      · rfl

theorem nameLength (h : Alike old new) (hle : nameLength (text ++ old) ≤ text.length) :
    nameLength (text ++ new) = nameLength (text ++ old) :=
  congrArg List.length
    (h.takeWhile true (fun c hc => by simp [isNameChar, hc]) hle)

theorem lineLength (h : Alike old new) (hle : lineLength (text ++ old) ≤ text.length) :
    lineLength (text ++ new) = lineLength (text ++ old) :=
  congrArg List.length (h.takeWhile true
    (fun c hc => by simp [(ne_of_class hc (by decide) : c ≠ '\n')]) hle)

theorem blockCommentLength (h : Alike old new) (depth : Nat)
    (hle : blockCommentLength depth (text ++ old) ≤ text.length) :
    blockCommentLength depth (text ++ new) = blockCommentLength depth (text ++ old) := by
  obtain ⟨⟨c, tail, rfl, hc⟩, d, tail', rfl, hd⟩ := h.exists_cons
  have hne : ∀ {c sign}, isNameStart c = true → isNameStart sign = false → c ≠ sign :=
    fun hc hsign => ne_of_class hc hsign
  fun_induction Token.blockCommentLength depth text with
  | case1 text => rw [Token.blockCommentLength, Token.blockCommentLength]
  | case2 depth =>
      rw [List.nil_append, Token.blockCommentLength.eq_5 _ _ _
        (fun _ heq => absurd heq (hne hc (by decide)))
        (fun _ heq => absurd heq (hne hc (by decide))), List.length_nil] at hle
      omega
  | case3 depth text ih =>
      refine congrArg (2 + ·) (ih ?_)
      have hstep : Token.blockCommentLength (depth + 1) ('/' :: '*' :: (text ++ c :: tail)) =
          2 + Token.blockCommentLength (depth + 2) (text ++ c :: tail) := rfl
      simp only [List.cons_append, hstep, List.length_cons] at hle
      omega
  | case4 depth text ih =>
      refine congrArg (2 + ·) (ih ?_)
      have hstep : Token.blockCommentLength (depth + 1) ('*' :: '/' :: (text ++ c :: tail)) =
          2 + Token.blockCommentLength depth (text ++ c :: tail) := rfl
      simp only [List.cons_append, hstep, List.length_cons] at hle
      omega
  | case5 depth e text hopen hclose ih =>
      have hstep : ∀ d tail, isNameStart d = true →
          Token.blockCommentLength (depth + 1) (e :: text ++ d :: tail) =
            1 + Token.blockCommentLength (depth + 1) (text ++ d :: tail) := by
        intro d tail hd
        refine Token.blockCommentLength.eq_5 _ _ _ (fun later he heq => ?_) (fun later he heq => ?_)
        · obtain ⟨text, rfl⟩ := exists_cons_of_append_stop (hne hd (by decide)) heq
          exact hopen text he rfl
        · obtain ⟨text, rfl⟩ := exists_cons_of_append_stop (hne hd (by decide)) heq
          exact hclose text he rfl
      rw [hstep d tail' hd, hstep c tail hc]
      rw [hstep c tail hc, List.length_cons] at hle
      exact congrArg (1 + ·) (ih (by omega))

theorem numberLength (h : Alike old new) (hexadecimal : Bool) (last : Char)
    (hlt : numberLength hexadecimal last (text ++ old) < text.length) :
    numberLength hexadecimal last (text ++ new) = numberLength hexadecimal last (text ++ old) := by
  induction text generalizing last with
  | nil => exact absurd hlt (Nat.not_lt_zero _)
  | cons e text ih =>
      have hnext : numberContinues hexadecimal last e (text ++ new).head? =
          numberContinues hexadecimal last e (text ++ old).head? := by
        cases text with
        | nil =>
            obtain ⟨⟨c, tail, rfl, hc⟩, d, tail', rfl, hd⟩ := h.exists_cons
            simp [numberContinues, not_isDigit_of_isNameStart hc, not_isDigit_of_isNameStart hd]
        | cons => rfl
      rw [List.cons_append, Token.numberLength] at hlt
      rw [List.cons_append, List.cons_append, Token.numberLength, Token.numberLength, hnext]
      split
      · rename_i hgoes
        rw [if_pos hgoes, List.length_cons] at hlt
        exact congrArg (1 + ·) (ih e (by omega))
      · rfl

theorem quotedNameLength? (h : Alike old new)
    (hle : ∀ length ∈ quotedNameLength? (text ++ old), length ≤ text.length) :
    quotedNameLength? (text ++ new) = quotedNameLength? (text ++ old) := by
  have hclass : ∀ c, isNameChar c = true → (c != '\x60' && c != '\n') = true := by
    intro c hc
    simp [(ne_of_class hc (by decide) : c ≠ '\x60'), (ne_of_class hc (by decide) : c ≠ '\n')]
  have hstart : ∀ c, isNameStart c = true → (c != '\x60' && c != '\n') = true :=
    fun c hc => hclass c (by simp [isNameChar, hc])
  by_cases hin : ((text ++ old).takeWhile fun c => c != '\x60' && c != '\n').length ≤ text.length
  · have hmark : ((text ++ new)[((text ++ old).takeWhile
        fun c => c != '\x60' && c != '\n').length]? == some '\x60') =
          ((text ++ old)[((text ++ old).takeWhile
            fun c => c != '\x60' && c != '\n').length]? == some '\x60') := by
      obtain ⟨⟨c, tail, rfl, hc⟩, d, tail', rfl, hd⟩ := h.exists_cons
      rw [Bool.eq_iff_iff, beq_iff_eq, beq_iff_eq,
        getElem?_append_stop (ne_of_class hc (by decide)) hin,
        getElem?_append_stop (ne_of_class hd (by decide)) hin]
    unfold Token.quotedNameLength?
    rw [h.takeWhile true hstart hin]
    dsimp only
    rw [hmark]
  · have htext : text.all (fun c => c != '\x60' && c != '\n') = true := by
      rw [List.takeWhile_append] at hin
      split at hin
      · rename_i hlength
        rw [← (List.takeWhile_sublist _).eq_of_length hlength]
        exact List.all_takeWhile
      · exact absurd (length_takeWhile_le _ text) hin
    cases h with
    | @words c d name other right hc hname hd hother =>
        have hrun : ∀ {c name}, isNameStart c = true → name.all isNameChar = true →
            (text ++ c :: name).all (fun c => c != '\x60' && c != '\n') = true := by
          intro c name hc hname
          rw [List.all_append, htext, List.all_cons, hstart c hc, Bool.true_and, Bool.true_and,
            List.all_eq_true]
          exact fun c hmem => hclass c (List.all_eq_true.mp hname c hmem)
        have hold := quotedNameLength?_run (by simp) (hrun hc hname) right
        have hnew := quotedNameLength?_run (by simp) (hrun hd hother) right
        rw [List.append_assoc, List.cons_append] at hold hnew
        rw [hold] at hle
        rw [hold, hnew]
        dsimp only at hle ⊢
        split
        · -- a backtick behind the name would close it
          rename_i hclosed
          have hlt := hle _ (if_pos hclosed)
          simp only [List.length_append, List.length_cons] at hlt
          omega
        · rfl

theorem segment (h : Alike old new) (escaped : Nat)
    (hle : (segment delimiter escaped (text ++ old)).1 ≤ text.length) :
    segment delimiter escaped (text ++ new) = segment delimiter escaped (text ++ old) := by
  obtain ⟨⟨c, tail, rfl, hc⟩, d, tail', rfl, hd⟩ := h.exists_cons
  fun_induction Token.segment delimiter escaped text with
  | case1 escaped =>
      cases escaped with
      | zero => simp [Token.segment, (ne_of_class hc (by decide) : c ≠ '\\'),
          (ne_of_class hc (by decide) : c ≠ '"'), (ne_of_class hc (by decide) : c ≠ '\n')] at hle
      | succ escaped => simp [Token.segment] at hle
  | case2 escaped e text length ending hnext ih =>
      have hrest := ih (by simpa [Token.segment] using hle)
      simp only [List.cons_append, Token.segment, hrest]
  | case3 e text hopen =>
      rw [List.cons_append, List.cons_append, segment_cons_name e hd, segment_cons_name e hc,
        if_pos hopen, if_pos hopen]
  | case4 e text hopen hclosed =>
      rw [List.cons_append, List.cons_append, segment_cons_name e hd, segment_cons_name e hc,
        if_neg hopen, if_neg hopen, if_pos hclosed, if_pos hclosed]
  | case5 e text hopen hclosed hline =>
      rw [List.cons_append, List.cons_append, segment_cons_name e hd, segment_cons_name e hc,
        if_neg hopen, if_neg hopen, if_neg hclosed, if_neg hclosed, if_pos hline, if_pos hline]
  | case6 e text hopen hclosed hline escaped length ending hnext ih =>
      rw [List.cons_append, segment_cons_name e hc, if_neg hopen, if_neg hclosed, if_neg hline,
        List.length_cons] at hle
      have hrest := ih (Nat.le_of_succ_le_succ hle)
      rw [List.cons_append, List.cons_append, segment_cons_name e hd, segment_cons_name e hc,
        if_neg hopen, if_neg hopen, if_neg hclosed, if_neg hclosed, if_neg hline, if_neg hline]
      exact congrArg (fun found => (found.1 + 1, found.2)) hrest

/-! ## Steps that end in front of a name -/

/-- A lexeme that ends in front of the name, a number at least one character before it. -/
def Fits (text : List Char) (found : TokenKind × Nat) : Prop :=
  found.2 ≤ text.length ∧ (found.1 = .number → found.2 < text.length)

theorem Fits.ite {q q' : Prop} [Decidable q] [Decidable q']
    {first first' second second' : TokenKind × Nat}
    (hq : q' ↔ q) (hfirst : q → Fits text first → first' = first)
    (hsecond : ¬ q → Fits text second → second' = second)
    (h : Fits text (if q then first else second)) :
    (if q' then first' else second') = if q then first else second := by
  by_cases hcase : q
  · rw [if_pos hcase] at h
    rw [if_pos hcase, if_pos (hq.mpr hcase)]
    exact hfirst hcase h
  · rw [if_neg hcase] at h
    rw [if_neg hcase, if_neg fun hcase' => hcase (hq.mp hcase')]
    exact hsecond hcase h

theorem lexemeAt (h : Alike old new) (bound : Bool) (c : Char)
    (hfits : Fits text (lexemeAt bound c (text ++ old))) :
    lexemeAt bound c (text ++ new) = lexemeAt bound c (text ++ old) := by
  have hhead : ∀ sign, isNameStart sign = false →
      ((text ++ new).head? = some sign ↔ (text ++ old).head? = some sign) := by
    intro sign hsign
    obtain ⟨⟨c, tail, rfl, hc⟩, d, tail', rfl, hd⟩ := h.exists_cons
    rw [head?_append_stop (ne_of_class hc hsign), head?_append_stop (ne_of_class hd hsign)]
  have hname : ∀ kind, Fits text (if Token.nameLength (text ++ old) = 0 then (.punctuation, 0)
      else (kind, Token.nameLength (text ++ old))) →
        Token.nameLength (text ++ new) = Token.nameLength (text ++ old) := by
    intro kind hfits
    refine h.nameLength ?_
    split at hfits
    · omega
    · exact hfits.1
  unfold Token.lexemeAt at hfits ⊢
  -- both lexemes go the same way at every test; what is left is how long the lexeme is
  refine hfits.ite (and_congr_right fun _ => hhead '/' (by decide)) (fun _ hfits => ?_) fun _ hfits =>
    hfits.ite (and_congr_right fun _ => hhead '*' (by decide)) (fun hblock hfits => ?_) fun _ hfits =>
    hfits.ite Iff.rfl (fun _ hfits => ?_) fun _ hfits =>
    hfits.ite Iff.rfl (fun _ hfits => ?_) fun _ hfits =>
    hfits.ite Iff.rfl (fun _ hfits => ?_) fun _ hfits =>
    hfits.ite Iff.rfl (fun _ hfits => ?_) fun _ hfits =>
    hfits.ite Iff.rfl (fun _ hfits => ?_) fun _ hfits =>
    hfits.ite Iff.rfl (fun _ hfits => rfl) fun _ hfits =>
    hfits.ite Iff.rfl (fun _ hfits => ?_) fun _ hfits =>
    hfits.ite ?_ (fun _ hfits => rfl) fun _ hfits =>
    hfits.ite Iff.rfl (fun _ hfits => ?_) fun _ hfits =>
    hfits.ite Iff.rfl (fun _ hfits => ?_) fun _ hfits => rfl
  · exact congrArg (Prod.mk _) (h.lineLength hfits.1)
  · cases text with
    | nil =>
        obtain ⟨⟨c, tail, rfl, hc⟩, -⟩ := h.exists_cons
        exact absurd (Option.some.inj hblock.2) (ne_of_class hc (by decide))
    | cons e text =>
        have hle : 1 + Token.blockCommentLength 1 (text ++ old) ≤ text.length + 1 := hfits.1
        exact congrArg (fun length => (TokenKind.comment, 1 + length))
          (h.blockCommentLength 1 (by omega))
  · rw [hname _ hfits]
  · rw [hname _ hfits]
  · rw [h.quotedNameLength?]
    intro length hlength
    rw [hlength] at hfits
    exact hfits.1
  · exact congrArg (Prod.mk _) (h.nameLength hfits.1)
  · have hlt := hfits.2 rfl
    cases text with
    | nil => exact absurd hlt (Nat.not_lt_zero _)
    | cons e text => exact congrArg (Prod.mk _) (h.numberLength _ _ hlt)
  · refine h.congr (fun rest =>
      if (rest.takeWhile (· == '.')).length = 0 then (TokenKind.punctuation, 0)
      else (TokenKind.operator, if rest[(rest.takeWhile (· == '.')).length]? = some '<' then
        (rest.takeWhile (· == '.')).length + 1 else (rest.takeWhile (· == '.')).length))
        fun c tail hc => ?_
    have hdots : (text ++ c :: tail).takeWhile (· == '.') = text.takeWhile (· == '.') :=
      takeWhile_append_stop (by simpa using (ne_of_class hc (by decide) : c ≠ '.'))
    have hrange : ((text ++ c :: tail)[(text.takeWhile (· == '.')).length]? = some '<') =
        (text[(text.takeWhile (· == '.')).length]? = some '<') :=
      propext (getElem?_append_stop (ne_of_class hc (by decide)) (length_takeWhile_le _ _))
    simp only [hdots, hrange]
  · exact and_congr_right fun _ => and_congr_right fun _ => not_congr (hhead '=' (by decide))
  · exact congrArg (Prod.mk _) (h.congr Token.operatorLength fun c tail hc =>
      operatorLength_append_stop (not_contains_of_isNameStart hc (by decide)))
  · dsimp only
    rw [h.nameLength hfits.1, List.take_append_of_le_length hfits.1,
      List.take_append_of_le_length hfits.1]

theorem cutSegment (h : Alike old new) (opened : List Interpolation) (lead : List Char)
    (hle : (cutSegment delimiter opened lead (text ++ old)).2.2 ≤ text.length) :
    cutSegment delimiter opened lead (text ++ new) =
      cutSegment delimiter opened lead (text ++ old) := by
  rcases hsegment : Token.segment delimiter 0 (text ++ old) with ⟨length, ending⟩
  have hlength : length ≤ text.length := by
    cases ending with
    | interpolation =>
        simp only [Token.cutSegment, hsegment] at hle
        omega
    | closed | broken => simpa only [Token.cutSegment, hsegment] using hle
  have hsame : Token.segment delimiter 0 (text ++ new) = Token.segment delimiter 0 (text ++ old) :=
    h.segment 0 (by rw [hsegment]; exact hlength)
  simp only [Token.cutSegment, hsame, hsegment, List.take_append_of_le_length hlength]

/-- A step that ends in front of the name, with a number only if that ends earlier. -/
theorem cut (h : Alike old new) (opened : List Interpolation) (before : Option Piece) (c : Char)
    (hle : (cut opened before c (text ++ old)).taken ≤ text.length)
    (hnumber : ∀ literal, (cut opened before c (text ++ old)).pieces = [.lexeme .number literal] →
      (cut opened before c (text ++ old)).taken < text.length) :
    cut opened before c (text ++ new) = cut opened before c (text ++ old) := by
  have hopens : ∀ d tail, isNameStart d = true →
      Delimiter.opening? (c :: (text ++ d :: tail)) = Delimiter.opening? (c :: text) :=
    fun d tail hd => opening?_append_stop (ne_of_class hd (by decide)) (ne_of_class hd (by decide))
      (c :: text)
  have hnew : Delimiter.opening? (c :: (text ++ new)) = Delimiter.opening? (c :: text) := by
    obtain ⟨-, d, tail, rfl, hd⟩ := h.exists_cons
    exact hopens d tail hd
  have hold : Delimiter.opening? (c :: (text ++ old)) = Delimiter.opening? (c :: text) := by
    obtain ⟨⟨d, tail, rfl, hd⟩, -⟩ := h.exists_cons
    exact hopens d tail hd
  rcases char_cases opened c with hblank | ⟨delimiter, outer, rfl, rfl⟩ | hcode
  · rw [cut_blank _ _ _ hblank, cut_blank _ _ _ hblank]
  · rw [cut_closing] at hle
    rw [cut_closing, cut_closing, h.cutSegment outer [] hle]
  · cases hopening : Delimiter.opening? (c :: text) with
    | none =>
        rw [hopening] at hold hnew
        rw [hcode.cut_lexeme before hold] at hle hnumber
        have hfits : Fits text (Token.lexemeAt (before.any Piece.takesSuffix) c (text ++ old)) :=
          ⟨hle, fun hkind => hnumber _ (congrArg (fun kind => [Piece.lexeme kind _]) hkind)⟩
        rw [hcode.cut_lexeme before hold, hcode.cut_lexeme before hnew, h.lexemeAt _ c hfits]
        dsimp only
        rw [List.take_append_of_le_length hle, List.take_append_of_le_length hle]
    | some delimiter =>
        have hwidth := width_le_of_opening? hopening
        have hsplit : ∀ tail, (c :: (text ++ tail)).drop delimiter.width =
            (c :: text).drop delimiter.width ++ tail :=
          fun tail => List.drop_append_of_le_length hwidth
        have hlead : ∀ tail, (c :: (text ++ tail)).take delimiter.width =
            (c :: text).take delimiter.width :=
          fun tail => List.take_append_of_le_length hwidth
        rw [hopening] at hold hnew
        rw [hcode.cut_opening before hold] at hle
        rw [hcode.cut_opening before hold, hcode.cut_opening before hnew]
        simp only [hsplit, hlead] at hle ⊢
        rw [h.cutSegment]
        have hbody : (Token.cutSegment delimiter opened ((c :: text).take delimiter.width)
            ((c :: text).drop delimiter.width ++ old)).2.2 + delimiter.width - 1 ≤ text.length := hle
        rw [List.length_cons] at hwidth
        rw [List.length_drop, List.length_cons]
        omega

end Alike

/-! ## Steps of a text with a given piece -/

theorem eq_nil_of_flatMap_text {first second : List Piece} (h : first.flatMap Piece.text = [])
    (hpieces : piecesFrom opened before text = first ++ second) : first = [] := by
  rw [List.flatMap_eq_nil_iff] at h
  rw [List.eq_nil_iff_forall_not_mem]
  intro piece hpiece
  refine @text_ne_nil_of_mem_piecesFrom opened before text piece ?_ (h piece hpiece)
  rw [hpieces]
  exact List.mem_append_left _ hpiece

/-- A lexeme is a step of its own, so the step before it ends in front of it. -/
theorem exists_later_of_lexeme {name : List Char} {kind : TokenKind} {first second : List Piece}
    (hkind : kind ≠ .string) (hne : first ≠ [])
    (h : piecesFrom opened before (c :: rest) = first ++ .lexeme kind name :: second) :
    ∃ later, first = (cut opened before c rest).pieces ++ later ∧
      piecesFrom (cut opened before c rest).opened (cut opened before c rest).pieces.getLast?
        (rest.drop (cut opened before c rest).taken) = later ++ .lexeme kind name :: second := by
  rw [piecesFrom_cons, List.append_eq_append_iff] at h
  rcases h with ⟨later, hfirst, hrest⟩ | ⟨tail, hfound, htail⟩
  · exact ⟨later, hfirst, hrest⟩
  · cases tail with
    | nil => exact ⟨[], by simpa using hfound.symm, htail.symm⟩
    | cons piece tail =>
        obtain ⟨rfl, -⟩ := List.cons.inj htail
        have hone : (cut opened before c rest).pieces = [.lexeme kind name] :=
          pieces_cut_eq_singleton hkind (by rw [hfound]; simp)
        rw [hone] at hfound
        obtain ⟨first, front, rfl⟩ := List.exists_cons_of_ne_nil hne
        simp at hfound

/-- A step whose pieces stand in front of some text ends there, too. -/
theorem taken_le_of_text_pieces {left later : List Char} (hold : old ≠ [])
    (h : (cut opened before c (left ++ old)).pieces.flatMap Piece.text ++ later = c :: left) :
    (cut opened before c (left ++ old)).taken ≤ left.length ∧
      later = left.drop (cut opened before c (left ++ old)).taken := by
  have hcut := flatMap_text_cut opened before c (left ++ old)
  rw [← List.cons_append, ← h, List.append_assoc] at hcut
  have hdrop := List.append_cancel_left hcut
  have hlength := congrArg List.length hdrop
  have hpos := List.length_pos_iff.mpr hold
  rw [List.length_drop, List.length_append, List.length_append] at hlength
  have hle : (cut opened before c (left ++ old)).taken ≤ left.length := by omega
  rw [List.drop_append_of_le_length hle] at hdrop
  exact ⟨hle, (List.append_cancel_right hdrop).symm⟩

/-- What stands in front of the name is cut in the same way. -/
theorem Alike.exists_piecesFrom (h : Alike old new) {left name : List Char} {kind : TokenKind}
    {first second : List Piece} (hkind : kind ≠ .string)
    (hpieces : piecesFrom opened before (left ++ old) = first ++ .lexeme kind name :: second)
    (hleft : first.flatMap Piece.text = left)
    (hnumber : ∀ literal, first.getLast? ≠ some (.lexeme .number literal)) :
    ∃ inner last, piecesFrom inner last old = .lexeme kind name :: second ∧
      piecesFrom opened before (left ++ new) = first ++ piecesFrom inner last new := by
  generalize htext : left ++ old = text at hpieces
  induction opened, before, text using piecesFrom.induct generalizing left first with
  | case1 =>
      rw [piecesFrom_nil] at hpieces
      exact absurd hpieces.symm (by simp)
  | case2 opened before c rest found =>
      rename_i ih
      cases left with
      | nil =>
          obtain rfl : first = [] := eq_nil_of_flatMap_text hleft hpieces
          rw [List.nil_append] at htext hpieces
          exact ⟨opened, before, by rw [htext]; exact hpieces, rfl⟩
      | cons e left =>
          rw [List.cons_append, List.cons.injEq] at htext
          obtain ⟨rfl, rfl⟩ := htext
          have hne : first ≠ [] := by
            rintro rfl
            cases hleft
          have hold : old ≠ [] := by
            obtain ⟨⟨c, tail, rfl, -⟩, -⟩ := h.exists_cons
            exact List.cons_ne_nil c tail
          obtain ⟨later, rfl, hrest⟩ := exists_later_of_lexeme hkind hne hpieces
          rw [List.flatMap_append] at hleft
          obtain ⟨hle, hlater⟩ := taken_le_of_text_pieces hold hleft
          have hsame : Token.cut opened before e (left ++ new) = found := by
            refine h.cut opened before e hle fun literal hliteral => ?_
            refine Nat.lt_of_le_of_ne hle fun htaken => hnumber literal ?_
            -- nothing stands between the number and the name
            rw [htaken, List.drop_length] at hlater
            rw [eq_nil_of_flatMap_text hlater hrest, List.append_nil, hliteral]
            rfl
          have hnew : piecesFrom opened before (e :: left ++ new) = found.pieces ++
              piecesFrom found.opened found.pieces.getLast? (left.drop found.taken ++ new) := by
            rw [List.cons_append, piecesFrom_cons, hsame, List.drop_append_of_le_length hle]
          have hlast : ∀ literal, later.getLast? ≠ some (.lexeme .number literal) := by
            intro literal hlast
            refine hnumber literal ?_
            rw [List.getLast?_append, hlast, Option.some_or]
          obtain ⟨inner, last, hname, hfront⟩ :=
            ih hlater hlast (List.drop_append_of_le_length hle).symm hrest
          refine ⟨inner, last, hname, ?_⟩
          rw [hnew, hfront, List.append_assoc]

/-! ## Words -/

/-- A name that starts with a letter or `_`, or with a character beyond ASCII that names can start
with. -/
def IsWord (name : List Char) : Prop :=
  ∃ c rest, name = c :: rest ∧ isNameStart c = true ∧ rest.all isNameChar = true

theorem alike_words {name other : List Char} (right : List Char) (hname : IsWord name)
    (hother : IsWord other) : Alike (name ++ right) (other ++ right) := by
  obtain ⟨c, name, rfl, hc, hname⟩ := hname
  obtain ⟨d, other, rfl, hd, hother⟩ := hother
  exact .words right hc hname hd hother

theorem SpellsName.isWord {name : List Char} (h : SpellsName name)
    (hstart : ∀ c ∈ name.head?, isNameStart c = true) : IsWord name := by
  cases h with
  | word _ hrest => exact ⟨_, _, rfl, hstart _ rfl, hrest⟩
  | hash => cases hstart '#' rfl
  | quoted => cases hstart '\x60' rfl

/-- A word up to the end of the name is a lexeme, and reading goes on after it as after any name. -/
theorem piecesFrom_word (opened : List Interpolation) (before : Option Piece)
    {name right : List Char} (h : IsWord name) (hright : ∀ d ∈ right.head?, isNameChar d = false) :
    piecesFrom opened before (name ++ right) =
      .lexeme (if Keyword.isReserved name then .keyword else .identifier) name ::
        piecesFrom opened (some (.lexeme .identifier [])) right := by
  obtain ⟨c, name, rfl, hc, hname⟩ := h
  obtain ⟨hcode, hopening⟩ := isCode_of_spellsName opened (.word (.inl hc) hname) right
  have hround : ∀ sign, isNameStart sign = false → c ≠ sign := fun _ => ne_of_class hc
  have hafter : ∀ kind, kind = .keyword ∨ kind = .identifier →
      piecesFrom opened (some (.lexeme kind (c :: name))) right =
        piecesFrom opened (some (.lexeme .identifier [])) right := by
    rintro kind (rfl | rfl) <;> exact piecesFrom_code_start opened _ _ right rfl
  rw [List.cons_append, piecesFrom_cons, hcode.cut_lexeme before hopening,
    lexemeAt_word_eq _ hc hname hright]
  simp only [List.take_left, List.drop_left, hround '(' (by decide), hround ')' (by decide),
    if_false]
  refine congrArg (_ :: ·) (hafter _ ?_)
  split
  · exact .inl rfl
  · exact .inr rfl

theorem head_right_of_piecesFrom {name right : List Char} {kind : TokenKind} {second : List Piece}
    (hname : IsWord name)
    (h : piecesFrom opened before (name ++ right) = .lexeme kind name :: second) :
    ∀ d ∈ right.head?, isNameChar d = false := by
  obtain ⟨c, rest, rfl, hc, hrest⟩ := hname
  have hsplit : c :: rest ++ right = (c :: (rest ++ right).takeWhile isNameChar) ++
      (rest ++ right).dropWhile isNameChar := by
    rw [List.cons_append, List.cons_append, List.takeWhile_append_dropWhile]
  have hstop : ∀ d ∈ ((rest ++ right).dropWhile isNameChar).head?, isNameChar d = false := by
    intro d hd
    have hne : (rest ++ right).dropWhile isNameChar ≠ [] := by
      intro hnil
      rw [hnil] at hd
      cases hd
    have hhead := List.head_dropWhile_not isNameChar hne
    rw [List.head?_eq_some_head hne, Option.mem_some] at hd
    rw [← hd]
    exact hhead
  rw [hsplit, piecesFrom_word opened before ⟨c, _, rfl, hc, List.all_takeWhile⟩ hstop] at h
  have hliteral := (List.cons.inj (Piece.lexeme.inj (List.cons.inj h).1).2).2
  rw [List.takeWhile_append_of_pos (List.all_eq_true.mp hrest)] at hliteral
  have hnone := List.append_cancel_left (hliteral.trans (List.append_nil rest).symm)
  intro d hd
  rw [Bool.eq_false_iff]
  intro hgoes
  obtain ⟨tail, rfl⟩ := List.head?_eq_some_iff.mp hd
  rw [List.takeWhile_cons_of_pos hgoes] at hnone
  cases hnone

end CaptureLint.Token

namespace CaptureLint.Source

open Token

variable {source : Source} {left name other right : List Char} {earlier later : List Token}
  {token : Token}

/-- The place of a word among the tokens can be taken by any other word, unless a number ends right
before it. -/
theorem tokens_renamed (hchars : source.chars = left ++ (name ++ right))
    (htokens : source.tokens = earlier ++ token :: later) (hstart : token.start = bytesOf left)
    (hkind : token.kind.isName = true) (htext : token.text = name) (hname : IsWord name)
    (hnumber : ∀ last ∈ earlier.getLast?, last.kind ≠ .number)
    (hother : IsWord other) (hbytes : bytesOf other = bytesOf name) :
    Source.tokens { source with chars := left ++ (other ++ right) } =
      earlier ++ ⟨if Keyword.isReserved other then .keyword else .identifier, token.start, other⟩ ::
        later := by
  obtain ⟨first, second, hpieces, hfirst, hlater⟩ := locate_split htokens
  have hcode : token.kind ≠ .string := by
    intro hstring
    rw [hstring] at hkind
    cases hkind
  have hparts := hpieces
  rw [htext] at hpieces
  have htext' := flatMap_text_pieces source.chars
  rw [hpieces, List.flatMap_append, List.flatMap_cons] at htext'
  obtain rfl : left = first.flatMap Piece.text :=
    (excerpt_unique hchars htext'.symm (by rw [← hstart, hfirst, Nat.zero_add])).1
  have hearlier : earlier = locate 0 first := by
    have hall := htokens
    rw [tokens, Token.tokens, hparts, locate_append, locate, ← hfirst, hlater] at hall
    exact (List.append_cancel_right hall).symm
  have hlast : ∀ literal, first.getLast? ≠ some (.lexeme .number literal) := by
    intro literal hlast
    obtain ⟨front, rfl⟩ := List.getLast?_eq_some_iff.mp hlast
    refine hnumber ⟨.number, 0 + bytesOf (front.flatMap Piece.text), literal⟩ ?_ rfl
    rw [hearlier, locate_append]
    simp [locate]
  rw [pieces, hchars] at hpieces
  obtain ⟨inner, last, hword, hfront⟩ :=
    (alike_words right hname hother).exists_piecesFrom hcode hpieces rfl hlast
  have hright := head_right_of_piecesFrom hname hword
  rw [piecesFrom_word inner last hname hright] at hword
  rw [tokens, Token.tokens, pieces, hfront, piecesFrom_word inner last hother hright,
    (List.cons.inj hword).2, locate_append, ← hearlier, locate, ← hfirst, hbytes, hlater,
    Token.stop_eq, htext]

end CaptureLint.Source
