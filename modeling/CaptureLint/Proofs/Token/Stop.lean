import CaptureLint.Proofs.Token.Stream

/-!
# Reading in front of a stop

No lexeme looks beyond the end of its line or beyond a closing bracket, apart from comments and
string literals.  These either end before such a stop, and then do not depend on what follows it, or
take it up whatever follows.
-/

namespace CaptureLint.Token

/-- A sign that ends the lexemes in front of it, and a text after it: a newline or a closing
bracket.  Where a lone backtick stands in front of the bracket, none follows on the line, as it
would be the other end of a name. -/
inductive Stop (lone : Prop) : Char → List Char → Prop where
  | newline (tail : List Char) : Stop lone '\n' tail
  | bracket {tail : List Char} (hquote : lone → '\x60' ∉ tail.takeWhile (· != '\n')) :
      Stop lone ')' tail

/-- A reader in front of a stop ends there and finds what it would find without it, or it reads past
the stop, whatever follows.  `taken` is the number of characters that it reads. -/
def StopsOrPasses {α : Type} (lone : Prop) (sign : Char) (taken : α → Nat) (read : List Char → α)
    (text : List Char) : Prop :=
  (taken (read text) ≤ text.length ∧
    ∀ tail, Stop lone sign tail → read (text ++ sign :: tail) = read text) ∨
  ∀ tail, Stop lone sign tail → text.length < taken (read (text ++ sign :: tail))

variable {lone : Prop} {p : Char → Bool} {c sign : Char} {text rest tail : List Char}

theorem Stop.ne (h : Stop lone sign tail) (hnewline : '\n' ≠ c) (hbracket : ')' ≠ c) :
    sign ≠ c := by
  cases h with
  | newline => exact hnewline
  | bracket => exact hbracket

theorem takeWhile_append_stop (hp : p sign = false) :
    (text ++ sign :: tail).takeWhile p = text.takeWhile p := by
  induction text with
  | nil => simp [hp]
  | cons c text ih => simp only [List.cons_append, List.takeWhile_cons, ih]

theorem Stop.takeWhile (h : Stop lone sign tail) (hnewline : p '\n' = false)
    (hbracket : p ')' = false) : (text ++ sign :: tail).takeWhile p = text.takeWhile p := by
  cases h with
  | newline => exact takeWhile_append_stop hnewline
  | bracket => exact takeWhile_append_stop hbracket

theorem takeWhile_hashes (hashes : Nat) (hc : c ≠ '#') (rest : List Char) :
    (List.replicate hashes '#' ++ c :: rest).takeWhile (· == '#') = List.replicate hashes '#' := by
  rw [List.takeWhile_append_of_pos (by simp), List.takeWhile_cons_of_neg (by simpa using hc),
    List.append_nil]

theorem head?_append_stop (hc : sign ≠ c) :
    (text ++ sign :: tail).head? = some c ↔ text.head? = some c := by
  cases text with
  | nil => simp [hc]
  | cons d text => simp

theorem getElem?_append_stop (hc : sign ≠ c) {place : Nat} (hplace : place ≤ text.length) :
    (text ++ sign :: tail)[place]? = some c ↔ text[place]? = some c := by
  rcases Nat.lt_or_eq_of_le hplace with hlt | rfl
  · rw [List.getElem?_append_left hlt]
  · simp [hc]

theorem exists_cons_of_append_stop (hc : sign ≠ c) (h : text ++ sign :: tail = c :: rest) :
    ∃ rest, text = c :: rest := by
  cases text with
  | nil => exact absurd (List.cons.inj h).1 hc
  | cons d text => exact ⟨text, by rw [(List.cons.inj h).1]⟩

theorem length_takeWhile_le (p : Char → Bool) (text : List Char) :
    (text.takeWhile p).length ≤ text.length :=
  (List.takeWhile_sublist p).length_le

/-! ## Lexemes that end with their line -/

theorem Stop.nameLength (h : Stop lone sign tail) :
    nameLength (text ++ sign :: tail) = nameLength text :=
  congrArg List.length (h.takeWhile (p := isNameChar) (by decide) (by decide))

theorem opensComment_append_stop (hslash : sign ≠ '/') (hstar : sign ≠ '*') :
    opensComment (text ++ sign :: tail) = opensComment text := by
  cases text with
  | nil => simp [opensComment, hslash, hstar]
  | cons c text => rfl

theorem operatorLength_append_stop (h : isOperatorChar sign = false) :
    operatorLength (text ++ sign :: tail) = operatorLength text := by
  have hne : ∀ c, isOperatorChar c = true → sign ≠ c := by
    rintro c hc rfl
    rw [hc] at h
    cases h
  induction text with
  | nil => simp [operatorLength, h]
  | cons c text ih =>
      rw [List.cons_append, operatorLength, operatorLength, ih,
        opensComment_append_stop (hne _ (by decide)) (hne _ (by decide))]

theorem Stop.operatorLength (h : Stop lone sign tail) :
    operatorLength (text ++ sign :: tail) = operatorLength text := by
  refine operatorLength_append_stop ?_
  cases h <;> rfl

theorem operatorLength_le (text : List Char) : operatorLength text ≤ text.length := by
  induction text with
  | nil => exact Nat.le_refl _
  | cons c text ih =>
      rw [operatorLength, List.length_cons]
      split <;> omega

theorem quotedNameLength?_le {length : Nat} (h : quotedNameLength? text = some length) :
    length ≤ text.length := by
  simp only [quotedNameLength?, Option.ite_none_right_eq_some, Bool.and_eq_true, beq_iff_eq,
    Option.some.injEq] at h
  obtain ⟨⟨-, hplace⟩, rfl⟩ := h
  exact (List.getElem?_eq_some_iff.mp hplace).1

theorem split_of_quotedNameLength? {length : Nat} (h : quotedNameLength? text = some length) :
    ∃ name, text.take length = name ++ ['\x60'] ∧ name ≠ [] ∧
      name.all (fun c => c != '\x60' && c != '\n') = true := by
  unfold quotedNameLength? at h
  dsimp only at h
  generalize hname : (text.takeWhile fun c => c != '\x60' && c != '\n') = name at h
  simp only [Option.ite_none_right_eq_some, Bool.and_eq_true, Bool.not_eq_true',
    List.isEmpty_eq_false_iff, beq_iff_eq, Option.some.injEq] at h
  obtain ⟨⟨hne, hquote⟩, rfl⟩ := h
  refine ⟨name, ?_, hne, hname ▸ List.all_takeWhile⟩
  have hprefix : name <+: text := hname ▸ List.takeWhile_prefix _
  rw [List.take_add_one, hquote, ← List.prefix_iff_eq_take.mp hprefix]
  rfl

theorem quotedNameLength?_eq_none (h : '\x60' ∉ text.takeWhile (· != '\n')) :
    quotedNameLength? text = none := by
  cases hquoted : quotedNameLength? text with
  | none => rfl
  | some length =>
      obtain ⟨name, htake, -, hname⟩ := split_of_quotedNameLength? hquoted
      have hline : ∀ c ∈ name ++ ['\x60'], (c != '\n') = true := by
        intro c hc
        rw [List.mem_append, List.mem_singleton] at hc
        rcases hc with hc | rfl
        · exact ((Bool.and_eq_true _ _).mp (List.all_eq_true.mp hname c hc)).2
        · rfl
      refine absurd ?_ h
      rw [← List.take_append_drop length text, htake, List.takeWhile_append_of_pos hline]
      simp

theorem Stop.quotedNameLength? (h : Stop lone sign tail)
    (hlone : quotedNameLength? text = none → lone) :
    quotedNameLength? (text ++ sign :: tail) = quotedNameLength? text := by
  have hle := length_takeWhile_le (fun c => c != '\x60' && c != '\n') text
  by_cases hwhole : (text.takeWhile fun c => c != '\x60' && c != '\n') = text ∧ sign = ')'
  · -- a name that is open in front of the bracket is not closed behind it
    obtain ⟨hwhole, rfl⟩ := hwhole
    have hall := List.all_takeWhile (p := fun c => c != '\x60' && c != '\n') (l := text)
    rw [hwhole, List.all_eq_true] at hall
    have hquote : '\x60' ∉ text := fun hmem => by simpa using hall _ hmem
    have hline : ∀ c ∈ text, (c != '\n') = true :=
      fun c hc => ((Bool.and_eq_true _ _).mp (hall c hc)).2
    have hnone : Token.quotedNameLength? text = none :=
      quotedNameLength?_eq_none fun hmem => hquote ((List.takeWhile_sublist _).subset hmem)
    cases h with
    | bracket htail =>
        rw [hnone, quotedNameLength?_eq_none]
        rw [List.takeWhile_append_of_pos hline, List.takeWhile_cons_of_pos (by decide),
          List.mem_append, List.mem_cons]
        simp only [hquote, htail (hlone hnone), false_or, or_false]
        decide
  · have hsame : ((text ++ sign :: tail).takeWhile fun c => c != '\x60' && c != '\n') =
        text.takeWhile fun c => c != '\x60' && c != '\n' := by
      cases h with
      | newline => exact takeWhile_append_stop (by decide)
      | bracket =>
          rw [List.takeWhile_append, if_neg]
          intro hlength
          exact hwhole ⟨(List.takeWhile_sublist _).eq_of_length hlength, rfl⟩
    unfold Token.quotedNameLength?
    rw [hsame]
    simp only [Bool.and_eq_true, beq_iff_eq,
      getElem?_append_stop (h.ne (c := '\x60') (by decide) (by decide)) hle]

theorem Stop.numberContinues (h : Stop lone sign tail) (hexadecimal : Bool) (last c : Char) :
    numberContinues hexadecimal last c (text ++ sign :: tail).head? =
      numberContinues hexadecimal last c text.head? := by
  cases text with
  | nil => cases h <;> rfl
  | cons d text => rfl

theorem Stop.numberLength (h : Stop lone sign tail) (hexadecimal : Bool) (last : Char) :
    numberLength hexadecimal last (text ++ sign :: tail) =
      numberLength hexadecimal last text := by
  induction text generalizing last with
  | nil => cases h <;> simp [Token.numberLength, Token.numberContinues]
  | cons c text ih =>
      rw [List.cons_append, Token.numberLength, Token.numberLength, ih, h.numberContinues]

theorem numberLength_le (hexadecimal : Bool) (last : Char) (text : List Char) :
    numberLength hexadecimal last text ≤ text.length := by
  induction text generalizing last with
  | nil => exact Nat.le_refl _
  | cons c text ih =>
      have hrest := ih c
      rw [numberLength, List.length_cons]
      split <;> omega

/-- Anything but a comment ends before a stop. -/
theorem Stop.lexemeAt (h : Stop lone sign tail) (bound : Bool)
    (hcode : ¬ (c = '/' ∧ (rest.head? = some '/' ∨ rest.head? = some '*')))
    (hlone : c = '\x60' → Token.quotedNameLength? rest = none → lone) :
    lexemeAt bound c (rest ++ sign :: tail) = lexemeAt bound c rest := by
  have hhead : ∀ d, sign ≠ d → ((rest ++ sign :: tail).head? = some d) = (rest.head? = some d) :=
    fun d hd => propext (head?_append_stop hd)
  have hhead' : ∀ d, sign ≠ d → ((rest ++ sign :: tail).head? == some d) = (rest.head? == some d) :=
    fun d hd => by rw [Bool.eq_iff_iff, beq_iff_eq, beq_iff_eq, hhead d hd]
  have hname : (rest ++ sign :: tail).take (Token.nameLength rest) =
      rest.take (Token.nameLength rest) :=
    List.take_append_of_le_length (length_takeWhile_le _ _)
  have hdots : (rest ++ sign :: tail).takeWhile (· == '.') = rest.takeWhile (· == '.') :=
    h.takeWhile (p := (· == '.')) (by decide) (by decide)
  have hrange : ((rest ++ sign :: tail)[(rest.takeWhile (· == '.')).length]? = some '<') =
      (rest[(rest.takeWhile (· == '.')).length]? = some '<') :=
    propext (getElem?_append_stop (h.ne (by decide) (by decide)) (length_takeWhile_le _ _))
  have hline : ¬ (c = '/' ∧ rest.head? = some '/') := fun hslash => hcode ⟨hslash.1, .inl hslash.2⟩
  have hblock : ¬ (c = '/' ∧ rest.head? = some '*') := fun hslash => hcode ⟨hslash.1, .inr hslash.2⟩
  unfold Token.lexemeAt
  simp only [ne_eq, hhead '/' (h.ne (by decide) (by decide)),
    hhead '*' (h.ne (by decide) (by decide)), hline, hblock, if_false,
    hhead '=' (h.ne (by decide) (by decide)), hhead' 'x' (h.ne (by decide) (by decide)),
    hhead' 'X' (h.ne (by decide) (by decide)), hname, hdots, hrange, h.nameLength, h.numberLength,
    h.operatorLength]
  by_cases hquote : c = '\x60'
  · rw [h.quotedNameLength? (hlone hquote)]
  · simp only [hquote, if_false]

theorem length_lexemeAt_le (bound : Bool) (h : ¬ (c = '/' ∧ rest.head? = some '*')) :
    (lexemeAt bound c rest).2 ≤ rest.length := by
  have hname : nameLength rest ≤ rest.length := length_takeWhile_le _ _
  have hif : ∀ {q : Prop} [Decidable q] {first second : TokenKind × Nat},
      first.2 ≤ rest.length → second.2 ≤ rest.length →
        (if q then first else second).2 ≤ rest.length := by
    intro q _ first second hfirst hsecond
    split
    · exact hfirst
    · exact hsecond
  unfold lexemeAt
  rw [if_neg h]
  repeat' apply hif
  all_goals try exact Nat.zero_le _
  all_goals try exact hname
  · exact length_takeWhile_le _ _
  · cases hquoted : quotedNameLength? rest with
    | none => exact Nat.zero_le _
    | some length => exact quotedNameLength?_le hquoted
  · exact numberLength_le _ _ _
  · -- a `<` after the dots is still in front of the newline
    show (if rest[(rest.takeWhile (· == '.')).length]? = some '<' then
      (rest.takeWhile (· == '.')).length + 1 else (rest.takeWhile (· == '.')).length) ≤ rest.length
    split
    · rename_i hrange
      exact (List.getElem?_eq_some_iff.mp hrange).1
    · exact length_takeWhile_le _ _
  · exact operatorLength_le _

/-! ## Lexemes that may go on -/

/-- A reader that takes up some characters and then reads on. -/
theorem StopsOrPasses.later {α β : Type} {taken : α → Nat} {taken' : β → Nat}
    {read : List Char → α} {next : List Char → β} {text : List Char} (first : List Char)
    (step : β → α) (h : StopsOrPasses lone sign taken' next text)
    (htaken : ∀ found, taken (step found) = first.length + taken' found)
    (hread : read (first ++ text) = step (next text))
    (hread' : ∀ tail, Stop lone sign tail →
      read (first ++ text ++ sign :: tail) = step (next (text ++ sign :: tail))) :
    StopsOrPasses lone sign taken read (first ++ text) := by
  rw [StopsOrPasses, List.length_append]
  rcases h with ⟨hle, hsame⟩ | hpass
  · refine .inl ⟨?_, fun tail hstop => by rw [hread' tail hstop, hsame tail hstop, hread]⟩
    rw [hread, htaken]
    omega
  · refine .inr fun tail hstop => ?_
    have hlt := hpass tail hstop
    rw [hread' tail hstop, htaken]
    omega

theorem stopsOrPasses_blockCommentLength (lone : Prop) (sign : Char) (depth : Nat)
    (text : List Char) : StopsOrPasses lone sign id (blockCommentLength depth) text := by
  fun_induction blockCommentLength depth text with
  | case1 text =>
      refine .inl ⟨?_, fun tail _ => ?_⟩
      · rw [blockCommentLength]
        exact Nat.zero_le _
      · rw [blockCommentLength, blockCommentLength]
  | case2 depth =>
      refine .inr fun tail hstop => ?_
      cases hstop <;> exact Nat.lt_of_lt_of_le Nat.zero_lt_one (Nat.le_add_right 1 _)
  | case3 depth text ih =>
      exact ih.later ['/', '*'] (2 + ·) (fun _ => rfl) rfl fun _ _ => rfl
  | case4 depth text ih =>
      exact ih.later ['*', '/'] (2 + ·) (fun _ => rfl) rfl fun _ _ => rfl
  | case5 depth c text hopen hclose ih =>
      refine ih.later [c] (1 + ·) (fun _ => rfl) ?_ fun tail hstop => ?_
      · exact blockCommentLength.eq_5 _ _ _ hopen hclose
      · -- the stop is not the second sign of a pair
        refine blockCommentLength.eq_5 _ _ _ (fun later hc heq => ?_) (fun later hc heq => ?_)
        · obtain ⟨text, rfl⟩ :=
            exists_cons_of_append_stop (hstop.ne (by decide) (by decide)) heq
          exact hopen text hc rfl
        · obtain ⟨text, rfl⟩ :=
            exists_cons_of_append_stop (hstop.ne (by decide) (by decide)) heq
          exact hclose text hc rfl

/-- A line comment takes up a bracket, but not the end of its line. -/
theorem stopsOrPasses_lineLength (lone : Prop) (sign : Char) (text : List Char) :
    StopsOrPasses lone sign id lineLength text := by
  induction text with
  | nil =>
      by_cases hline : sign = '\n'
      · exact .inl ⟨Nat.le_refl _, fun tail _ => by simp [lineLength, hline]⟩
      · exact .inr fun tail _ => by simp [lineLength, hline]
  | cons c text ih =>
      by_cases hline : c = '\n'
      · refine .inl ⟨?_, fun tail _ => ?_⟩
        · simp [lineLength, hline]
        · simp [lineLength, hline]
      · have hstep : ∀ text, lineLength (c :: text) = 1 + lineLength text := by
          intro text
          simp [lineLength, hline, Nat.add_comm]
        exact ih.later [c] (1 + ·) (fun _ => rfl) (hstep text) fun tail _ => hstep _

theorem stopsOrPasses_lexemeAt (lone : Prop) (sign : Char) (bound : Bool)
    (hlone : c = '\x60' → quotedNameLength? rest = none → lone) :
    StopsOrPasses lone sign Prod.snd (lexemeAt bound c) rest := by
  by_cases hcomment : c = '/' ∧ (rest.head? = some '/' ∨ rest.head? = some '*')
  · obtain ⟨rfl, hline | hblock⟩ := hcomment
    · obtain ⟨text, rfl⟩ := List.head?_eq_some_iff.mp hline
      have hread : ∀ text, lexemeAt bound '/' (['/'] ++ text) =
          (.comment, 1 + lineLength text) := by
        intro text
        simp [lexemeAt, lineLength, Nat.add_comm]
      exact (stopsOrPasses_lineLength lone sign text).later ['/']
        (fun length => (.comment, 1 + length)) (fun _ => rfl) (hread text)
        fun tail _ => hread (text ++ sign :: tail)
    · obtain ⟨text, rfl⟩ := List.head?_eq_some_iff.mp hblock
      have hread : ∀ text, lexemeAt bound '/' (['*'] ++ text) =
          (.comment, 1 + blockCommentLength 1 text) := by
        intro text
        simp [lexemeAt]
      exact (stopsOrPasses_blockCommentLength lone sign 1 text).later ['*']
        (fun length => (.comment, 1 + length)) (fun _ => rfl) (hread text)
        fun tail _ => hread (text ++ sign :: tail)
  · refine .inl ⟨length_lexemeAt_le bound fun hblock => hcomment ⟨hblock.1, .inr hblock.2⟩, ?_⟩
    exact fun tail hstop => hstop.lexemeAt bound hcomment hlone

/-! ## Segments of string literals -/

variable (delimiter : Delimiter)

theorem escapes_append_stop (hhash : sign ≠ '#') :
    delimiter.escapes (text ++ sign :: tail) = delimiter.escapes text := by
  rw [Delimiter.escapes, Delimiter.escapes, takeWhile_append_stop (by simpa using hhash)]

theorem interpolates_append_stop (hhash : sign ≠ '#') (hround : sign ≠ '(') :
    delimiter.interpolates (text ++ sign :: tail) = delimiter.interpolates text := by
  rw [Delimiter.interpolates, Delimiter.interpolates, escapes_append_stop delimiter hhash]
  cases hescapes : delimiter.escapes text with
  | false => rfl
  | true =>
      -- the signs of the escape stand in front of the stop
      have hle := length_takeWhile_le (· == '#') text
      rw [beq_iff_eq.mp hescapes] at hle
      rw [Bool.true_and, Bool.true_and, Bool.eq_iff_iff, beq_iff_eq, beq_iff_eq]
      exact getElem?_append_stop hround hle

theorem Stop.escapes (h : Stop lone sign tail) :
    delimiter.escapes (text ++ sign :: tail) = delimiter.escapes text :=
  escapes_append_stop delimiter (h.ne (by decide) (by decide))

theorem Stop.interpolates (h : Stop lone sign tail) :
    delimiter.interpolates (text ++ sign :: tail) = delimiter.interpolates text :=
  interpolates_append_stop delimiter (h.ne (by decide) (by decide)) (h.ne (by decide) (by decide))

theorem isPrefixOf_append_stop {closing : List Char} (h : sign ∉ closing) :
    closing.isPrefixOf (text ++ sign :: tail) = closing.isPrefixOf text := by
  induction closing generalizing text with
  | nil => simp
  | cons d closing ih =>
      simp only [List.mem_cons, not_or] at h
      cases text with
      | nil => simp [List.isPrefixOf, Ne.symm h.1]
      | cons c text => simp only [List.cons_append, List.isPrefixOf, ih h.2]

theorem Stop.not_mem_closing (h : Stop lone sign tail) : sign ∉ delimiter.closing := by
  cases h <;> simp [Delimiter.closing]

/-- A segment that a closing delimiter ends holds the delimiter. -/
theorem width_le_of_isPrefixOf (h : delimiter.closing.isPrefixOf text = true) :
    delimiter.width ≤ text.length := by
  have hle := (List.isPrefixOf_iff_prefix.mp h).length_le
  simpa [Delimiter.closing, Delimiter.width] using hle

theorem stopsOrPasses_segment (lone : Prop) (sign : Char) (escaped : Nat) (text : List Char) :
    StopsOrPasses lone sign Prod.fst (segment delimiter escaped) text := by
  have hprefix : ∀ c text tail, Stop lone sign tail →
      delimiter.closing.isPrefixOf (c :: (text ++ sign :: tail)) =
        delimiter.closing.isPrefixOf (c :: text) := by
    intro c text tail hstop
    rw [← List.cons_append]
    exact isPrefixOf_append_stop (hstop.not_mem_closing delimiter)
  fun_induction segment delimiter escaped text with
  | case1 escaped =>
      by_cases hline : (escaped = 0 ∧ delimiter.multiline = false) ∧ sign = '\n'
      · obtain ⟨⟨rfl, hmultiline⟩, rfl⟩ := hline
        exact .inl ⟨Nat.le_refl _, fun tail _ => by simp [segment, hmultiline]⟩
      · -- an escape or a literal of several lines takes up a newline, any literal a bracket
        refine .inr fun tail hstop => ?_
        cases escaped with
        | zero =>
            cases hstop with
            | newline =>
                have hmultiline : delimiter.multiline = true := by simpa using hline
                simp [segment, hmultiline]
            | bracket => simp [segment]
        | succ escaped => simp [segment]
  | case2 escaped c text length ending hnext ih =>
      exact ih.later [c] (fun found => (found.1 + 1, found.2))
        (fun _ => Nat.add_comm _ _) rfl fun _ _ => rfl
  | case3 c text hopen =>
      refine .inl ⟨by simp [segment, hopen], fun tail hstop => ?_⟩
      simp [segment, hopen, hstop.interpolates]
  | case4 c text hopen hclosed =>
      refine .inl ⟨?_, fun tail hstop => ?_⟩
      · rw [segment, if_neg hopen, if_pos hclosed]
        exact width_le_of_isPrefixOf delimiter hclosed.2
      · rw [List.cons_append, segment, segment, hstop.interpolates, hprefix _ _ _ hstop,
          if_neg hopen, if_pos hclosed, if_neg hopen, if_pos hclosed]
  | case5 c text hopen hclosed hline =>
      refine .inl ⟨by simp [segment, hline], fun tail _ => ?_⟩
      simp [segment, hline]
  | case6 c text hopen hclosed hline escaped length ending hnext ih =>
      refine ih.later [c] (fun found => (found.1 + 1, found.2))
        (fun _ => Nat.add_comm _ _) ?_ fun tail hstop => ?_
      · rw [List.singleton_append, segment, if_neg hopen, if_neg hclosed, if_neg hline]
      · rw [List.singleton_append, List.cons_append, segment, hstop.interpolates,
          hprefix _ _ _ hstop, hstop.escapes, if_neg hopen, if_neg hclosed, if_neg hline]

theorem opening?_append_stop (hhash : sign ≠ '#') (hquote : sign ≠ '"') (text : List Char) :
    Delimiter.opening? (text ++ sign :: tail) = Delimiter.opening? text := by
  unfold Delimiter.opening?
  dsimp only
  rw [takeWhile_append_stop (p := (· == '#')) (by simpa using hhash),
    List.drop_append_of_le_length (length_takeWhile_le _ _)]
  rcases text.drop (text.takeWhile (· == '#')).length with _ | ⟨c, _ | ⟨d, _ | ⟨e, rest⟩⟩⟩
  · simp [hquote]
  · by_cases hc : c = '"' <;> simp [hc, hquote]
  · by_cases hc : c = '"' <;> by_cases hd : d = '"' <;> simp [hc, hd, hquote]
  · by_cases hc : c = '"' <;> by_cases hd : d = '"' <;> by_cases he : e = '"' <;> simp [hc, hd, he]

theorem Stop.opening? (h : Stop lone sign tail) (text : List Char) :
    Delimiter.opening? (text ++ sign :: tail) = Delimiter.opening? text :=
  opening?_append_stop (h.ne (by decide) (by decide)) (h.ne (by decide) (by decide)) text

theorem width_le_of_opening? {delimiter : Delimiter}
    (h : Delimiter.opening? text = some delimiter) : delimiter.width ≤ text.length := by
  have hlength : ∀ {rest}, text.drop (text.takeWhile (· == '#')).length = rest →
      text.length = (text.takeWhile (· == '#')).length + rest.length := by
    rintro rest rfl
    rw [List.length_drop, Nat.add_sub_cancel' (length_takeWhile_le _ _)]
  unfold Delimiter.opening? at h
  dsimp only at h
  split at h
  · rename_i hdrop
    cases h
    simp [hlength hdrop, Delimiter.width, Delimiter.quotes]
    omega
  · rename_i hdrop
    cases h
    simp [hlength hdrop, Delimiter.width, Delimiter.quotes]
    omega
  · cases h

/-! ## One step -/

/-- One of the pieces is a lexeme that starts within the first characters, or right after them if it
belongs to a string literal, and goes on after them. -/
def Straddles (length : Nat) (parts : List Piece) : Prop :=
  ∃ first kind literal later, parts = first ++ .lexeme kind literal :: later ∧
    (first.flatMap Piece.text).length ≤ length ∧
      (kind ≠ .string → (first.flatMap Piece.text).length < length) ∧
        length < (first.flatMap Piece.text).length + literal.length

/-- A segment that ends in front of a stop, or the part of a literal that goes on after it. -/
theorem cutSegment_append_stop (lone : Prop) (sign : Char) (opened : List Interpolation)
    (lead text : List Char) :
    ((cutSegment delimiter opened lead text).2.2 ≤ text.length ∧
      ∀ tail, Stop lone sign tail → cutSegment delimiter opened lead (text ++ sign :: tail) =
        cutSegment delimiter opened lead text) ∨
    ∀ tail, Stop lone sign tail → ∃ literal later,
      (cutSegment delimiter opened lead (text ++ sign :: tail)).1 =
          .lexeme .string literal :: later ∧
        lead.length + text.length < literal.length := by
  rcases stopsOrPasses_segment delimiter lone sign 0 text with ⟨hle, hsame⟩ | hpass
  · refine .inl ⟨?_, fun tail hstop => ?_⟩
    · rcases hsegment : segment delimiter 0 text with ⟨length, ending⟩
      rw [hsegment] at hle
      cases ending with
      | interpolation =>
          -- the signs that open the interpolation belong to the text
          obtain ⟨rest, hrest⟩ := drop_segment_of_interpolation hsegment
          have hlength := congrArg List.length hrest
          simp only [List.length_drop, List.length_append, Piece.text, List.length_cons,
            List.length_replicate] at hlength
          simp only [cutSegment, hsegment]
          dsimp only at hle
          omega
      | closed | broken => simpa only [cutSegment, hsegment] using hle
    · simp only [cutSegment, hsame tail hstop, List.take_append_of_le_length hle]
  · refine .inr fun tail hstop => ?_
    have hlt := hpass tail hstop
    rcases hsegment : segment delimiter 0 (text ++ sign :: tail) with ⟨length, ending⟩
    rw [hsegment] at hlt
    have hlength : lead.length + text.length <
        (lead ++ (text ++ sign :: tail).take length).length := by
      simp only [List.length_append, List.length_take, List.length_cons]
      dsimp only at hlt
      omega
    have hne : (lead ++ (text ++ sign :: tail).take length).isEmpty = false := by
      rw [List.isEmpty_eq_false_iff]
      exact List.ne_nil_of_length_pos (Nat.zero_lt_of_lt hlength)
    cases ending with
    | interpolation => exact ⟨_, _, by simp only [cutSegment, hsegment, hne]; rfl, hlength⟩
    | closed | broken => exact ⟨_, _, by simp only [cutSegment, hsegment, hne]; rfl, hlength⟩

variable {opened : List Interpolation} {before : Option Piece}

theorem cut_closing (before : Option Piece) (outer : List Interpolation) (rest : List Char) :
    cut (⟨delimiter, 0⟩ :: outer) before ')' rest =
      ⟨.closing :: (cutSegment delimiter outer [] rest).1, (cutSegment delimiter outer [] rest).2.1,
        (cutSegment delimiter outer [] rest).2.2⟩ := rfl

structure IsCode (opened : List Interpolation) (c : Char) : Prop where
  nonblank : Text.isBlank c = false
  inside : ∀ delimiter outer, c = ')' → opened ≠ ⟨delimiter, 0⟩ :: outer

theorem IsCode.cut_opening (h : IsCode opened c) (before : Option Piece) {delimiter : Delimiter}
    (hopening : Delimiter.opening? (c :: rest) = some delimiter) :
    cut opened before c rest =
      let (pieces, opened, taken) := cutSegment delimiter opened ((c :: rest).take delimiter.width)
        ((c :: rest).drop delimiter.width)
      ⟨pieces, opened, taken + delimiter.width - 1⟩ := by
  unfold cut
  rw [if_neg (by simp [h.nonblank])]
  split
  · exact absurd rfl (h.inside _ _ rfl)
  · rw [hopening]

theorem IsCode.cut_lexeme (h : IsCode opened c) (before : Option Piece)
    (hopening : Delimiter.opening? (c :: rest) = none) :
    cut opened before c rest =
      let found := lexemeAt (before.any Piece.takesSuffix) c rest
      ⟨[.lexeme found.1 (c :: rest.take found.2)],
        if c = '(' then bracketOpened opened else if c = ')' then bracketClosed opened else opened,
        found.2⟩ := by
  unfold cut
  rw [if_neg (by simp [h.nonblank])]
  split
  · exact absurd rfl (h.inside _ _ rfl)
  · rw [hopening]

/-- A character is a blank, closes an interpolation or is read as code. -/
theorem char_cases (opened : List Interpolation) (c : Char) :
    Text.isBlank c = true ∨ (∃ delimiter outer, c = ')' ∧ opened = ⟨delimiter, 0⟩ :: outer) ∨
      IsCode opened c := by
  by_cases hblank : Text.isBlank c = true
  · exact .inl hblank
  by_cases hclosing : ∃ delimiter outer, c = ')' ∧ opened = ⟨delimiter, 0⟩ :: outer
  · exact .inr (.inl hclosing)
  refine .inr (.inr ⟨by simpa using hblank, fun delimiter outer hc hopened => ?_⟩)
  exact hclosing ⟨delimiter, outer, hc, hopened⟩

/-- A cut in front of a stop takes up no more than what is there and does not depend on what
follows, or one of its pieces straddles the stop, whatever follows. -/
def CutStopsOrPasses (lone : Prop) (sign : Char) (opened : List Interpolation)
    (before : Option Piece) (c : Char) (rest : List Char) : Prop :=
  ((cut opened before c rest).taken ≤ rest.length ∧
    ∀ tail, Stop lone sign tail →
      cut opened before c (rest ++ sign :: tail) = cut opened before c rest) ∨
  ∀ tail, Stop lone sign tail →
    Straddles (rest.length + 1) (cut opened before c (rest ++ sign :: tail)).pieces

theorem cut_closing_append_stop (lone : Prop) (sign : Char) (delimiter : Delimiter)
    (outer : List Interpolation) (before : Option Piece) (rest : List Char) :
    CutStopsOrPasses lone sign (⟨delimiter, 0⟩ :: outer) before ')' rest := by
  unfold CutStopsOrPasses
  simp only [cut_closing]
  rcases cutSegment_append_stop delimiter lone sign outer [] rest with ⟨hle, hsame⟩ | hpass
  · exact .inl ⟨hle, fun tail hstop => by rw [hsame tail hstop]⟩
  · refine .inr fun tail hstop => ?_
    obtain ⟨literal, later, hpieces, hlt⟩ := hpass tail hstop
    simp only [List.length_nil, Nat.zero_add] at hlt
    refine ⟨[.closing], .string, literal, later, by rw [hpieces]; rfl, ?_,
      fun h => absurd rfl h, ?_⟩
    · simp [Piece.text]
    · simp [Piece.text]
      omega

theorem IsCode.cut_lexeme_append_stop (h : IsCode opened c) (lone : Prop) (sign : Char)
    (before : Option Piece) (hopening : Delimiter.opening? (c :: rest) = none)
    (hlone : .lexeme .punctuation ['\x60'] ∈ (cut opened before c rest).pieces → lone) :
    CutStopsOrPasses lone sign opened before c rest := by
  have hquoted : c = '\x60' → quotedNameLength? rest = none → lone := by
    rintro rfl hnone
    have hread : lexemeAt (before.any Piece.takesSuffix) '\x60' rest = (.punctuation, 0) := by
      simp [lexemeAt, hnone]
    rw [h.cut_lexeme before hopening, hread] at hlone
    exact hlone List.mem_cons_self
  have hnone : ∀ tail, Stop lone sign tail →
      Delimiter.opening? (c :: (rest ++ sign :: tail)) = none :=
    fun tail hstop => (hstop.opening? (c :: rest)).trans hopening
  have hcut := fun tail hstop => h.cut_lexeme before (hnone tail hstop)
  unfold CutStopsOrPasses
  rw [h.cut_lexeme before hopening]
  rcases stopsOrPasses_lexemeAt lone sign (before.any Piece.takesSuffix) hquoted with
    ⟨hle, hsame⟩ | hpass
  · refine .inl ⟨hle, fun tail hstop => ?_⟩
    simp only [hcut tail hstop, hsame tail hstop, List.take_append_of_le_length hle]
  · refine .inr fun tail hstop => ?_
    have hlt := hpass tail hstop
    rw [hcut tail hstop]
    refine ⟨[], _, _, [], rfl, Nat.zero_le _, fun _ => Nat.zero_lt_succ _, ?_⟩
    simp
    omega

theorem IsCode.cut_opening_append_stop (h : IsCode opened c) (lone : Prop) (sign : Char)
    (before : Option Piece) {delimiter : Delimiter}
    (hopening : Delimiter.opening? (c :: rest) = some delimiter) :
    CutStopsOrPasses lone sign opened before c rest := by
  have hsome : ∀ tail, Stop lone sign tail →
      Delimiter.opening? (c :: (rest ++ sign :: tail)) = some delimiter :=
    fun tail hstop => (hstop.opening? (c :: rest)).trans hopening
  have hcut := fun tail hstop => h.cut_opening before (hsome tail hstop)
  have hwidth := width_le_of_opening? hopening
  have hlead : ∀ tail, (c :: (rest ++ sign :: tail)).take delimiter.width =
      (c :: rest).take delimiter.width :=
    fun tail => List.take_append_of_le_length hwidth
  have hbody : ∀ tail, (c :: (rest ++ sign :: tail)).drop delimiter.width =
      (c :: rest).drop delimiter.width ++ sign :: tail :=
    fun tail => List.drop_append_of_le_length hwidth
  have hlength : ((c :: rest).take delimiter.width).length +
      ((c :: rest).drop delimiter.width).length = rest.length + 1 := by
    rw [← List.length_append, List.take_append_drop, List.length_cons]
  unfold CutStopsOrPasses
  rw [h.cut_opening before hopening]
  rcases cutSegment_append_stop delimiter lone sign opened ((c :: rest).take delimiter.width)
    ((c :: rest).drop delimiter.width) with ⟨hle, hsame⟩ | hpass
  · refine .inl ⟨?_, fun tail hstop => ?_⟩
    · rw [List.length_take_of_le hwidth] at hlength
      show (cutSegment delimiter opened _ _).2.2 + delimiter.width - 1 ≤ rest.length
      omega
    · simp only [hcut tail hstop, hlead, hbody, hsame tail hstop]
  · refine .inr fun tail hstop => ?_
    obtain ⟨literal, later, hpieces, hlt⟩ := hpass tail hstop
    rw [hlength] at hlt
    simp only [hcut tail hstop, hlead, hbody]
    exact ⟨[], .string, literal, later, hpieces, Nat.zero_le _, fun h => absurd rfl h,
      by simpa using hlt⟩

theorem cut_append_stop {lone : Prop} (sign : Char)
    (hlone : .lexeme .punctuation ['\x60'] ∈ (cut opened before c rest).pieces → lone) :
    CutStopsOrPasses lone sign opened before c rest := by
  rcases char_cases opened c with hblank | ⟨delimiter, outer, rfl, rfl⟩ | hcode
  · unfold CutStopsOrPasses
    simp only [cut_blank _ _ _ hblank]
    exact .inl ⟨Nat.zero_le _, fun _ _ => True.intro⟩
  · exact cut_closing_append_stop lone sign delimiter outer before rest
  · cases hopening : Delimiter.opening? (c :: rest) with
    | none => exact hcode.cut_lexeme_append_stop lone sign before hopening hlone
    | some delimiter => exact hcode.cut_opening_append_stop lone sign before hopening

end CaptureLint.Token
