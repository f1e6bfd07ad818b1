import CaptureLint.Proofs.Source.Tables
import CaptureLint.Proofs.Token.Veil

/-!
# Scans over bytes

A scan that looks for ASCII signs only can step from byte to byte: the bytes of the other characters
are never one of the signs.  It then passes the bytes of just the characters that it passes when it
steps from character to character.  Names and blanks hold other characters too, so they are decoded.
-/

namespace CaptureLint.Token

open Source

/-! ## Bytes as signs -/

/-- Bytes as signs: those of ASCII characters are these characters, and no scan looks for the others. -/
def signs (bytes : List UInt8) : List Char := bytes.map Char.ofUInt8

def spelled (text : List Char) : List Char := signs (encode text)

def isAscii (c : Char) : Bool := c.toNat < 0x80

variable {text first second word rest : List Char} {c d : Char} {p : Char → Bool}

theorem spelled_append : spelled (first ++ second) = spelled first ++ spelled second := by
  rw [spelled, encode_append, signs, List.map_append]
  rfl

theorem spelled_cons : spelled (c :: text) = spelled [c] ++ spelled text :=
  @spelled_append [c] text

theorem drop_encode (first text : List Char) :
    (encode (first ++ text)).drop (bytesOf first) = encode text := by
  rw [encode_append, List.drop_left' (length_encode first)]

theorem length_spelled (text : List Char) : (spelled text).length = bytesOf text := by
  rw [spelled, signs, List.length_map, length_encode]

theorem toNat_ofUInt8 (byte : UInt8) : (Char.ofUInt8 byte).toNat = byte.toNat := rfl

theorem spelled_of_isAscii (h : isAscii c = true) : spelled [c] = [c] := by
  have hsmall : c.toNat < 128 := of_decide_eq_true h
  rw [spelled, encode, List.flatMap_singleton, utf8EncodeChar_of_lt hsmall, signs,
    List.map_singleton, List.cons.injEq, ← Char.toNat_inj, toNat_ofUInt8, UInt8.toNat_ofNat',
    Nat.mod_eq_of_lt (Nat.lt_trans hsmall (by decide))]
  exact ⟨rfl, rfl⟩

theorem spelled_cons_of_isAscii (h : isAscii c = true) (text : List Char) :
    spelled (c :: text) = c :: spelled text := by
  rw [spelled_cons, spelled_of_isAscii h, List.singleton_append]

theorem not_isAscii_of_mem_spelled (h : isAscii c = false) :
    ∀ d ∈ spelled [c], isAscii d = false := by
  intro d hd
  rw [spelled, encode, List.flatMap_singleton, signs, List.mem_map] at hd
  obtain ⟨byte, hbyte, rfl⟩ := hd
  have hlarge : 128 ≤ c.toNat := Nat.le_of_not_lt (of_decide_eq_false h)
  exact decide_eq_false (Nat.not_lt.mpr (le_of_mem_utf8EncodeChar hlarge hbyte))

theorem exists_spelled (h : isAscii c = false) : ∃ d more, spelled [c] = d :: more ∧
    isAscii d = false ∧ ∀ e ∈ more, isAscii e = false := by
  have hnone := not_isAscii_of_mem_spelled h
  cases hspelled : spelled [c] with
  | nil =>
      have hlength := length_spelled [c]
      have hpos := bytesOf_pos (List.cons_ne_nil c [])
      rw [hspelled, List.length_nil] at hlength
      omega
  | cons d more =>
      rw [hspelled] at hnone
      exact ⟨d, more, rfl, (List.forall_mem_cons.mp hnone).1, (List.forall_mem_cons.mp hnone).2⟩

theorem spelled_of_all (h : text.all isAscii = true) : spelled text = text := by
  induction text with
  | nil => rfl
  | cons c text ih =>
      rw [List.all_cons, Bool.and_eq_true] at h
      rw [spelled_cons_of_isAscii h.1, ih h.2]

/-- A text is told from a word of ASCII characters by its bytes. -/
theorem isPrefixOf_spelled (h : word.all isAscii = true) :
    word.isPrefixOf (spelled text) = word.isPrefixOf text := by
  induction word generalizing text with
  | nil => simp
  | cons d word ih =>
      rw [List.all_cons, Bool.and_eq_true] at h
      cases text with
      | nil => rfl
      | cons c text =>
          cases hc : isAscii c with
          | true => rw [spelled_cons_of_isAscii hc, List.isPrefixOf, List.isPrefixOf, ih h.2]
          | false =>
              obtain ⟨e, more, hspelled, he, -⟩ := exists_spelled hc
              have hne : ∀ e, isAscii e = false → (d == e) = false := by
                rintro e he
                rw [beq_eq_false_iff_ne]
                rintro rfl
                rw [h.1] at he
                cases he
              rw [spelled_cons, hspelled, List.cons_append, List.isPrefixOf, List.isPrefixOf,
                hne e he, hne c hc]
              rfl

theorem spelled_eq_iff (h : word.all isAscii = true) : spelled text = word ↔ text = word := by
  constructor
  · intro hspelled
    have hprefix : word.isPrefixOf text = true := by
      rw [← isPrefixOf_spelled h, hspelled]
      exact List.isPrefixOf_iff_prefix.mpr (List.prefix_refl _)
    obtain ⟨more, rfl⟩ := List.isPrefixOf_iff_prefix.mp hprefix
    have hlength := congrArg List.length hspelled
    rw [spelled_append, spelled_of_all h, List.length_append, length_spelled] at hlength
    cases more with
    | nil => rw [List.append_nil]
    | cons c more =>
        have hpos := bytesOf_pos (List.cons_ne_nil c more)
        omega
  · rintro rfl
    exact spelled_of_all h

theorem head?_spelled (h : isAscii d = true) :
    (spelled text).head? = some d ↔ text.head? = some d := by
  have hsign : ∀ text : List Char, text.head? = some d ↔ [d].isPrefixOf text = true := by
    intro text
    cases text with
    | nil => simp
    | cons c text => simp [List.isPrefixOf, @eq_comm _ d c]
  rw [hsign, hsign, isPrefixOf_spelled (by simp [h])]

theorem exists_signs (c : Char) (text : List Char) : ∃ d more,
    signs (encode (c :: text)) = d :: more ∧ ∀ sign, isAscii sign = true → (d = sign ↔ c = sign) := by
  cases hsigns : signs (encode (c :: text)) with
  | nil =>
      have hlength := length_spelled (c :: text)
      have hpos := bytesOf_pos (List.cons_ne_nil c text)
      rw [spelled, hsigns, List.length_nil] at hlength
      omega
  | cons d more =>
      refine ⟨d, more, rfl, fun sign hsign => ?_⟩
      have hhead := @head?_spelled (c :: text) sign hsign
      rwa [spelled, hsigns, List.head?_cons, List.head?_cons, Option.some.injEq,
        Option.some.injEq] at hhead

theorem bytesOf_of_isAscii (h : isAscii c = true) : bytesOf [c] = 1 := by
  rw [← length_spelled, spelled_of_isAscii h, List.length_singleton]

theorem bytesOf_of_all (h : text.all isAscii = true) : bytesOf text = text.length := by
  rw [← length_spelled, spelled_of_all h]

/-! ## Runs -/

/-- Whether a class of characters holds either all characters beyond ASCII or none. -/
def Uniform (p : Char → Bool) : Prop :=
  ∀ c d, isAscii c = false → isAscii d = false → p c = p d

theorem eq_false_of_wide (h : ∀ c, p c = true → isAscii c = true) (hc : isAscii c = false) :
    p c = false := by
  cases hp : p c with
  | false => rfl
  | true =>
      rw [h c hp] at hc
      cases hc

theorem Uniform.of_ascii (h : ∀ c, p c = true → isAscii c = true) : Uniform p := by
  intro c d hc hd
  rw [eq_false_of_wide h hc, eq_false_of_wide h hd]

theorem Uniform.of_wide (h : ∀ c, isAscii c = false → p c = true) : Uniform p := by
  intro c d hc hd
  rw [h c hc, h d hd]

/-- A run of characters of a class is a run of their bytes. -/
theorem takeWhile_spelled (hp : Uniform p) (text : List Char) :
    (spelled text).takeWhile p = spelled (text.takeWhile p) := by
  induction text with
  | nil => rfl
  | cons c text ih =>
      cases hc : isAscii c with
      | true =>
          rw [spelled_cons_of_isAscii hc, List.takeWhile_cons, List.takeWhile_cons, ih]
          split
          · rw [spelled_cons_of_isAscii hc]
          · rfl
      | false =>
          obtain ⟨d, more, hspelled, hd, hmore⟩ := exists_spelled hc
          rw [spelled_cons, List.takeWhile_cons]
          split
          next hpass =>
            have hall : ∀ e ∈ spelled [c], p e = true := by
              intro e he
              rw [hp e c (not_isAscii_of_mem_spelled hc e he) hc]
              exact hpass
            rw [List.takeWhile_append_of_pos hall, ih, ← spelled_cons]
          next hstop =>
            rw [hspelled, List.cons_append, List.takeWhile_cons_of_neg]
            · rfl
            · rw [hp d c hd hc]
              exact hstop

theorem all_isAscii_takeWhile (h : ∀ c, p c = true → isAscii c = true) (text : List Char) :
    (text.takeWhile p).all isAscii = true :=
  List.all_eq_true.mpr fun c hc => h c (List.all_eq_true.mp List.all_takeWhile c hc)

theorem takeWhile_spelled_of_ascii (h : ∀ c, p c = true → isAscii c = true) (text : List Char) :
    (spelled text).takeWhile p = text.takeWhile p := by
  rw [takeWhile_spelled (.of_ascii h), spelled_of_all (all_isAscii_takeWhile h text)]

theorem length_takeWhile_spelled (h : ∀ c, p c = true → isAscii c = true) (text : List Char) :
    (text.takeWhile p).length = bytesOf (text.take (text.takeWhile p).length) := by
  rw [← List.prefix_iff_eq_take.mp (List.takeWhile_prefix _),
    bytesOf_of_all (all_isAscii_takeWhile h text)]

theorem drop_spelled (length : Nat) (text : List Char) :
    (spelled text).drop (bytesOf (text.take length)) = spelled (text.drop length) := by
  conv => lhs; arg 2; rw [← List.take_append_drop length text, spelled_append]
  exact List.drop_left' (length_spelled _)

theorem getElem?_spelled (h : isAscii d = true) (length : Nat) :
    (spelled text)[bytesOf (text.take length)]? = some d ↔ text[length]? = some d := by
  rw [← List.head?_drop, ← List.head?_drop, drop_spelled, head?_spelled h]

/-! ## Scans of lexemes -/

theorem lineLength_spelled (text : List Char) :
    lineLength (spelled text) = bytesOf (text.take (lineLength text)) := by
  have huniform : Uniform (· != '\n') := .of_wide fun c hc => by
    rw [bne_iff_ne]
    rintro rfl
    cases hc
  rw [lineLength, takeWhile_spelled huniform, length_spelled, lineLength,
    ← List.prefix_iff_eq_take.mp (List.takeWhile_prefix _)]

theorem bytesOf_take_append (first text : List Char) (length : Nat) :
    bytesOf ((first ++ text).take (first.length + length)) =
      bytesOf first + bytesOf (text.take length) := by
  rw [List.take_length_add_append, bytesOf_append]

theorem bytesOf_take_cons_of_isAscii (h : isAscii c = true) (length : Nat) :
    bytesOf ((c :: text).take (1 + length)) = 1 + bytesOf (text.take length) := by
  have hsplit := bytesOf_take_append [c] text length
  rwa [bytesOf_of_isAscii h] at hsplit

theorem blockCommentLength_append (depth : Nat) (h : ∀ d ∈ first, isAscii d = false)
    (text : List Char) : blockCommentLength (depth + 1) (first ++ text) =
      first.length + blockCommentLength (depth + 1) text := by
  induction first with
  | nil => simp
  | cons c first ih =>
      obtain ⟨hc, hfirst⟩ := List.forall_mem_cons.mp h
      rw [List.cons_append, blockCommentLength, ih hfirst, List.length_cons]
      · omega
      · rintro _ rfl
        cases hc
      · rintro _ rfl
        cases hc

/-- A comment passes whole characters, however many comments are open in it. -/
theorem blockCommentLength_spelled (depth : Nat) (text : List Char) :
    blockCommentLength depth (spelled text) =
      bytesOf (text.take (blockCommentLength depth text)) := by
  fun_induction blockCommentLength depth text with
  | case1 => rw [blockCommentLength, List.take_zero, bytesOf_nil]
  | case2 => rfl
  | case3 depth text ih =>
      rw [spelled_cons_of_isAscii rfl, spelled_cons_of_isAscii rfl, blockCommentLength, ih]
      exact (bytesOf_take_append ['/', '*'] text _).symm
  | case4 depth text ih =>
      rw [spelled_cons_of_isAscii rfl, spelled_cons_of_isAscii rfl, blockCommentLength, ih]
      exact (bytesOf_take_append ['*', '/'] text _).symm
  | case5 depth c text hopen hclose ih =>
      rw [show bytesOf ((c :: text).take (1 + _)) = _ from bytesOf_take_append [c] text _, ← ih]
      cases hc : isAscii c with
      | true =>
          rw [spelled_cons_of_isAscii hc, blockCommentLength, bytesOf_of_isAscii hc]
          · rintro later rfl hlater
            have hhead := (@head?_spelled text '*' rfl).mp (by rw [hlater]; rfl)
            obtain ⟨more, rfl⟩ := List.head?_eq_some_iff.mp hhead
            exact hopen more rfl rfl
          · rintro later rfl hlater
            have hhead := (@head?_spelled text '/' rfl).mp (by rw [hlater]; rfl)
            obtain ⟨more, rfl⟩ := List.head?_eq_some_iff.mp hhead
            exact hclose more rfl rfl
      | false =>
          rw [spelled_cons, blockCommentLength_append _ (not_isAscii_of_mem_spelled hc),
            length_spelled]

theorem isAscii_of_isAlphanum (h : c.isAlphanum = true) : isAscii c = true := by
  have halnum : c.isAlphanum = (decide ('A'.val ≤ c.val ∧ c.val ≤ 'Z'.val) ||
      decide ('a'.val ≤ c.val) && decide (c.val ≤ 'z'.val) ||
        decide ('0'.val ≤ c.val) && decide (c.val ≤ '9'.val)) := rfl
  simp only [halnum, Bool.or_eq_true, Bool.and_eq_true, decide_eq_true_eq,
    UInt32.le_iff_toNat_le, Char.toNat_val, Char.reduceToNat] at h
  refine decide_eq_true ?_
  omega

theorem isAscii_of_isDigit (h : c.isDigit = true) : isAscii c = true :=
  isAscii_of_isAlphanum (by rw [Char.isAlphanum, h, Bool.or_true])

theorem isAscii_of_numberContinues {hexadecimal : Bool} {last : Char} {next : Option Char}
    (h : numberContinues hexadecimal last c next = true) : isAscii c = true := by
  simp only [numberContinues, Bool.or_eq_true, Bool.and_eq_true, beq_iff_eq] at h
  obtain ((halnum | rfl) | ⟨rfl, -⟩) | ⟨rfl | rfl, -⟩ := h
  · exact isAscii_of_isAlphanum halnum
  all_goals rfl

theorem isAscii_of_isOperatorChar (h : isOperatorChar c = true) : isAscii c = true := by
  have hall : "/=-+!*%<>&|^~?".toList.all isAscii = true := by decide
  exact List.all_eq_true.mp hall c (List.contains_iff_mem.mp h)

/-- A scan that passes nothing at a character beyond ASCII passes none of its bytes. -/
theorem head?_any_spelled (h : ∀ c, p c = true → isAscii c = true) (text : List Char) :
    (spelled text).head?.any p = text.head?.any p := by
  rw [Bool.eq_iff_iff, Option.any_eq_true, Option.any_eq_true]
  exact exists_congr fun d => and_congr_left fun hd => head?_spelled (h d hd)

theorem numberLength_spelled (hexadecimal : Bool) (last : Char) (text : List Char) :
    numberLength hexadecimal last (spelled text) =
      bytesOf (text.take (numberLength hexadecimal last text)) := by
  induction text generalizing last with
  | nil => rfl
  | cons c text ih =>
      cases hc : isAscii c with
      | true =>
          have hcontinues : numberContinues hexadecimal last c (spelled text).head? =
              numberContinues hexadecimal last c text.head? := by
            rw [numberContinues, head?_any_spelled fun _ => isAscii_of_isDigit]
            rfl
          rw [spelled_cons_of_isAscii hc, numberLength, numberLength, hcontinues, ih]
          split
          · exact (bytesOf_take_cons_of_isAscii hc _).symm
          · rfl
      | false =>
          obtain ⟨d, more, hspelled, hd, -⟩ := exists_spelled hc
          have hstops : ∀ e next, isAscii e = false →
              numberContinues hexadecimal last e next = false :=
            fun e next => @eq_false_of_wide e (numberContinues hexadecimal last · next)
              fun _ => isAscii_of_numberContinues
          rw [spelled_cons, hspelled, List.cons_append, numberLength, numberLength, hstops d _ hd,
            hstops c _ hc]
          rfl

theorem operatorLength_spelled (text : List Char) :
    operatorLength (spelled text) = bytesOf (text.take (operatorLength text)) := by
  have hstops : ∀ e, isAscii e = false → isOperatorChar e = false :=
    fun e => @eq_false_of_wide e isOperatorChar fun _ => isAscii_of_isOperatorChar
  induction text with
  | nil => rfl
  | cons c text ih =>
      cases hc : isAscii c with
      | true =>
          have hcomment : opensComment (spelled text) = opensComment text := by
            rw [opensComment, opensComment, Bool.eq_iff_iff]
            simp only [Bool.or_eq_true, beq_iff_eq, head?_spelled (d := '/') rfl,
              head?_spelled (d := '*') rfl]
          rw [spelled_cons_of_isAscii hc, operatorLength, operatorLength, hcomment, ih]
          split
          · exact (bytesOf_take_cons_of_isAscii hc _).symm
          · rfl
      | false =>
          obtain ⟨d, more, hspelled, hd, -⟩ := exists_spelled hc
          rw [spelled_cons, hspelled, List.cons_append, operatorLength, operatorLength, hstops d hd,
            hstops c hc]
          rfl

theorem quotedNameLength?_spelled (text : List Char) :
    quotedNameLength? (spelled text) =
      (quotedNameLength? text).map fun length => bytesOf (text.take length) := by
  have huniform : Uniform fun c => c != '\x60' && c != '\n' := .of_wide fun c hc => by
    rw [Bool.and_eq_true, bne_iff_ne, bne_iff_ne]
    refine ⟨?_, ?_⟩ <;> rintro rfl <;> cases hc
  rw [quotedNameLength?, takeWhile_spelled huniform, quotedNameLength?]
  have hprefix : (text.takeWhile fun c => c != '\x60' && c != '\n') <+: text :=
    List.takeWhile_prefix _
  generalize (text.takeWhile fun c => c != '\x60' && c != '\n') = name at hprefix ⊢
  obtain ⟨more, rfl⟩ := hprefix
  have hlength : (spelled name).length = bytesOf ((name ++ more).take name.length) := by
    rw [length_spelled, List.take_left]
  have hempty : (spelled name).isEmpty = name.isEmpty := by
    rw [Bool.eq_iff_iff, List.isEmpty_iff, List.isEmpty_iff, spelled_eq_iff rfl]
  have hquote : ((spelled (name ++ more))[(spelled name).length]? == some '\x60') =
      ((name ++ more)[name.length]? == some '\x60') := by
    rw [Bool.eq_iff_iff, beq_iff_eq, beq_iff_eq, hlength, getElem?_spelled rfl]
  rw [hempty, hquote]
  split
  next h =>
    rw [Bool.and_eq_true, beq_iff_eq, List.getElem?_append_right (Nat.le_refl _), Nat.sub_self,
      ← List.head?_eq_getElem?] at h
    obtain ⟨rest, rfl⟩ := List.head?_eq_some_iff.mp h.2
    rw [Option.map_some, bytesOf_take_append, length_spelled]
    rfl
  next => rfl

/-- The length of the rest of an operator that starts with a dot, where more dots follow. -/
def rangeLength (text : List Char) : Nat :=
  let dots := (text.takeWhile (· == '.')).length
  if text[dots]? = some '<' then dots + 1 else dots

theorem isAscii_of_beq (hd : isAscii d = true) (c : Char) (h : (c == d) = true) :
    isAscii c = true := by
  rwa [beq_iff_eq.mp h]

theorem rangeLength_spelled (text : List Char) :
    rangeLength (spelled text) = bytesOf (text.take (rangeLength text)) := by
  have hlength := length_takeWhile_spelled (isAscii_of_beq (d := '.') rfl) text
  have hrange : ((spelled text)[(text.takeWhile (· == '.')).length]? = some '<') =
      (text[(text.takeWhile (· == '.')).length]? = some '<') := by
    conv => lhs; rw [hlength]
    exact propext (getElem?_spelled rfl _)
  unfold rangeLength
  simp only [takeWhile_spelled_of_ascii (isAscii_of_beq (d := '.') rfl), hrange]
  split
  next hless =>
    rw [List.take_add_one, hless, bytesOf_append, ← hlength]
    rfl
  next => exact hlength

/-! ## Literals -/

theorem takeWhile_hashes_spelled (text : List Char) :
    (spelled text).takeWhile (· == '#') = text.takeWhile (· == '#') :=
  takeWhile_spelled_of_ascii (isAscii_of_beq (d := '#') rfl) text

theorem drop_hashes_spelled (text : List Char) :
    (spelled text).drop (text.takeWhile (· == '#')).length =
      spelled (text.drop (text.takeWhile (· == '#')).length) := by
  conv => lhs; arg 1; rw [length_takeWhile_spelled (isAscii_of_beq (d := '#') rfl)]
  exact drop_spelled _ _

theorem opening?_spelled (text : List Char) :
    Delimiter.opening? (spelled text) = Delimiter.opening? text := by
  rw [opening?_eq, opening?_eq, ← Text.drop_takeWhile, ← Text.drop_takeWhile,
    takeWhile_hashes_spelled, drop_hashes_spelled, isPrefixOf_spelled rfl, isPrefixOf_spelled rfl]

theorem all_isAscii_opening {delimiter : Delimiter}
    (h : Delimiter.opening? text = some delimiter) :
    (text.take delimiter.width).all isAscii = true := by
  have hall : ∀ quotes : List Char, quotes.isPrefixOf (text.dropWhile (· == '#')) = true →
      quotes.all isAscii = true →
        (text.take (quotes.length + (text.takeWhile (· == '#')).length)).all isAscii = true := by
    intro quotes hquotes hascii
    obtain ⟨more, hmore⟩ := List.isPrefixOf_iff_prefix.mp hquotes
    conv => lhs; arg 1; arg 2; rw [← @List.takeWhile_append_dropWhile _ (· == '#') text, ← hmore]
    rw [Nat.add_comm, List.take_length_add_append, List.take_left, List.all_append,
      all_isAscii_takeWhile (isAscii_of_beq (d := '#') rfl) text, hascii]
    rfl
  rw [opening?_eq] at h
  split at h
  next hthree =>
    cases h
    exact hall _ hthree rfl
  next =>
    rw [Option.ite_none_right_eq_some] at h
    obtain ⟨hone, h⟩ := h
    cases h
    exact hall _ hone rfl

variable (delimiter : Delimiter)

theorem escapes_spelled (text : List Char) :
    delimiter.escapes (spelled text) = delimiter.escapes text := by
  rw [Delimiter.escapes, takeWhile_hashes_spelled]
  rfl

theorem interpolates_spelled (text : List Char) :
    delimiter.interpolates (spelled text) = delimiter.interpolates text := by
  rw [Delimiter.interpolates, Delimiter.interpolates, escapes_spelled]
  cases hescapes : delimiter.escapes text with
  | false => rfl
  | true =>
      rw [Bool.true_and, Bool.true_and, Bool.eq_iff_iff, beq_iff_eq, beq_iff_eq,
        ← beq_iff_eq.mp hescapes, ← List.head?_drop, ← List.head?_drop, drop_hashes_spelled,
        head?_spelled rfl]

theorem all_isAscii_closing : delimiter.closing.all isAscii = true := by
  refine List.all_eq_true.mpr fun c hc => ?_
  rw [Delimiter.closing, List.mem_append, List.mem_replicate, List.mem_replicate] at hc
  obtain ⟨-, rfl⟩ | ⟨-, rfl⟩ := hc <;> rfl

theorem closing_isPrefixOf_spelled (text : List Char) :
    delimiter.closing.isPrefixOf (spelled text) = delimiter.closing.isPrefixOf text :=
  isPrefixOf_spelled (all_isAscii_closing delimiter)

theorem length_closing : delimiter.closing.length = delimiter.width := by
  simp [Delimiter.closing, Delimiter.width]

theorem bytesOf_closing : bytesOf delimiter.closing = delimiter.width := by
  rw [bytesOf_of_all (all_isAscii_closing delimiter), length_closing]

theorem bytesOf_opening (hashes : Nat) : bytesOf (Piece.opening hashes).text = 2 + hashes := by
  rw [bytesOf_of_all]
  · simp [Piece.text]
    omega
  · simp [Piece.text, isAscii]

variable {delimiter}

/-- The signs of an escape are single bytes. -/
theorem drop_escape (h : delimiter.escapes text = true) :
    (encode ('\\' :: text)).drop (1 + delimiter.hashes) = encode (text.drop delimiter.hashes) := by
  have hhashes : (text.takeWhile (· == '#')).length = delimiter.hashes := beq_iff_eq.mp h
  have hbytes : bytesOf ('\\' :: text.takeWhile (· == '#')) = 1 + delimiter.hashes := by
    rw [bytesOf_cons,
      bytesOf_of_all (all_isAscii_takeWhile (isAscii_of_beq (d := '#') rfl) text), hhashes]
    rfl
  have hdrop := drop_encode ('\\' :: text.takeWhile (· == '#')) (text.dropWhile (· == '#'))
  rwa [List.cons_append, List.takeWhile_append_dropWhile, hbytes, ← Text.drop_takeWhile, hhashes]
    at hdrop

theorem bytesOf_escape (h : delimiter.escapes text = true) :
    bytesOf ('\\' :: text.take (delimiter.hashes + 1)) =
      1 + delimiter.hashes + bytesOf ((text.drop delimiter.hashes).take 1) := by
  have hhashes : (text.takeWhile (· == '#')).length = delimiter.hashes := beq_iff_eq.mp h
  have hbytes : bytesOf (text.take delimiter.hashes) = delimiter.hashes := by
    rw [← hhashes, ← length_takeWhile_spelled (isAscii_of_beq (d := '#') rfl)]
  rw [bytesOf_cons, List.take_add, bytesOf_append, hbytes, Nat.add_assoc]
  rfl

end CaptureLint.Token
