import CaptureLint.Json.Printer
import CaptureLint.Json.Reader

/-!
# Reading written JSON

What the printer writes, the reader reads back, in any place where a value can stand: after blanks,
and before a comma, the end of a line or nothing.  A number could be lengthened by what follows it,
so the end of a value is part of its law.  The bounds of the readers count values and items, and
each of these takes up at least one character, so the length of a text is a bound that is enough.
-/

namespace CaptureLint.Json

/-! ## Strings -/

/-- A character is written as itself, as a letter after a backslash, or as the code of a control
character. -/
theorem escape_cases (c : Char) :
    (∃ letter, letter ≠ 'u' ∧ unescape? letter = some c ∧ escape c = ['\\', letter]) ∨
      (c.toNat < 0x20 ∧
        escape c = ['\\', 'u', '0', '0', hexDigit (c.toNat / 16), hexDigit (c.toNat % 16)]) ∨
      (c ≠ '"' ∧ c ≠ '\\' ∧ ¬ c.toNat < 0x20 ∧ escape c = [c]) := by
  by_cases hquote : c = '"'
  · exact .inl ⟨'"', by decide, by simp [unescape?, hquote], by simp [escape, hquote]⟩
  by_cases hslash : c = '\\'
  · exact .inl ⟨'\\', by decide, by simp [unescape?, hslash], by simp [escape, hslash]⟩
  by_cases hb : c = '\x08'
  · exact .inl ⟨'b', by decide, by simp [unescape?, hb], by simp [escape, hb]⟩
  by_cases hf : c = '\x0c'
  · exact .inl ⟨'f', by decide, by simp [unescape?, hf], by simp [escape, hf]⟩
  by_cases hn : c = '\n'
  · exact .inl ⟨'n', by decide, by simp [unescape?, hn], by simp [escape, hn]⟩
  by_cases hr : c = '\r'
  · exact .inl ⟨'r', by decide, by simp [unescape?, hr], by simp [escape, hr]⟩
  by_cases ht : c = '\t'
  · exact .inl ⟨'t', by decide, by simp [unescape?, ht], by simp [escape, ht]⟩
  have hescape : escape c =
      if c.toNat < 0x20 then ['\\', 'u', '0', '0', hexDigit (c.toNat / 16), hexDigit (c.toNat % 16)]
      else [c] := by
    simp only [escape, hquote, hslash, hb, hf, hn, hr, ht, if_false]
  by_cases hcontrol : c.toNat < 0x20
  · exact .inr (.inl ⟨hcontrol, by rw [hescape, if_pos hcontrol]⟩)
  · exact .inr (.inr ⟨hquote, hslash, hcontrol, by rw [hescape, if_neg hcontrol]⟩)

theorem readString?_letter {letter c : Char} (read text : List Char) (hu : letter ≠ 'u')
    (h : unescape? letter = some c) :
    readString? read ('\\' :: letter :: text) = readString? (c :: read) text := by
  rw [readString?]
  · simp [h]
  · rintro _ _ _ _ _ _ _ _ _ rfl
    exact absurd rfl hu
  · rintro _ _ _ _ _ rfl
    exact absurd rfl hu

theorem hexCode?_hexDigit {n : Nat} (h : n < 0x20) :
    hexCode? '0' '0' (hexDigit (n / 16)) (hexDigit (n % 16)) = some n := by
  revert n
  decide

theorem readString?_code {a b d e : Char} {code : Nat} (read text : List Char)
    (h : hexCode? a b d e = some code) (hcode : code < 0xD800) :
    readString? read ('\\' :: 'u' :: a :: b :: d :: e :: text) =
      readString? (Char.ofNat code :: read) text := by
  have hchar : charOfCode? code = some (Char.ofNat code) := by
    rw [charOfCode?, if_neg (by omega)]
  by_cases hpair : ∃ f g i j rest, text = '\\' :: 'u' :: f :: g :: i :: j :: rest
  · obtain ⟨f, g, i, j, rest, rfl⟩ := hpair
    simp [readString?, h, hchar]
  · rw [readString?]
    · simp [h, hchar]
    · intro f g i j rest htext
      exact hpair ⟨f, g, i, j, rest, htext⟩

theorem readString?_plain {c : Char} (read text : List Char) (hquote : c ≠ '"')
    (hslash : c ≠ '\\') (hcontrol : ¬ c.toNat < 0x20) :
    readString? read (c :: text) = readString? (c :: read) text := by
  rw [readString?, if_neg hcontrol]
  · exact hquote
  · intro _ _ _ _ _ _ _ _ _ h _
    exact hslash h
  · intro _ _ _ _ _ h _
    exact hslash h
  · intro _ _ h _
    exact hslash h

theorem readString?_escape (read : List Char) (c : Char) (text : List Char) :
    readString? read (escape c ++ text) = readString? (c :: read) text := by
  rcases escape_cases c with ⟨letter, hu, hletter, hescape⟩ | ⟨hcontrol, hescape⟩ |
    ⟨hquote, hslash, hcontrol, hescape⟩
  · rw [hescape]
    exact readString?_letter read text hu hletter
  · rw [hescape]
    have hread := readString?_code read text (hexCode?_hexDigit hcontrol) (by omega)
    rwa [Char.ofNat_toNat] at hread
  · rw [hescape]
    exact readString?_plain read text hquote hslash hcontrol

theorem readString?_flatMap_escape (read chars text : List Char) :
    readString? read (chars.flatMap escape ++ '"' :: text) =
      some (String.ofList (read.reverse ++ chars), text) := by
  induction chars generalizing read with
  | nil => simp [readString?]
  | cons c chars ih =>
      rw [List.flatMap_cons, List.append_assoc, readString?_escape, ih]
      simp

/-! ## What follows a value -/

/-- What may follow a value where it is written: a comma, the end of a line, or nothing. -/
def EndsValue (rest : List Char) : Prop := ∀ c ∈ rest.head?, c = ',' ∨ c = '\n'

theorem endsValue_comma (rest : List Char) : EndsValue (',' :: rest) := by
  intro c hc
  exact .inl (Option.some.inj hc).symm

theorem endsValue_newLine (level : Nat) (rest : List Char) :
    EndsValue (newLine level ++ rest) := by
  intro c hc
  exact .inr (Option.some.inj hc).symm

/-! ## Numbers -/

theorem head?_toDigits_append (n : Nat) (rest : List Char) :
    (Nat.toDigits 10 n ++ rest).head? = (Nat.toDigits 10 n).head? := by
  cases hdigits : Nat.toDigits 10 n with
  | nil => exact absurd hdigits Nat.toDigits_ne_nil
  | cons c digits => rfl

theorem head?_toDigits_ne {n : Nat} (h : 0 < n) : (Nat.toDigits 10 n).head? ≠ some '0' := by
  induction n using Nat.strongRecOn with
  | ind n ih =>
      by_cases hlt : n < 10
      · have hdigit : ∀ digit < 10, 0 < digit → [digit.digitChar].head? ≠ some '0' := by decide
        rw [Nat.toDigits_of_lt_base hlt]
        exact hdigit n hlt h
      · rw [Nat.toDigits_of_base_le (by omega) (by omega), head?_toDigits_append]
        exact ih (n / 10) (by omega) (by omega)

/-- The digits of a number start with a zero only if it is zero. -/
theorem length_toDigits_of_head? {n : Nat} (h : (Nat.toDigits 10 n).head? = some '0') :
    (Nat.toDigits 10 n).length = 1 := by
  by_cases hn : n = 0
  · rw [hn, Nat.toDigits_zero]
    rfl
  · exact absurd h (head?_toDigits_ne (by omega))

theorem digitsValue_toDigits (n : Nat) : digitsValue (Nat.toDigits 10 n) = n := by
  have hfold := Nat.ofDigitChars_ten_toDigits (n := n)
  rw [Nat.ofDigitChars_eq_foldl] at hfold
  rw [digitsValue]
  simpa only [Nat.mul_comm] using hfold

theorem isDigit_of_mem_toDigits {n : Nat} {c : Char} (h : c ∈ Nat.toDigits 10 n) :
    c.isDigit = true :=
  Nat.isDigit_of_mem_toDigits (by decide) (by decide) h

theorem digits?_toDigits (n : Nat) {rest : List Char} (h : EndsValue rest) :
    digits? (Nat.toDigits 10 n ++ rest) = some (Nat.toDigits 10 n, rest) := by
  have hdigits : ∀ c ∈ Nat.toDigits 10 n, c.isDigit = true := fun c => isDigit_of_mem_toDigits
  have hrest : rest.takeWhile Char.isDigit = [] ∧ rest.dropWhile Char.isDigit = rest := by
    cases rest with
    | nil => exact ⟨rfl, rfl⟩
    | cons c rest => rcases h c rfl with rfl | rfl <;> exact ⟨rfl, rfl⟩
  simp only [digits?]
  rw [List.takeWhile_append_of_pos hdigits, List.dropWhile_append_of_pos hdigits, hrest.1, hrest.2,
    List.append_nil, if_neg]
  simp [Nat.toDigits_ne_nil]

theorem wholePart?_toDigits (n : Nat) {rest : List Char} (h : EndsValue rest) :
    wholePart? (Nat.toDigits 10 n ++ rest) = some (Nat.toDigits 10 n, rest) := by
  have hzero : ¬ ((Nat.toDigits 10 n).head? = some '0' ∧ 1 < (Nat.toDigits 10 n).length) := by
    intro hboth
    have hlength := length_toDigits_of_head? hboth.1
    omega
  rw [wholePart?, digits?_toDigits n h]
  simp only [Option.bind_eq_bind, Option.bind_some]
  rw [if_neg hzero]

theorem fraction?_of_ends {rest : List Char} (h : EndsValue rest) :
    fraction? rest = some ([], rest) := by
  cases rest with
  | nil => rfl
  | cons c rest => rcases h c rfl with rfl | rfl <;> rfl

theorem exponent?_of_ends {rest : List Char} (h : EndsValue rest) :
    exponent? rest = some ([], rest) := by
  cases rest with
  | nil => rfl
  | cons c rest => rcases h c rfl with rfl | rfl <;> rfl

theorem readNumber?_toDigits (n : Nat) {rest : List Char} (h : EndsValue rest) :
    readNumber? (Nat.toDigits 10 n ++ rest) = some (.natural n, rest) := by
  have hsign : (Nat.toDigits 10 n ++ rest).head? ≠ some '-' := by
    rw [head?_toDigits_append]
    intro hhead
    have hdigit := isDigit_of_mem_toDigits (List.mem_of_head? hhead)
    revert hdigit
    decide
  simp only [readNumber?, if_neg hsign, List.length_nil, List.drop_zero,
    wholePart?_toDigits n h, Option.bind_eq_bind, Option.bind_some, fraction?_of_ends h,
    exponent?_of_ends h, digitsValue_toDigits]
  rfl

/-! ## Blanks -/

theorem isSpace_of_mem_newLine {level : Nat} : ∀ c ∈ newLine level, isSpace c = true := by
  intro c hc
  rcases List.mem_cons.mp hc with rfl | hc
  · rfl
  · rw [(List.mem_replicate.mp hc).2]
    rfl

theorem skipSpace_append {blanks : List Char} (h : ∀ c ∈ blanks, isSpace c = true)
    (text : List Char) : skipSpace (blanks ++ text) = skipSpace text :=
  List.dropWhile_append_of_pos h

theorem skipSpace_of_head {c : Char} (h : isSpace c = false) (text : List Char) :
    skipSpace (c :: text) = c :: text :=
  List.dropWhile_cons_of_neg (by simp [h])

theorem readValue?_append {blanks : List Char} (h : ∀ c ∈ blanks, isSpace c = true) (bound : Nat)
    (text : List Char) : readValue? bound (blanks ++ text) = readValue? bound text := by
  cases bound with
  | zero => rfl
  | succ bound => simp only [readValue?, skipSpace_append h]

theorem readItems?_append {blanks : List Char} (h : ∀ c ∈ blanks, isSpace c = true) (bound : Nat)
    (read : List Value) (text : List Char) :
    readItems? bound read (blanks ++ text) = readItems? bound read text := by
  cases bound with
  | zero => rfl
  | succ bound => simp only [readItems?, readValue?_append h]

theorem readMembers?_append {blanks : List Char} (h : ∀ c ∈ blanks, isSpace c = true)
    (bound : Nat) (read : List (String × Value)) (text : List Char) :
    readMembers? bound read (blanks ++ text) = readMembers? bound read text := by
  cases bound with
  | zero => rfl
  | succ bound => simp only [readMembers?, skipSpace_append h]

/-! ## Values -/

/-- A value that is read where it is written, whatever follows it there. -/
def ReadsBack (value : Value) : Prop :=
  ∀ level bound rest, (render level value).length < bound → EndsValue rest →
    readValue? bound (render level value ++ rest) = some (value, rest)

theorem length_newLine (level : Nat) : (newLine level).length = 2 * level + 1 := by
  simp [newLine]

theorem readItems?_render {item : Value} {items : List Value} (hitem : ReadsBack item)
    (hitems : ∀ next ∈ items, ReadsBack next) (level outer bound : Nat) (read : List Value)
    (rest : List Char)
    (hbound : (render level item ++ renderItems level items).length + 1 < bound) :
    readItems? bound read
        (render level item ++ (renderItems level items ++ (newLine outer ++ ']' :: rest))) =
      some (.array (read.reverse ++ item :: items), rest) := by
  rw [List.length_append] at hbound
  induction items generalizing item bound read with
  | nil =>
      obtain ⟨bound, rfl⟩ := Nat.exists_eq_add_one.mpr (Nat.zero_lt_of_lt hbound)
      have hread := hitem level bound (newLine outer ++ ']' :: rest) (by omega)
        (endsValue_newLine outer _)
      simp only [readItems?, renderItems, List.nil_append, hread, Option.bind_eq_bind,
        Option.bind_some, skipSpace_append isSpace_of_mem_newLine]
      rw [skipSpace_of_head (by rfl)]
      simp
  | cons next items ih =>
      obtain ⟨bound, rfl⟩ := Nat.exists_eq_add_one.mpr (Nat.zero_lt_of_lt hbound)
      have hlength : (renderItems level (next :: items)).length =
          (newLine level).length + ((render level next).length +
            (renderItems level items).length) + 1 := by
        simp [renderItems]
      have hblank := length_newLine level
      have hread := hitem level bound
        (renderItems level (next :: items) ++ (newLine outer ++ ']' :: rest)) (by omega)
        (endsValue_comma _)
      have hnext := ih (hitems next List.mem_cons_self)
        (fun later hlater => hitems later (List.mem_cons_of_mem _ hlater)) bound (item :: read)
        (by omega)
      simp only [readItems?, hread, Option.bind_eq_bind, Option.bind_some]
      rw [renderItems, List.cons_append, skipSpace_of_head (by rfl)]
      simp only [List.append_assoc]
      rw [readItems?_append isSpace_of_mem_newLine, hnext]
      simp

theorem readString?_renderString (name : String) (text : List Char) :
    readString? [] (name.toList.flatMap escape ++ '"' :: text) = some (name, text) := by
  rw [readString?_flatMap_escape, List.reverse_nil, List.nil_append, String.ofList_toList]

theorem readMembers?_member {bound : Nat} {text after : List Char} {value : Value} (name : String)
    (read : List (String × Value)) (h : readValue? bound text = some (value, after)) :
    readMembers? (bound + 1) read (renderString name ++ ':' :: ' ' :: text) =
      match skipSpace after with
      | ',' :: after => readMembers? bound ((name, value) :: read) after
      | '\x7d' :: after => some (.object ((name, value) :: read).reverse, after)
      | _ => none := by
  have hvalue : readValue? bound (' ' :: text) = some (value, after) := by
    have hblank : ∀ c ∈ [' '], isSpace c = true := List.forall_mem_singleton.mpr rfl
    rw [← h]
    exact readValue?_append hblank bound text
  have hname : renderString name ++ ':' :: ' ' :: text =
      '"' :: (name.toList.flatMap escape ++ '"' :: ':' :: ' ' :: text) := by
    simp [renderString]
  simp only [readMembers?]
  rw [hname, skipSpace_of_head (by rfl)]
  simp only [readString?_renderString, Option.bind_eq_bind, Option.bind_some]
  rw [skipSpace_of_head (by rfl)]
  show (readValue? bound (' ' :: text)).bind _ = _
  rw [hvalue]
  rfl

theorem readMembers?_render {value : Value} {members : List (String × Value)} (name : String)
    (hvalue : ReadsBack value) (hmembers : ∀ member ∈ members, ReadsBack member.2)
    (level outer bound : Nat) (read : List (String × Value)) (rest : List Char)
    (hbound : (render level value ++ renderMembers level members).length + 1 < bound) :
    readMembers? bound read
        (renderString name ++ ':' :: ' ' :: (render level value ++
          (renderMembers level members ++ (newLine outer ++ '\x7d' :: rest)))) =
      some (.object (read.reverse ++ (name, value) :: members), rest) := by
  rw [List.length_append] at hbound
  induction members generalizing name value bound read with
  | nil =>
      obtain ⟨bound, rfl⟩ := Nat.exists_eq_add_one.mpr (Nat.zero_lt_of_lt hbound)
      have hread := hvalue level bound (newLine outer ++ '\x7d' :: rest) (by omega)
        (endsValue_newLine outer _)
      rw [renderMembers, List.nil_append, readMembers?_member name read hread,
        skipSpace_append isSpace_of_mem_newLine, skipSpace_of_head (by rfl)]
      simp
  | cons next members ih =>
      obtain ⟨nextName, next⟩ := next
      obtain ⟨bound, rfl⟩ := Nat.exists_eq_add_one.mpr (Nat.zero_lt_of_lt hbound)
      have hlength : (renderMembers level ((nextName, next) :: members)).length =
          (newLine level).length + ((renderString nextName).length +
            ((render level next).length + (renderMembers level members).length)) + 3 := by
        simp [renderMembers]
        omega
      have hread := hvalue level bound
        (renderMembers level ((nextName, next) :: members) ++ (newLine outer ++ '\x7d' :: rest))
        (by omega) (endsValue_comma _)
      have hnext := ih nextName (hmembers (nextName, next) List.mem_cons_self)
        (fun later hlater => hmembers later (List.mem_cons_of_mem _ hlater)) bound
        ((name, value) :: read) (by dsimp only; omega)
      rw [readMembers?_member name read hread, renderMembers, List.cons_append,
        skipSpace_of_head (by rfl)]
      simp only [List.append_assoc, List.cons_append, List.nil_append]
      rw [readMembers?_append isSpace_of_mem_newLine, hnext]
      simp

/-! ### Every value -/

/-- A value without numbers that are kept by their spelling. -/
inductive Plain : Value → Prop where
  | null : Plain .null
  | bool (value : Bool) : Plain (.bool value)
  | natural (value : Nat) : Plain (.natural value)
  | string (value : String) : Plain (.string value)
  | array {items : List Value} (h : ∀ item ∈ items, Plain item) : Plain (.array items)
  | object {members : List (String × Value)} (h : ∀ member ∈ members, Plain member.2) :
      Plain (.object members)

theorem not_space_of_isDigit {c : Char} (h : c.isDigit = true) : isSpace c = false ∧ c ≠ ']' := by
  constructor
  · cases hspace : isSpace c with
    | false => rfl
    | true =>
        simp only [isSpace, Bool.or_eq_true, beq_iff_eq] at hspace
        rcases hspace with ((rfl | rfl) | rfl) | rfl <;> cases h
  · rintro rfl
    cases h

theorem Plain.exists_cons {value : Value} (h : Plain value) (level : Nat) :
    ∃ c text, render level value = c :: text ∧ isSpace c = false ∧ c ≠ ']' := by
  cases h with
  | null => exact ⟨'n', _, rfl, rfl, by decide⟩
  | bool value => cases value <;> exact ⟨_, _, rfl, rfl, by decide⟩
  | string value => exact ⟨'"', _, rfl, rfl, by decide⟩
  | natural value =>
      obtain ⟨c, digits, hdigits⟩ := List.exists_cons_of_ne_nil
        (Nat.toDigits_ne_nil (n := value) (b := 10))
      have hdigit := isDigit_of_mem_toDigits (n := value) (c := c) (by simp [hdigits])
      exact ⟨c, digits, by rw [render, hdigits], (not_space_of_isDigit hdigit).1,
        (not_space_of_isDigit hdigit).2⟩
  | @array items _ =>
      cases items <;> exact ⟨'[', _, by rw [render], rfl, by decide⟩
  | @object members _ =>
      cases members <;> exact ⟨'\x7b', _, by rw [render], rfl, by decide⟩

theorem readValue?_of_isDigit {c : Char} (h : c.isDigit = true) (bound : Nat) (text : List Char) :
    readValue? (bound + 1) (c :: text) = readNumber? (c :: text) := by
  simp only [readValue?]
  rw [skipSpace_of_head (not_space_of_isDigit h).1]
  split
  case h_7 => rfl
  all_goals
    rename_i heq
    obtain ⟨rfl, -⟩ := List.cons.inj heq
    exact absurd h (by decide)

theorem readsBack_natural (value : Nat) : ReadsBack (.natural value) := by
  intro level bound rest hbound hrest
  obtain ⟨bound, rfl⟩ := Nat.exists_eq_add_one.mpr (Nat.zero_lt_of_lt hbound)
  rw [render, ← readNumber?_toDigits value hrest]
  cases hdigits : Nat.toDigits 10 value with
  | nil => exact absurd hdigits Nat.toDigits_ne_nil
  | cons c digits =>
      exact readValue?_of_isDigit (isDigit_of_mem_toDigits (n := value) (by simp [hdigits])) _ _

theorem readsBack_string (value : String) : ReadsBack (.string value) := by
  intro level bound rest hbound _
  obtain ⟨bound, rfl⟩ := Nat.exists_eq_add_one.mpr (Nat.zero_lt_of_lt hbound)
  rw [render, renderString, List.cons_append, List.append_assoc]
  simp only [readValue?]
  rw [skipSpace_of_head (by rfl)]
  simp [readString?_renderString]

theorem readsBack_array {items : List Value} (h : ∀ item ∈ items, Plain item)
    (hitems : ∀ item ∈ items, ReadsBack item) : ReadsBack (.array items) := by
  intro level bound rest hbound _
  obtain ⟨bound, rfl⟩ := Nat.exists_eq_add_one.mpr (Nat.zero_lt_of_lt hbound)
  cases items with
  | nil =>
      simp only [readValue?, render]
      rfl
  | cons item items =>
      obtain ⟨c, text, hrender, hspace, hclosing⟩ := (h item List.mem_cons_self).exists_cons (level + 1)
      have hread := readItems?_render (hitems item List.mem_cons_self)
        (fun next hnext => hitems next (List.mem_cons_of_mem _ hnext)) (level + 1) level bound []
        rest (by simp [render] at hbound ⊢; omega)
      rw [render]
      simp only [readValue?]
      rw [List.cons_append, skipSpace_of_head (by rfl)]
      simp only [List.append_assoc, List.singleton_append]
      rw [skipSpace_append isSpace_of_mem_newLine]
      rw [hrender, List.cons_append] at hread ⊢
      rw [skipSpace_of_head hspace]
      split
      case h_1 heq => exact absurd (List.cons.inj heq).1 hclosing
      case h_2 => exact hread

theorem readsBack_object {members : List (String × Value)}
    (hmembers : ∀ member ∈ members, ReadsBack member.2) : ReadsBack (.object members) := by
  intro level bound rest hbound _
  obtain ⟨bound, rfl⟩ := Nat.exists_eq_add_one.mpr (Nat.zero_lt_of_lt hbound)
  cases members with
  | nil =>
      simp only [readValue?, render]
      rfl
  | cons member members =>
      obtain ⟨name, value⟩ := member
      have hread := readMembers?_render name (hmembers (name, value) List.mem_cons_self)
        (fun next hnext => hmembers next (List.mem_cons_of_mem _ hnext)) (level + 1) level bound []
        rest (by simp [render] at hbound ⊢; omega)
      rw [render]
      simp only [readValue?]
      rw [List.cons_append, skipSpace_of_head (by rfl)]
      simp only [List.append_assoc, List.singleton_append]
      rw [skipSpace_append isSpace_of_mem_newLine]
      exact hread

theorem Plain.readsBack {value : Value} (h : Plain value) : ReadsBack value := by
  induction h with
  | null =>
      intro level bound rest hbound _
      obtain ⟨bound, rfl⟩ := Nat.exists_eq_add_one.mpr (Nat.zero_lt_of_lt hbound)
      simp only [readValue?, render]
      rfl
  | bool value =>
      intro level bound rest hbound _
      obtain ⟨bound, rfl⟩ := Nat.exists_eq_add_one.mpr (Nat.zero_lt_of_lt hbound)
      cases value <;> rfl
  | natural value => exact readsBack_natural value
  | string value => exact readsBack_string value
  | array h ih => exact readsBack_array h ih
  | object h ih => exact readsBack_object ih

theorem Plain.read? {value : Value} (h : Plain value) :
    Json.read? (render 0 value ++ ['\n']) = some value := by
  have hread := h.readsBack 0 ((render 0 value ++ ['\n']).length + 1) ['\n']
    (by simp only [List.length_append]; omega) (endsValue_newLine 0 [])
  rw [Json.read?, hread]
  rfl

end CaptureLint.Json
