import CaptureLint.Proofs.Token.Bytes

/-!
# Lexemes in bytes

The lexeme that starts at a place, found by a reader that looks at single bytes and decodes only the
characters of names.  Its end is the end of a whole character, and it is the lexeme that is found in
characters.
-/

namespace CaptureLint.Token

open Source

variable {text rest : List Char} {c d : Char} {p : Char → Bool}

/-! ## Decoding -/

def firstChar? (bytes : List UInt8) : Option Char := bytes.toByteArray.utf8DecodeChar? 0

theorem firstChar?_nil : firstChar? [] = none := by
  cases h : firstChar? [] with
  | none => rfl
  | some c =>
      obtain ⟨rest, hrest⟩ := ByteArray.exists_of_utf8DecodeChar?_eq_some h
      have hsize := congrArg ByteArray.size hrest
      have hpos := Char.utf8Size_pos c
      rw [ByteArray.size_append, List.size_toByteArray, List.size_toByteArray,
        String.length_utf8EncodeChar, List.length_nil] at hsize
      omega

theorem firstChar?_encode (c : Char) (text : List Char) : firstChar? (encode (c :: text)) = some c := by
  rw [firstChar?, encode, List.flatMap_cons, List.toByteArray_append, ← List.utf8Encode_singleton]
  exact List.utf8DecodeChar?_utf8Encode_singleton_append

def charWidth (bytes : List UInt8) : Nat :=
  match firstChar? bytes with
  | some c => c.utf8Size
  | none => 1

theorem charWidth_encode (c : Char) (text : List Char) :
    charWidth (encode (c :: text)) = c.utf8Size := by
  rw [charWidth, firstChar?_encode]

/-- The number of bytes of the name characters that some bytes start with, decoded one by one. -/
def nameBytes : List UInt8 → Nat
  | [] => 0
  | byte :: bytes =>
      match firstChar? (byte :: bytes) with
      | some c =>
          if isNameChar c then c.utf8Size + nameBytes ((byte :: bytes).drop c.utf8Size) else 0
      | none => 0
termination_by bytes => bytes.length
decreasing_by
  have := Char.utf8Size_pos c
  simp only [List.length_drop, List.length_cons]
  omega

theorem nameBytes_encode (text : List Char) :
    nameBytes (encode text) = bytesOf (text.take (nameLength text)) := by
  induction text with
  | nil => rw [show encode [] = [] from rfl, nameBytes, List.take_nil, bytesOf_nil]
  | cons c text ih =>
      have hfirst := firstChar?_encode c text
      have hdrop : (encode (c :: text)).drop c.utf8Size = encode text := drop_encode [c] text
      cases hbytes : encode (c :: text) with
      | nil =>
          rw [hbytes, firstChar?_nil] at hfirst
          cases hfirst
      | cons byte bytes =>
          rw [hbytes] at hfirst hdrop
          rw [nameBytes, hfirst]
          dsimp only
          rw [hdrop, ih, nameLength, nameLength, List.takeWhile_cons]
          split
          · rw [List.length_cons, List.take_succ_cons, bytesOf_cons]
          · rfl

/-! ## Lexemes -/

/-- The last case of a lexeme: names, and what is not recognised. -/
def wordInBytes (bytes : List UInt8) : TokenKind × Nat :=
  match firstChar? bytes with
  | some first =>
      if isNameStart first then
        (if Keyword.isReserved (signs (bytes.take (nameBytes bytes))) then .keyword
          else .identifier, nameBytes bytes)
      else (.punctuation, first.utf8Size)
  | none => (.punctuation, 1)

/-- The kind of the lexeme that some bytes start with, and its length in bytes. -/
def lexemeInBytes (bound : Bool) (bytes : List UInt8) : TokenKind × Nat :=
  match signs bytes with
  | [] => (.punctuation, 0)
  | c :: ahead =>
      let name := nameBytes (bytes.drop 1)
      if c = '/' ∧ ahead.head? = some '/' then (.comment, 1 + lineLength ahead)
      else if c = '/' ∧ ahead.head? = some '*' then
        (.comment, 2 + blockCommentLength 1 (ahead.drop 1))
      else if c = '#' then if name = 0 then (.punctuation, 1) else (.keyword, 1 + name)
      else if c = '@' then if name = 0 then (.punctuation, 1) else (.atWord, 1 + name)
      else if c = '\x60' then
        match quotedNameLength? ahead with
        | some length => (.identifier, 1 + length)
        | none => (.punctuation, 1)
      else if c = '$' then (.identifier, 1 + name)
      else if c.isDigit then
        let hexadecimal := c == '0' && (ahead.head? == some 'x' || ahead.head? == some 'X')
        (.number, 1 + numberLength hexadecimal c ahead)
      else if isSeparator c then (.punctuation, 1)
      else if c = '.' then
        let dots := (ahead.takeWhile (· == '.')).length
        if dots = 0 then (.punctuation, 1)
        else (.operator, 1 + rangeLength ahead)
      else if (c = '?' ∨ c = '!') ∧ bound ∧ ahead.head? ≠ some '=' then (.operator, 1)
      else if isOperatorChar c then (.operator, 1 + operatorLength ahead)
      else wordInBytes bytes

theorem isReserved_spelled (word : List Char) :
    Keyword.isReserved (spelled word) = Keyword.isReserved word := by
  have hascii : ∀ word, String.ofList word ∈ Keyword.reserved → word.all isAscii = true := by
    have hall : Keyword.reserved.all (fun word => word.toList.all isAscii) = true := by decide +kernel
    intro word hword
    have := List.all_eq_true.mp hall _ hword
    rwa [String.toList_ofList] at this
  rw [Keyword.isReserved, Keyword.isReserved, Bool.eq_iff_iff, List.contains_iff_mem,
    List.contains_iff_mem]
  constructor
  · intro hword
    have hword' : word = spelled word := (spelled_eq_iff (hascii _ hword)).mp rfl
    rwa [← hword'] at hword
  · intro hword
    rwa [spelled_of_all (hascii _ hword)]

def measured (c : Char) (rest : List Char) (found : TokenKind × Nat) : TokenKind × Nat :=
  (found.1, bytesOf (c :: rest.take found.2))

def wordAt (c : Char) (rest : List Char) : TokenKind × Nat :=
  if isNameStart c then
    let length := nameLength rest
    (if Keyword.isReserved (c :: rest.take length) then .keyword else .identifier, length)
  else (.punctuation, 0)

theorem wordInBytes_encode (c : Char) (text : List Char) :
    wordInBytes (encode (c :: text)) = measured c text (wordAt c text) := by
  unfold wordInBytes wordAt
  rw [firstChar?_encode]
  dsimp only
  split
  next hstart =>
    have hlength : nameLength (c :: text) = nameLength text + 1 := by
      rw [nameLength, List.takeWhile_cons_of_pos (by rw [isNameChar, hstart, Bool.true_or])]
      rfl
    have htake : (encode (c :: text)).take (bytesOf (c :: text.take (nameLength text))) =
        encode (c :: text.take (nameLength text)) := by
      conv => lhs; arg 2; rw [← List.take_append_drop (nameLength text) text, ← List.cons_append,
        encode_append]
      exact List.take_left' (length_encode _)
    rw [nameBytes_encode, hlength, List.take_succ_cons, htake]
    exact congrArg (·, _) (by rw [← isReserved_spelled (c :: _)]; rfl)
  next => rfl

theorem ne_of_wide (hc : isAscii c = false) (hd : isAscii d = true) : c ≠ d := by
  rintro rfl
  rw [hc] at hd
  cases hd

theorem isSign_of_wide (h : isAscii c = false) :
    c.isDigit = false ∧ isSeparator c = false ∧ isOperatorChar c = false := by
  have hseparators : "()[]\x7b\x7d,:;\\".toList.all isAscii = true := by decide
  exact ⟨eq_false_of_wide (fun _ => isAscii_of_isDigit) h,
    eq_false_of_wide (fun c hc => List.all_eq_true.mp hseparators c (List.contains_iff_mem.mp hc)) h,
    eq_false_of_wide (fun _ => isAscii_of_isOperatorChar) h⟩

/-- Beyond ASCII there are only names and characters that are not recognised. -/
theorem lexemeAt_of_wide (bound : Bool) (h : isAscii c = false) (rest : List Char) :
    lexemeAt bound c rest = wordAt c rest := by
  obtain ⟨hdigit, hseparator, hoperator⟩ := isSign_of_wide h
  unfold lexemeAt
  simp only [ne_of_wide h (d := '/') rfl, ne_of_wide h (d := '#') rfl, ne_of_wide h (d := '@') rfl,
    ne_of_wide h (d := '\x60') rfl, ne_of_wide h (d := '$') rfl, ne_of_wide h (d := '.') rfl,
    ne_of_wide h (d := '?') rfl, ne_of_wide h (d := '!') rfl, hdigit, hseparator, hoperator,
    false_and, or_self, Bool.false_eq_true, if_false]
  rfl

theorem lexemeInBytes_of_wide (bound : Bool) (h : isAscii c = false) (rest : List Char) :
    lexemeInBytes bound (encode (c :: rest)) = wordInBytes (encode (c :: rest)) := by
  obtain ⟨d, more, hspelled, hd, -⟩ := exists_spelled h
  obtain ⟨hdigit, hseparator, hoperator⟩ := isSign_of_wide hd
  have hsigns : signs (encode (c :: rest)) = d :: (more ++ spelled rest) := by
    have hcons := @spelled_cons rest c
    rwa [hspelled] at hcons
  unfold lexemeInBytes
  rw [hsigns]
  simp only [ne_of_wide hd (d := '/') rfl, ne_of_wide hd (d := '#') rfl,
    ne_of_wide hd (d := '@') rfl, ne_of_wide hd (d := '\x60') rfl, ne_of_wide hd (d := '$') rfl,
    ne_of_wide hd (d := '.') rfl, ne_of_wide hd (d := '?') rfl, ne_of_wide hd (d := '!') rfl, hdigit,
    hseparator, hoperator, false_and, or_self, Bool.false_eq_true, if_false]

theorem ite_eq_measured {q : Prop} [Decidable q] {one two one' two' : TokenKind × Nat}
    (hone : q → one = measured c rest one') (htwo : ¬ q → two = measured c rest two') :
    (if q then one else two) = measured c rest (if q then one' else two') := by
  split
  next hq => exact hone hq
  next hq => exact htwo hq

theorem measured_of_isAscii (h : isAscii c = true) (kind : TokenKind) (length : Nat) :
    measured c rest (kind, length) = (kind, 1 + bytesOf (rest.take length)) := by
  rw [← bytesOf_of_isAscii h]
  rfl

theorem bytesOf_nameLength_eq_zero_iff (text : List Char) :
    bytesOf (text.take (nameLength text)) = 0 ↔ nameLength text = 0 := by
  rw [nameLength, ← List.prefix_iff_eq_take.mp (List.takeWhile_prefix _)]
  cases text.takeWhile isNameChar with
  | nil => exact Iff.rfl
  | cons d name =>
      have hpos := bytesOf_pos (List.cons_ne_nil d name)
      rw [List.length_cons]
      omega

theorem lexemeInBytes_of_isAscii (bound : Bool) (h : isAscii c = true) (rest : List Char) :
    lexemeInBytes bound (encode (c :: rest)) = measured c rest (lexemeAt bound c rest) := by
  have hsigns : signs (encode (c :: rest)) = c :: spelled rest := spelled_cons_of_isAscii h rest
  have hdrop : (encode (c :: rest)).drop 1 = encode rest := by
    rw [← bytesOf_of_isAscii h]
    exact drop_encode [c] rest
  have hhead : ∀ d, isAscii d = true → ((spelled rest).head? = some d) = (rest.head? = some d) :=
    fun d hd => propext (head?_spelled hd)
  have hhead' : ∀ d, isAscii d = true →
      ((spelled rest).head? == some d) = (rest.head? == some d) := by
    intro d hd
    rw [Bool.eq_iff_iff, beq_iff_eq, beq_iff_eq, head?_spelled hd]
  have hone : ∀ kind, (kind, 1) = measured c rest (kind, 0) := fun kind =>
    (measured_of_isAscii h kind 0).symm
  unfold lexemeInBytes lexemeAt
  rw [hsigns, hdrop]
  -- the two readers ask the same questions
  simp only [hhead '/' rfl, hhead '*' rfl, hhead '=' rfl, hhead' 'x' rfl, hhead' 'X' rfl,
    nameBytes_encode rest, bytesOf_nameLength_eq_zero_iff,
    takeWhile_spelled_of_ascii (isAscii_of_beq (d := '.') rfl), ne_eq]
  refine ite_eq_measured (fun _ => ?line) fun _ => ite_eq_measured (fun hblock => ?block) fun _ =>
    ite_eq_measured (fun _ => ite_eq_measured (fun _ => hone _) fun _ => ?pound) fun _ =>
    ite_eq_measured (fun _ => ite_eq_measured (fun _ => hone _) fun _ => ?word) fun _ =>
    ite_eq_measured (fun _ => ?quoted) fun _ => ite_eq_measured (fun _ => ?dollar) fun _ =>
    ite_eq_measured (fun _ => ?number) fun _ => ite_eq_measured (fun _ => hone _) fun _ =>
    ite_eq_measured (fun _ => ite_eq_measured (fun _ => hone _) fun _ => ?range) fun _ =>
    ite_eq_measured (fun _ => hone _) fun _ => ite_eq_measured (fun _ => ?operator) fun _ =>
    wordInBytes_encode c rest
  case line => rw [lineLength_spelled, measured_of_isAscii h]
  case block =>
    obtain ⟨more, rfl⟩ := List.head?_eq_some_iff.mp hblock.2
    rw [spelled_cons_of_isAscii rfl, measured_of_isAscii h, List.drop_one, List.drop_one,
      List.tail_cons, List.tail_cons, blockCommentLength_spelled, bytesOf_take_cons_of_isAscii rfl,
      ← Nat.add_assoc]
  case pound | word | dollar => rw [measured_of_isAscii h]
  case quoted =>
    rw [quotedNameLength?_spelled]
    cases quotedNameLength? rest with
    | none => exact hone _
    | some length => rw [Option.map_some, measured_of_isAscii h]
  case number => rw [measured_of_isAscii h, numberLength_spelled]
  case range =>
    rw [rangeLength_spelled, measured_of_isAscii h]
    rfl
  case operator => rw [measured_of_isAscii h, operatorLength_spelled]

/-- A step over the bytes of a lexeme is the step over its characters. -/
theorem lexemeInBytes_encode (bound : Bool) (c : Char) (rest : List Char) :
    lexemeInBytes bound (encode (c :: rest)) = measured c rest (lexemeAt bound c rest) := by
  cases hc : isAscii c with
  | true => exact lexemeInBytes_of_isAscii bound hc rest
  | false =>
      rw [lexemeInBytes_of_wide bound hc, lexemeAt_of_wide bound hc]
      exact wordInBytes_encode c rest

end CaptureLint.Token
