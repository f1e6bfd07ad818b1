import CaptureLint.Json.Printer

/-!
# Reading JSON

`read?` accepts the texts of the JSON grammar and gives their values.  The inner functions return
what they leave of the text; their first argument bounds the nesting and the number of items, and the
length of the text is always enough.
-/

namespace CaptureLint.Json

def isSpace (c : Char) : Bool := c == ' ' || c == '\n' || c == '\r' || c == '\t'

def skipSpace (text : List Char) : List Char := text.dropWhile isSpace

def afterWord? : List Char → List Char → Option (List Char)
  | [], text => some text
  | c :: word, d :: text => if c = d then afterWord? word text else none
  | _ :: _, [] => none

/-! ## Strings -/

def hexValue? (c : Char) : Option Nat :=
  if c.isDigit then some (c.toNat - '0'.toNat)
  else if 'a' ≤ c ∧ c ≤ 'f' then some (c.toNat - 'a'.toNat + 10)
  else if 'A' ≤ c ∧ c ≤ 'F' then some (c.toNat - 'A'.toNat + 10)
  else none

def hexCode? (a b c d : Char) : Option Nat := do
  some (((← hexValue? a) * 16 + (← hexValue? b)) * 256 + ((← hexValue? c) * 16 + (← hexValue? d)))

def unescape? (c : Char) : Option Char :=
  if c = '"' ∨ c = '\\' ∨ c = '/' then some c
  else if c = 'b' then some '\x08'
  else if c = 'f' then some '\x0c'
  else if c = 'n' then some '\n'
  else if c = 'r' then some '\r'
  else if c = 't' then some '\t'
  else none

/-- The character of a code that is no surrogate. -/
def charOfCode? (code : Nat) : Option Char :=
  if 0xD800 ≤ code ∧ code < 0xE000 then none else some (Char.ofNat code)

def charOfPair? (high low : Nat) : Option Char :=
  if 0xD800 ≤ high ∧ high < 0xDC00 ∧ 0xDC00 ≤ low ∧ low < 0xE000 then
    some (Char.ofNat (0x10000 + (high - 0xD800) * 1024 + (low - 0xDC00)))
  else none

def readString? (read : List Char) : List Char → Option (String × List Char)
  | [] => none
  | '"' :: text => some (String.ofList read.reverse, text)
  | '\\' :: 'u' :: a :: b :: c :: d :: '\\' :: 'u' :: e :: f :: g :: h :: text => do
      let first ← hexCode? a b c d
      match charOfCode? first with
      | some char => readString? (char :: read) ('\\' :: 'u' :: e :: f :: g :: h :: text)
      | none => readString? ((← charOfPair? first (← hexCode? e f g h)) :: read) text
  | '\\' :: 'u' :: a :: b :: c :: d :: text => do
      readString? ((← charOfCode? (← hexCode? a b c d)) :: read) text
  | '\\' :: c :: text => do readString? ((← unescape? c) :: read) text
  | c :: text => if c.toNat < 0x20 then none else readString? (c :: read) text

/-! ## Numbers -/

def digitsValue (digits : List Char) : Nat :=
  digits.foldl (fun value c => value * 10 + (c.toNat - '0'.toNat)) 0

def digits? (text : List Char) : Option (List Char × List Char) :=
  let digits := text.takeWhile Char.isDigit
  if digits.isEmpty then none else some (digits, text.dropWhile Char.isDigit)

/-- The digits before the point: a zero, or digits that do not start with a zero. -/
def wholePart? (text : List Char) : Option (List Char × List Char) := do
  let (digits, rest) ← digits? text
  if digits.head? = some '0' ∧ 1 < digits.length then none else some (digits, rest)

def fraction? : List Char → Option (List Char × List Char)
  | '.' :: text => do
      let (digits, rest) ← digits? text
      some ('.' :: digits, rest)
  | text => some ([], text)

def exponent? (text : List Char) : Option (List Char × List Char) :=
  match text with
  | mark :: after =>
      if mark = 'e' ∨ mark = 'E' then
        let sign := after.takeWhile fun c => c == '+' || c == '-'
        if 1 < sign.length then none
        else do
          let (digits, rest) ← digits? (after.drop sign.length)
          some (mark :: sign ++ digits, rest)
      else some ([], text)
  | [] => some ([], [])

def readNumber? (text : List Char) : Option (Value × List Char) := do
  let sign := if text.head? = some '-' then ['-'] else []
  let (whole, rest) ← wholePart? (text.drop sign.length)
  let (fraction, rest) ← fraction? rest
  let (exponent, rest) ← exponent? rest
  if sign.isEmpty && fraction.isEmpty && exponent.isEmpty then
    some (.natural (digitsValue whole), rest)
  else some (.otherNumber (sign ++ whole ++ fraction ++ exponent), rest)

/-! ## Values -/

mutual

def readValue? : Nat → List Char → Option (Value × List Char)
  | 0, _ => none
  | bound + 1, text =>
      match skipSpace text with
      | '[' :: text =>
          match skipSpace text with
          | ']' :: text => some (.array [], text)
          | text => readItems? bound [] text
      | '{' :: text =>
          match skipSpace text with
          | '}' :: text => some (.object [], text)
          | text => readMembers? bound [] text
      | '"' :: text => do
          let (value, text) ← readString? [] text
          some (.string value, text)
      | 'n' :: text => do some (.null, ← afterWord? "ull".toList text)
      | 't' :: text => do some (.bool true, ← afterWord? "rue".toList text)
      | 'f' :: text => do some (.bool false, ← afterWord? "alse".toList text)
      | text => readNumber? text

/-- Reads the items of an array that follow those in `items`, newest first, and its end. -/
def readItems? : Nat → List Value → List Char → Option (Value × List Char)
  | 0, _, _ => none
  | bound + 1, items, text => do
      let (item, text) ← readValue? bound text
      match skipSpace text with
      | ',' :: text => readItems? bound (item :: items) text
      | ']' :: text => some (.array (item :: items).reverse, text)
      | _ => none

/-- Reads the members of an object that follow those in `members`, newest first, and its end. -/
def readMembers? : Nat → List (String × Value) → List Char → Option (Value × List Char)
  | 0, _, _ => none
  | bound + 1, members, text =>
      match skipSpace text with
      | '"' :: text => do
          let (name, text) ← readString? [] text
          match skipSpace text with
          | ':' :: text => do
              let (value, text) ← readValue? bound text
              match skipSpace text with
              | ',' :: text => readMembers? bound ((name, value) :: members) text
              | '}' :: text => some (.object ((name, value) :: members).reverse, text)
              | _ => none
          | _ => none
      | _ => none

end

def read? (text : List Char) : Option Value := do
  let (value, rest) ← readValue? (text.length + 1) text
  if (skipSpace rest).isEmpty then some value else none

end CaptureLint.Json
