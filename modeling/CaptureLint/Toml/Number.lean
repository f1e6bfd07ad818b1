import CaptureLint.Toml.Document

/-!
# TOML numbers, dates and truth values

These are written without quotes.  Which of them a word is follows from its form; words of no form
are no values.  A number that is too large for the formats that numbers are kept in, integers of 128
bits and binary floating point with eleven bits of exponent, is none either.
-/

namespace CaptureLint.Toml

def isDigitRun (isDigit : Char → Bool) : List Char → Bool
  | [] => false
  | [c] => isDigit c
  | c :: '_' :: rest => isDigit c && isDigitRun isDigit rest
  | c :: rest => isDigit c && isDigitRun isDigit rest

def digitsValue (base : Nat) (word : List Char) : Nat :=
  (word.filter (· != '_')).foldl
    (fun value c =>
      let digit := if c.isDigit then c.toNat - '0'.toNat else c.toLower.toNat - 'a'.toNat + 10
      value * base + digit)
    0

def isHexDigit (c : Char) : Bool :=
  c.isDigit || ('a' ≤ c && c ≤ 'f') || ('A' ≤ c && c ≤ 'F')

/-- Decimal digits that do not start with a needless zero. -/
def isWhole (word : List Char) : Bool :=
  isDigitRun Char.isDigit word && (word.head? != some '0' || word.length == 1)

/-- A word without its sign, and whether the sign was a minus. -/
def unsigned (word : List Char) : Bool × List Char :=
  match word with
  | '-' :: rest => (true, rest)
  | '+' :: rest => (false, rest)
  | rest => (false, rest)

def isInteger (word : List Char) : Bool :=
  let fits (value : Nat) : Bool := value < Nat.pow 2 128
  match word with
  | '0' :: 'x' :: digits => isDigitRun isHexDigit digits && fits (digitsValue 16 digits)
  | '0' :: 'o' :: digits =>
      isDigitRun (fun c => '0' ≤ c && c ≤ '7') digits && fits (digitsValue 8 digits)
  | '0' :: 'b' :: digits =>
      isDigitRun (fun c => c == '0' || c == '1') digits && fits (digitsValue 2 digits)
  | word =>
      let (negative, digits) := unsigned word
      let value := digitsValue 10 digits
      isWhole digits && if negative then value ≤ Nat.pow 2 127 else fits value

/-! ## Floats -/

/-- Whether `digits · 10 ^ exponent` is finite in binary floating point with eleven bits of exponent:
below the middle between the largest finite number and the next power of two. -/
def isFinite (digits : List Char) (exponent : Int) : Bool :=
  let digits := (digits.filter (· != '_')).dropWhile (· == '0')
  let value := digitsValue 10 digits
  let places : Int := digits.length + exponent
  if value = 0 ∨ places < 300 then true
  else if 320 < places then false
  else
    let limit := Nat.pow 2 1024 - Nat.pow 2 970
    if 0 ≤ exponent then value * Nat.pow 10 exponent.toNat < limit
    else value < limit * Nat.pow 10 (-exponent).toNat

def isFloat (word : List Char) : Bool :=
  let (_, word) := unsigned word
  if word = "inf".toList ∨ word = "nan".toList then true
  else
    let isPlace (c : Char) : Bool := c.isDigit || c == '_'
    let whole := word.takeWhile isPlace
    let rest := word.drop whole.length
    let (fraction, rest) :=
      match rest with
      | '.' :: rest =>
          let digits := rest.takeWhile isPlace
          (some digits, rest.drop digits.length)
      | rest => (none, rest)
    let exponent :=
      match rest with
      | mark :: rest => if mark = 'e' ∨ mark = 'E' then some (unsigned rest) else none
      | [] => none
    let exponentFits := exponent.all fun (_, digits) => isDigitRun Char.isDigit digits
    let exponentValue : Int :=
      match exponent with
      | some (true, digits) => - (digitsValue 10 digits : Int)
      | some (false, digits) => digitsValue 10 digits
      | none => 0
    let fractionDigits := (fraction.getD []).filter (· != '_')
    isWhole whole && fraction.all (isDigitRun Char.isDigit) &&
      (rest.isEmpty || exponent.isSome) && exponentFits && (fraction.isSome || exponent.isSome) &&
      isFinite (whole ++ fractionDigits) (exponentValue - fractionDigits.length)

/-! ## Dates and times -/

def digits? (word : List Char) : Option Nat :=
  if !word.isEmpty && word.all Char.isDigit then some (digitsValue 10 word) else none

def daysIn (year month : Nat) : Nat :=
  if month = 2 then
    if (year % 4 = 0 ∧ year % 100 ≠ 0) ∨ year % 400 = 0 then 29 else 28
  else if month = 4 ∨ month = 6 ∨ month = 9 ∨ month = 11 then 30
  else 31

/-- The rest of a word after a date `YYYY-MM-DD`. -/
def afterDate? : List Char → Option (List Char)
  | a :: b :: c :: d :: '-' :: e :: f :: '-' :: g :: h :: rest => do
      let year ← digits? [a, b, c, d]
      let month ← digits? [e, f]
      let day ← digits? [g, h]
      if 1 ≤ month ∧ month ≤ 12 ∧ 1 ≤ day ∧ day ≤ daysIn year month then some rest else none
  | _ => none

def afterMinutes? : List Char → Option (List Char)
  | a :: b :: ':' :: c :: d :: rest => do
      let hour ← digits? [a, b]
      let minute ← digits? [c, d]
      if hour < 24 ∧ minute < 60 then some rest else none
  | _ => none

/-- The rest of a word after a time, whose seconds and fraction of a second may be left out. -/
def afterTime? (word : List Char) : Option (List Char) := do
  match ← afterMinutes? word with
  | ':' :: a :: b :: rest =>
      let second ← digits? [a, b]
      if 60 < second then none
      else
        match rest with
        | '.' :: rest =>
            let fraction := rest.takeWhile Char.isDigit
            if fraction.isEmpty then none else some (rest.drop fraction.length)
        | rest => some rest
  | rest => some rest

/-- Whether a word is a time with the distance to universal time, which may be left out. -/
def isTimeWithOffset (word : List Char) : Bool :=
  match afterTime? word with
  | none => false
  | some [] | some ['Z'] | some ['z'] => true
  | some (sign :: rest) => (sign == '+' || sign == '-') && afterMinutes? rest == some []

def isDatetime (word : List Char) : Bool :=
  match afterDate? word with
  | some [] => true
  | some (separator :: time) =>
      (separator == 'T' || separator == 't') && isTimeWithOffset time
  | none => afterTime? word == some []

/-! ## Words -/

def isWordChar (c : Char) : Bool :=
  c.isAlphanum || c == '_' || c == '+' || c == '-' || c == '.' || c == ':'

def wordValue? (word : List Char) : Option Value :=
  if word = "true".toList then some (.boolean true)
  else if word = "false".toList then some (.boolean false)
  else if isInteger word then some .integer
  else if isFloat word then some .float
  else if isDatetime word then some .datetime
  else none

/-- Reads a value without quotes.  A date may be followed by a blank and a time. -/
def readWord? (text : List Char) : Option (Value × List Char) := do
  let word := text.takeWhile isWordChar
  let rest := text.drop word.length
  let value ← wordValue? word
  match rest with
  | ' ' :: after =>
      let time := after.takeWhile isWordChar
      if afterDate? word = some [] ∧ isTimeWithOffset time then
        some (.datetime, after.drop time.length)
      else some (value, rest)
  | rest => some (value, rest)

end CaptureLint.Toml
