/-!
# TOML strings

Strings are written in four ways: between single or triple, double or plain quotes.  Each reader
starts after the opening quotes and returns the string with the text after the closing ones.
-/

namespace CaptureLint.Toml

/-- Control characters that may stand neither in strings nor in comments; tabs may. -/
def isForbidden (c : Char) : Bool := (c.toNat < 0x20 && c != '\t') || c.toNat == 0x7F

def isSpace (c : Char) : Bool := c == ' ' || c == '\t'

def skipSpace (text : List Char) : List Char := text.dropWhile isSpace

def hexValue? (c : Char) : Option Nat :=
  if c.isDigit then some (c.toNat - '0'.toNat)
  else if 'a' ≤ c ∧ c ≤ 'f' then some (c.toNat - 'a'.toNat + 10)
  else if 'A' ≤ c ∧ c ≤ 'F' then some (c.toNat - 'A'.toNat + 10)
  else none

def hexNumber? (digits : List Char) : Option Nat :=
  digits.foldlM (fun value c => (hexValue? c).map (value * 16 + ·)) 0

/-- The character with a code, if it is a scalar value. -/
def charOfCode? (code : Nat) : Option Char :=
  if code < 0xD800 ∨ (0xE000 ≤ code ∧ code < 0x110000) then some (Char.ofNat code) else none

def escapeDigits : Char → Nat
  | 'x' => 2
  | 'u' => 4
  | 'U' => 8
  | _ => 0

def plainEscape? : Char → Option Char
  | 'b' => some '\x08'
  | 't' => some '\t'
  | 'n' => some '\n'
  | 'f' => some '\x0c'
  | 'r' => some '\r'
  | 'e' => some '\x1b'
  | '"' => some '"'
  | '\\' => some '\\'
  | _ => none

/-- The character that an escape stands for, `c` following the backslash and then `text`; with it the
number of characters of `text` that belong to the escape. -/
def escaped? (c : Char) (text : List Char) : Option (Char × Nat) :=
  let digits := escapeDigits c
  if digits = 0 then (plainEscape? c).map (·, 0)
  else if text.length < digits then none
  else do some (← charOfCode? (← hexNumber? (text.take digits)), digits)

def dropNewline : List Char → List Char
  | '\n' :: text => text
  | '\r' :: '\n' :: text => text
  | text => text

/-- The rest of a text after blanks, a newline and all blanks and newlines that follow, if it starts with
blanks and a newline: what a backslash at the end of a line leaves out. -/
def continuation? (text : List Char) : Option (List Char) :=
  let rest := skipSpace text
  if (dropNewline rest).length < rest.length then
    some (rest.dropWhile fun c => isSpace c || c == '\n' || c == '\r')
  else none

theorem length_continuation?_le {text rest : List Char} (h : continuation? text = some rest) :
    rest.length ≤ text.length := by
  simp only [continuation?] at h
  split at h
  · cases h
    exact Nat.le_trans (List.dropWhile_sublist _).length_le (List.dropWhile_sublist _).length_le
  · cases h

def readBasic (read : List Char) : List Char → Option (String × List Char)
  | [] => none
  | '"' :: text => some (String.ofList read.reverse, text)
  | '\\' :: c :: text =>
      match escaped? c text with
      | some (char, length) => readBasic (char :: read) (text.drop length)
      | none => none
  | c :: text => if isForbidden c then none else readBasic (c :: read) text
termination_by text => text.length
decreasing_by
  all_goals simp only [List.length_cons, List.length_drop]
  all_goals omega

def readLiteral (read : List Char) : List Char → Option (String × List Char)
  | [] => none
  | '\'' :: text => some (String.ofList read.reverse, text)
  | c :: text => if isForbidden c then none else readLiteral (c :: read) text

/-- How many of a run of quotes belong to a string that they close: up to two before the last three. -/
def closingQuotes (run : Nat) : Nat := min run 5 - 3

/-- Reads a string in triple quotes, in which escapes count if `escapes`. -/
def readLong (quote : Char) (escapes : Bool) (read : List Char) :
    List Char → Option (String × List Char)
  | [] => none
  | c :: text =>
      if c = quote then
        let run := 1 + (text.takeWhile (· == quote)).length
        if run < 3 then readLong quote escapes (c :: read) text
        else
          let kept := closingQuotes run
          some (String.ofList (List.replicate kept quote ++ read).reverse, text.drop (kept + 2))
      else if c = '\\' ∧ escapes then
        match _h : continuation? text with
        | some rest => readLong quote escapes read rest
        | none =>
            match text with
            | [] => none
            | c :: text =>
                match escaped? c text with
                | some (char, length) => readLong quote escapes (char :: read) (text.drop length)
                | none => none
      else if c = '\n' then readLong quote escapes (c :: read) text
      else if c = '\r' then
        if text.head? = some '\n' then readLong quote escapes (c :: read) text else none
      else if isForbidden c then none
      else readLong quote escapes (c :: read) text
termination_by text => text.length
decreasing_by
  all_goals try have := length_continuation?_le _h
  all_goals simp only [List.length_cons, List.length_drop] at *
  all_goals omega

def readString? : List Char → Option (String × List Char)
  | '"' :: '"' :: '"' :: text => readLong '"' true [] (dropNewline text)
  | '"' :: text => readBasic [] text
  | '\'' :: '\'' :: '\'' :: text => readLong '\'' false [] (dropNewline text)
  | '\'' :: text => readLiteral [] text
  | _ => none

end CaptureLint.Toml
