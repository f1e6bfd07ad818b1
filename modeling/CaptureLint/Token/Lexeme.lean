import CaptureLint.Token.Basic
import CaptureLint.Token.Keyword
import CaptureLint.Text.Blank

/-!
# Single lexemes

What lexeme starts at a character that is not blank and does not open a string literal.  `lexemeAt`
answers with the kind and with the number of *further* characters, so a lexeme is never empty, and
every character starts one: what is not recognised is punctuation of one character.  Beyond ASCII a
character belongs to names unless it is blank or a control character, so names may hold any letter,
digit or symbol of any script.
-/

namespace CaptureLint.Token

/-! ## Classes of characters -/

/-- The control characters: U+0000 to U+001F and U+007F to U+009F. -/
def isControl (c : Char) : Bool := c.toNat < 0x20 || (0x7F ≤ c.toNat && c.toNat ≤ 0x9F)

def isNameStart (c : Char) : Bool :=
  c == '_' || c.isAlpha || (0x80 ≤ c.toNat && !Text.isBlank c && !isControl c)

def isNameChar (c : Char) : Bool := isNameStart c || c.isDigit

def isOperatorChar (c : Char) : Bool := "/=-+!*%<>&|^~?".toList.contains c

def isSeparator (c : Char) : Bool := "()[]\x7b\x7d,:;\\".toList.contains c

/-! ## Lexemes -/

def lineLength (text : List Char) : Nat := (text.takeWhile (· != '\n')).length

def nameLength (text : List Char) : Nat := (text.takeWhile isNameChar).length

/-- The length of the rest of a block comment in which `depth` comments are open.  Comments nest, and
one that is never closed goes on to the end of the text. -/
def blockCommentLength : Nat → List Char → Nat
  | 0, _ => 0
  | _ + 1, [] => 0
  | depth + 1, '/' :: '*' :: text => 2 + blockCommentLength (depth + 2) text
  | depth + 1, '*' :: '/' :: text => 2 + blockCommentLength depth text
  | depth + 1, _ :: text => 1 + blockCommentLength (depth + 1) text

/-- Whether a number whose last character so far is `last` goes on with `c` when `next` follows: with
a letter, a digit or `_`, with a point before a digit, or with the sign of an exponent. -/
def numberContinues (hexadecimal : Bool) (last c : Char) (next : Option Char) : Bool :=
  c.isAlphanum || c == '_' || (c == '.' && next.any Char.isDigit) ||
    ((c == '+' || c == '-') &&
      (if hexadecimal then last == 'p' || last == 'P' else last == 'e' || last == 'E'))

/-- The length of the rest of a number after its character `last`. -/
def numberLength (hexadecimal : Bool) : Char → List Char → Nat
  | _, [] => 0
  | last, c :: text =>
      if numberContinues hexadecimal last c text.head? then 1 + numberLength hexadecimal c text
      else 0

def opensComment (text : List Char) : Bool := text.head? == some '/' || text.head? == some '*'

/-- The length of a run of operator characters; a comment ends it. -/
def operatorLength : List Char → Nat
  | [] => 0
  | c :: text =>
      if isOperatorChar c && !(c == '/' && opensComment text) then 1 + operatorLength text else 0

/-- The number of characters after an opening backtick up to and with the closing one, which must
stand on the same line, with a name between them. -/
def quotedNameLength? (text : List Char) : Option Nat :=
  let name := text.takeWhile fun c => c != '\x60' && c != '\n'
  if !name.isEmpty && text[name.length]? == some '\x60' then some (name.length + 1) else none

/-- The kind of the lexeme that starts with `c` and the number of characters of `rest` that belong to
it.  `bound` tells whether something that can take a suffix ends right before `c`: then a single `?`
or `!` is the suffix, unless `=` follows. -/
def lexemeAt (bound : Bool) (c : Char) (rest : List Char) : TokenKind × Nat :=
  if c = '/' ∧ rest.head? = some '/' then (.comment, lineLength rest)
  else if c = '/' ∧ rest.head? = some '*' then (.comment, 1 + blockCommentLength 1 (rest.drop 1))
  else if c = '#' then
    if nameLength rest = 0 then (.punctuation, 0) else (.keyword, nameLength rest)
  else if c = '@' then
    if nameLength rest = 0 then (.punctuation, 0) else (.atWord, nameLength rest)
  else if c = '\x60' then
    match quotedNameLength? rest with
    | some length => (.identifier, length)
    | none => (.punctuation, 0)
  else if c = '$' then (.identifier, nameLength rest)
  else if c.isDigit then
    let hexadecimal := c == '0' && (rest.head? == some 'x' || rest.head? == some 'X')
    (.number, numberLength hexadecimal c rest)
  else if isSeparator c then (.punctuation, 0)
  else if c = '.' then
    let dots := (rest.takeWhile (· == '.')).length
    if dots = 0 then (.punctuation, 0)
    else (.operator, if rest[dots]? = some '<' then dots + 1 else dots)
  else if (c = '?' ∨ c = '!') ∧ bound ∧ rest.head? ≠ some '=' then (.operator, 0)
  else if isOperatorChar c then (.operator, operatorLength rest)
  else if isNameStart c then
    let length := nameLength rest
    (if Keyword.isReserved (c :: rest.take length) then .keyword else .identifier, length)
  else (.punctuation, 0)

end CaptureLint.Token
