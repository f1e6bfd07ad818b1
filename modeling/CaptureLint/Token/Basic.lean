import CaptureLint.Source.Basic

/-!
# Tokens

A token is a lexeme of a Swift source text together with the byte offset where it starts.  Its text
is part of it, so its length is determined and a token can be read without the source.
-/

namespace CaptureLint

inductive TokenKind where
  | identifier
  | keyword
  /-- An at sign with the word after it. -/
  | atWord
  | number
  | string
  | comment
  | punctuation
  | operator
deriving DecidableEq, Repr

namespace TokenKind

/-- Kinds that spell a name of the program. -/
def isName : TokenKind → Bool
  | identifier | keyword => true
  | _ => false

def isTrivia : TokenKind → Bool
  | comment => true
  | _ => false

def isSign : TokenKind → Bool
  | punctuation | operator => true
  | _ => false

def name : TokenKind → String
  | identifier => "identifier"
  | keyword => "keyword"
  | atWord => "attribute"
  | number => "number"
  | string => "string"
  | comment => "comment"
  | punctuation => "punctuation"
  | operator => "operator"

end TokenKind

structure Token where
  kind : TokenKind
  /-- The byte offset of the first character. -/
  start : Nat
  text : List Char
deriving DecidableEq, Repr

namespace Token

variable (token : Token)

def range : ByteRange := ⟨token.start, Source.bytesOf token.text⟩

def stop : Nat := token.range.stop

/-- A token of any kind with this text. -/
def spells (word : String) : Bool := token.text == word.toList

/-- The sign `sign`, as punctuation or as an operator. -/
def isSymbol (sign : String) : Bool := token.kind.isSign && token.spells sign

def isPunctuation (sign : String) : Bool := token.kind == .punctuation && token.spells sign

def isKeyword (word : String) : Bool := token.kind == .keyword && token.spells word

def isAmong (words : List String) : Bool := words.contains (String.ofList token.text)

/-- The token `distance` bytes further on, reading whatever text stands there: nothing at all where
the moved range leaves the source or cuts a character. -/
def movedIn (source : Source) (distance : Nat) : Token :=
  let start := token.start + distance
  { token with
    start
    text := (source.substringOfBytes? ⟨start, token.range.length⟩).getD [] }

/-- The same token in a text that has `distance` more bytes in front. -/
def shift (distance : Nat) : Token := { token with start := token.start + distance }

theorem stop_eq : token.stop = token.start + Source.bytesOf token.text := rfl

theorem stop_shift (distance : Nat) : (token.shift distance).stop = token.stop + distance := by
  simp only [stop_eq, shift]
  omega

end Token

end CaptureLint
