import CaptureLint.Token.Lexeme
import CaptureLint.Token.StringLiteral

/-!
# The pieces of a text

A text is cut into pieces that follow each other without a gap: lexemes, blanks, and the signs that
open and close an interpolation.  The pieces of a text put together are the text, whatever it holds
(`flatMap_text_pieces`); the tokens are the lexemes among them with their byte offsets.
-/

namespace CaptureLint.Token

inductive Piece where
  | lexeme (kind : TokenKind) (text : List Char)
  | blank (c : Char)
  /-- A backslash, `hashes` signs `#` and an opening bracket. -/
  | opening (hashes : Nat)
  /-- The bracket that closes an interpolation. -/
  | closing
deriving DecidableEq, Repr

namespace Piece

def text : Piece → List Char
  | lexeme _ text => text
  | blank c => [c]
  | opening hashes => '\\' :: (List.replicate hashes '#' ++ ['('])
  | closing => [')']

/-- Whether a suffix operator can be written right after this piece. -/
def takesSuffix : Piece → Bool
  | lexeme .identifier _ | lexeme .keyword _ | lexeme .number _ | lexeme .string _ => true
  | lexeme .punctuation text => text == [')'] || text == [']'] || text == ['\x7d']
  | lexeme .operator text => text == ['?'] || text == ['!']
  | _ => false

end Piece

/-- An open interpolation: the literal it stands in, and the number of round brackets open in it. -/
structure Interpolation where
  delimiter : Delimiter
  depth : Nat
deriving DecidableEq, Repr

def bracketOpened : List Interpolation → List Interpolation
  | [] => []
  | inner :: outer => { inner with depth := inner.depth + 1 } :: outer

def bracketClosed : List Interpolation → List Interpolation
  | [] => []
  | inner :: outer => { inner with depth := inner.depth - 1 } :: outer

/-- What one step of cutting finds: some pieces, the interpolations open after them, and the number
of characters they take beyond the first. -/
structure Cut where
  pieces : List Piece
  opened : List Interpolation
  taken : Nat
deriving DecidableEq, Repr

/-- A segment of a string literal: `lead` belongs to it already, and `text` follows. -/
def cutSegment (delimiter : Delimiter) (opened : List Interpolation) (lead text : List Char) :
    List Piece × List Interpolation × Nat :=
  let (length, ending) := segment delimiter 0 text
  let literal := lead ++ text.take length
  let pieces := if literal.isEmpty then [] else [.lexeme .string literal]
  match ending with
  | .interpolation =>
      (pieces ++ [.opening delimiter.hashes], ⟨delimiter, 0⟩ :: opened, length + delimiter.hashes + 2)
  | _ => (pieces, opened, length)

def cut (opened : List Interpolation) (before : Option Piece) (c : Char) (rest : List Char) : Cut :=
  if Text.isBlank c then ⟨[.blank c], opened, 0⟩
  else
    match c, opened with
    | ')', ⟨delimiter, 0⟩ :: outer =>
        let (pieces, opened, taken) := cutSegment delimiter outer [] rest
        ⟨.closing :: pieces, opened, taken⟩
    | _, _ =>
        match Delimiter.opening? (c :: rest) with
        | some delimiter =>
            let lead := (c :: rest).take delimiter.width
            let body := (c :: rest).drop delimiter.width
            let (pieces, opened, taken) := cutSegment delimiter opened lead body
            ⟨pieces, opened, taken + delimiter.width - 1⟩
        | none =>
            let (kind, length) := lexemeAt (before.any Piece.takesSuffix) c rest
            let opened :=
              if c = '(' then bracketOpened opened
              else if c = ')' then bracketClosed opened
              else opened
            ⟨[.lexeme kind (c :: rest.take length)], opened, length⟩

/-- The pieces of a text, read inside the interpolations `opened` and after the piece `before`. -/
def piecesFrom (opened : List Interpolation) (before : Option Piece) : List Char → List Piece
  | [] => []
  | c :: rest =>
      let found := cut opened before c rest
      found.pieces ++ piecesFrom found.opened found.pieces.getLast? (rest.drop found.taken)
termination_by text => text.length
decreasing_by
  simp only [List.length_drop, List.length_cons]
  omega

def pieces (text : List Char) : List Piece := piecesFrom [] none text

def locate : Nat → List Piece → List Token
  | _, [] => []
  | start, .lexeme kind text :: pieces =>
      ⟨kind, start, text⟩ :: locate (start + Source.bytesOf text) pieces
  | start, piece :: pieces => locate (start + Source.bytesOf piece.text) pieces

def tokens (text : List Char) : List Token := locate 0 (pieces text)

end CaptureLint.Token

namespace CaptureLint.Source

def tokens (source : Source) : List Token := Token.tokens source.chars

end CaptureLint.Source
