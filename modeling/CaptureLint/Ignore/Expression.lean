/-!
# Expressions over bytes

Regular expressions over the bytes of a path.  An expression matches a text when what is left of it
after all bytes of the text, its derivative, allows the empty text.
-/

namespace CaptureLint.Ignore

inductive Expression where
  /-- No text at all. -/
  | nothing
  | empty
  /-- One byte that lies in one of the ranges, or with `negated` in none of them. -/
  | byte (negated : Bool) (ranges : List (UInt8 × UInt8))
  | seq (first second : Expression)
  | either (first second : Expression)
  | many (body : Expression)
deriving DecidableEq, Repr

namespace Expression

def nullable : Expression → Bool
  | nothing => false
  | empty => true
  | byte _ _ => false
  | seq first second => first.nullable && second.nullable
  | either first second => first.nullable || second.nullable
  | many _ => true

def followedBy : Expression → Expression → Expression
  | nothing, _ => nothing
  | _, nothing => nothing
  | empty, second => second
  | first, second => seq first second

def orElse : Expression → Expression → Expression
  | nothing, second => second
  | first, nothing => first
  | first, second => if first = second then first else either first second

/-- What has to follow the byte `b`. -/
def derivative (b : UInt8) : Expression → Expression
  | nothing => nothing
  | empty => nothing
  | byte negated ranges =>
      let within := ranges.any fun range => range.1 ≤ b && b ≤ range.2
      if within != negated then empty else nothing
  | seq first second =>
      let rest := (first.derivative b).followedBy second
      if first.nullable then rest.orElse (second.derivative b) else rest
  | either first second => (first.derivative b).orElse (second.derivative b)
  | many body => (body.derivative b).followedBy (many body)

def accepts (expression : Expression) : List UInt8 → Bool
  | [] => expression.nullable
  | b :: text => (expression.derivative b).accepts text

def literal (text : List UInt8) : Expression :=
  text.foldr (fun b rest => (byte false [(b, b)]).followedBy rest) empty

def anyByte : Expression := byte true []

def anything : Expression := many anyByte

def slash : Expression := literal "/".toUTF8.toList

def nameByte : Expression := byte true [(47, 47)]

end Expression

end CaptureLint.Ignore
