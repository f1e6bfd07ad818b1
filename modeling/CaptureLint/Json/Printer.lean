/-!
# Writing JSON

The indented form: every item of an array and every member of an object on a line of its own, two
more blanks for each level, and nothing between the brackets of what is empty.  Strings escape the
quote, the backslash and control characters, and nothing else.  Members of objects keep their order,
and numbers that are no natural numbers keep their spelling, since nothing here computes with them.
-/

namespace CaptureLint.Json

inductive Value where
  | null
  | bool (value : Bool)
  | natural (value : Nat)
  | otherNumber (spelling : List Char)
  | string (value : String)
  | array (items : List Value)
  | object (members : List (String × Value))

instance : Inhabited Value := ⟨.null⟩

namespace Value

def member? (members : List (String × Value)) (name : String) : Option Value :=
  members.lookup name

end Value

def hexDigit (n : Nat) : Char := "0123456789abcdef".toList.getD n '0'

def escape (c : Char) : List Char :=
  if c = '"' then ['\\', '"']
  else if c = '\\' then ['\\', '\\']
  else if c = '\x08' then ['\\', 'b']
  else if c = '\x0c' then ['\\', 'f']
  else if c = '\n' then ['\\', 'n']
  else if c = '\r' then ['\\', 'r']
  else if c = '\t' then ['\\', 't']
  else if c.toNat < 0x20 then
    ['\\', 'u', '0', '0', hexDigit (c.toNat / 16), hexDigit (c.toNat % 16)]
  else [c]

def renderString (text : String) : List Char :=
  '"' :: (text.toList.flatMap escape ++ ['"'])

def newLine (level : Nat) : List Char := '\n' :: List.replicate (2 * level) ' '

mutual

def render (level : Nat) : Value → List Char
  | .null => "null".toList
  | .bool value => if value then "true".toList else "false".toList
  | .natural value => Nat.toDigits 10 value
  | .otherNumber spelling => spelling
  | .string value => renderString value
  | .array [] => ['[', ']']
  | .array (item :: items) =>
      '[' :: (newLine (level + 1) ++ render (level + 1) item ++ renderItems (level + 1) items ++
        newLine level ++ [']'])
  | .object [] => ['{', '}']
  | .object ((name, value) :: members) =>
      '{' :: (newLine (level + 1) ++ renderString name ++ [':', ' '] ++ render (level + 1) value ++
        renderMembers (level + 1) members ++ newLine level ++ ['}'])

def renderItems (level : Nat) : List Value → List Char
  | [] => []
  | item :: items => ',' :: (newLine level ++ render level item ++ renderItems level items)

def renderMembers (level : Nat) : List (String × Value) → List Char
  | [] => []
  | (name, value) :: members =>
      ',' :: (newLine level ++ renderString name ++ [':', ' '] ++ render level value ++
        renderMembers level members)

end

end CaptureLint.Json
