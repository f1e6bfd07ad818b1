/-!
# The tables of a TOML document

The statements of a document define tables piece by piece.  A key is defined once: a table comes from
one header, from dotted keys, or from being on the way to another table, and only the last of these
can still be given its header.  Numbers and dates are only told apart: nothing here computes with them.
-/

namespace CaptureLint.Toml

inductive Value where
  | string (value : String)
  | boolean (value : Bool)
  | integer
  | float
  | datetime
  | array (items : List Value)
  | table (members : List (String × Value))

inductive Statement where
  /-- `a.b = value`, in the table of the last header. -/
  | assign (keys : List String) (value : Value)
  /-- `[a.b]`. -/
  | table (keys : List String)
  /-- `[[a.b]]`. -/
  | tables (keys : List String)

/-- How a table came to be. -/
inductive Origin where
  | header
  | dotted
  | implied
deriving DecidableEq, Repr

inductive Node where
  | value (value : Value)
  | table (origin : Origin) (members : List (String × Node))
  /-- Several tables under one key; the last one can still be added to. -/
  | tables (earlier : List (List (String × Node))) (last : List (String × Node))

abbrev Members := List (String × Node)

namespace Members

def put (members : Members) (key : String) (node : Node) : Members :=
  if (members.lookup key).isSome then
    members.map fun member => if member.1 = key then (key, node) else member
  else members ++ [(key, node)]

def assign? (value : Value) : List String → Members → Option Members
  | [], _ => none
  | [key], members =>
      if (members.lookup key).isSome then none else some (members.put key (.value value))
  | key :: keys, members =>
      match members.lookup key with
      | none => do some (members.put key (.table .dotted (← assign? value keys [])))
      | some (.table .header _) => none
      | some (.table origin inner) => do
          some (members.put key (.table origin (← assign? value keys inner)))
      | some _ => none

/-- Changes the table that keys lead to, making the tables on the way. -/
def descend? (change : Members → Option Members) : List String → Members → Option Members
  | [], members => change members
  | key :: keys, members =>
      match members.lookup key with
      | none => do some (members.put key (.table .implied (← descend? change keys [])))
      | some (.table origin inner) => do
          some (members.put key (.table origin (← descend? change keys inner)))
      | some (.tables earlier last) => do
          some (members.put key (.tables earlier (← descend? change keys last)))
      | some (.value _) => none

/-- Defines a table under a key by its header. -/
def define? (key : String) (members : Members) : Option Members :=
  match members.lookup key with
  | none => some (members.put key (.table .header []))
  | some (.table .implied inner) => some (members.put key (.table .header inner))
  | some _ => none

def append? (key : String) (members : Members) : Option Members :=
  match members.lookup key with
  | none => some (members.put key (.tables [] []))
  | some (.tables earlier last) => some (members.put key (.tables (earlier ++ [last]) []))
  | some _ => none

end Members

mutual

def Node.toValue : Node → Value
  | .value value => value
  | .table _ members => .table (membersToValues members)
  | .tables earlier last => .array (tablesToValues earlier ++ [.table (membersToValues last)])

def membersToValues : List (String × Node) → List (String × Value)
  | [] => []
  | (key, node) :: members => (key, node.toValue) :: membersToValues members

def tablesToValues : List (List (String × Node)) → List Value
  | [] => []
  | members :: tables => .table (membersToValues members) :: tablesToValues tables

end

/-- The table that statements define, `here` being the keys of the last header. -/
def defineAll? (here : List String) (members : Members) : List Statement → Option Members
  | [] => some members
  | .assign keys value :: rest => do
      defineAll? here (← members.descend? (Members.assign? value keys) here) rest
  | .table keys :: rest => do
      let key ← keys.getLast?
      defineAll? keys (← members.descend? (Members.define? key) keys.dropLast) rest
  | .tables keys :: rest => do
      let key ← keys.getLast?
      defineAll? keys (← members.descend? (Members.append? key) keys.dropLast) rest

def inlineTable? (assignments : List (List String × Value)) : Option (List (String × Value)) := do
  let statements := assignments.map fun (keys, value) => Statement.assign keys value
  some (membersToValues (← defineAll? [] [] statements))

end CaptureLint.Toml
