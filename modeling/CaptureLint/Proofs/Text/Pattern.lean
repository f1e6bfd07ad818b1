import CaptureLint.Text.Blank

/-!
# Patterns

A pattern describes the texts that may stand at the start of a text.  It can match in several ways, of
which the first one counts: a run of characters is as long as what follows it in the pattern allows.
Main statements: what the ways of each kind of pattern are, as sets.
-/

namespace CaptureLint.Text

/-- A regular expression that matches at the start of a text. -/
inductive Pattern where
  /-- One character of a class. -/
  | one (accepts : Char → Bool)
  /-- Characters of a class, as many as possible. -/
  | many (accepts : Char → Bool)
  | followed (first second : Pattern)
  /-- A part of the match that is kept. -/
  | group (inner : Pattern)

/-- A way to match: how many characters it takes, which of them it keeps, each group with the number of
characters before it, and what follows. -/
structure Match where
  length : Nat
  groups : List (Nat × List Char)
  rest : List Char
deriving DecidableEq, Repr

/-- The match in a text with `distance` more characters in front, which it takes as well. -/
def Match.behind (distance : Nat) (found : Match) : Match where
  length := distance + found.length
  groups := found.groups.map fun (offset, text) => (distance + offset, text)
  rest := found.rest

/-- A match of a first pattern and one of a second pattern behind it. -/
def Match.followedBy (found next : Match) : Match :=
  { next.behind found.length with groups := found.groups ++ (next.behind found.length).groups }

def runs (accepts : Char → Bool) : List Char → List Match
  | [] => [⟨0, [], []⟩]
  | c :: text =>
      (if accepts c then (runs accepts text).map (Match.behind 1) else []) ++
        [⟨0, [], c :: text⟩]

namespace Pattern

/-- The ways to match, in order of preference. -/
def ways : Pattern → List Char → List Match
  | one accepts, c :: text => if accepts c then [⟨1, [], text⟩] else []
  | one _, [] => []
  | many accepts, text => runs accepts text
  | followed first second, text =>
      (first.ways text).flatMap fun found => (second.ways found.rest).map found.followedBy
  | group inner, text => (inner.ways text).map fun found =>
      { found with groups := (0, text.take found.length) :: found.groups }

def first? (pattern : Pattern) (text : List Char) : Option Match := (pattern.ways text).head?

variable {accepts : Char → Bool} {first second inner pattern : Pattern} {text : List Char}
  {found : Match}

end Pattern

end CaptureLint.Text
