/-!
# Locations

Where a reader finds a character: the line and the column in it, both counted from one.  The
location of an offset is what is reached from the top of the text by stepping over the characters
before the offset.
-/

namespace CaptureLint

/-- A line and a column, both counted from one. -/
structure Location where
  line : Nat
  column : Nat
deriving DecidableEq, Repr

namespace Location

def top : Location := ⟨1, 1⟩

def after (place : Location) (c : Char) : Location :=
  if c = '\n' then ⟨place.line + 1, 1⟩ else ⟨place.line, place.column + 1⟩

def afterText (place : Location) (text : List Char) : Location := text.foldl after place

def render (place : Location) : String := s!"{place.line}:{place.column}"

@[simp] theorem afterText_nil (place : Location) : place.afterText [] = place := rfl

theorem afterText_append (place : Location) (first second : List Char) :
    place.afterText (first ++ second) = (place.afterText first).afterText second :=
  List.foldl_append

/-- Every newline, and nothing else, moves to a further line. -/
theorem line_afterText (place : Location) (text : List Char) :
    (place.afterText text).line = place.line + text.count '\n' := by
  induction text generalizing place with
  | nil => rfl
  | cons c text ih =>
      rw [show place.afterText (c :: text) = (place.after c).afterText text from rfl, ih]
      by_cases h : c = '\n' <;> simp [after, h]
      omega

end Location

end CaptureLint
