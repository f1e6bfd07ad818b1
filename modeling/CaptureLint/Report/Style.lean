
/-!
# Styled text

A style is written as an escape sequence before a text, and the sequence that resets all styles after
it.  A reset inside the text takes the style up again.
-/

namespace CaptureLint

structure Style where
  codes : List String
deriving DecidableEq, Repr

namespace Style

def bold : Style := ⟨["1"]⟩

def dimmed : Style := ⟨["2"]⟩

def red : Style := ⟨["31"]⟩

def green : Style := ⟨["32"]⟩

def yellow : Style := ⟨["33"]⟩

def boldRed : Style := ⟨["1", "31"]⟩

def boldYellow : Style := ⟨["1", "33"]⟩

def reset : List Char := ['\x1b', '[', '0', 'm']

def start (style : Style) : List Char :=
  '\x1b' :: '[' :: ((";".intercalate style.codes).toList ++ ['m'])

/-- The text with the style started again after each reset in it. -/
def resume (style : Style) : List Char → List Char
  | '\x1b' :: '[' :: '0' :: 'm' :: text => reset ++ style.start ++ resume style text
  | c :: text => c :: resume style text
  | [] => []

def paint (colour : Bool) (style : Style) (text : String) : List Char :=
  if colour then style.start ++ resume style text.toList ++ reset else text.toList

/-- What is left of a text without its escape sequences: an escape character, `[`, digits and
semicolons, and `m`. -/
def strip : List Char → List Char
  | [] => []
  | '\x1b' :: '[' :: text =>
      let parameters := text.takeWhile fun c => c.isDigit || c == ';'
      if text[parameters.length]? = some 'm' then strip (text.drop (parameters.length + 1))
      else '\x1b' :: strip ('[' :: text)
  | c :: text => c :: strip text
termination_by text => text.length
decreasing_by
  all_goals simp only [List.length_cons, List.length_drop]
  all_goals omega

end Style

end CaptureLint
