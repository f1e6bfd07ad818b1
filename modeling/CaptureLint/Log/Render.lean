import CaptureLint.Log.Basic

/-!
# Written log lines

A line is written as `[LEVEL channel] text`, the level filled up to five characters; further lines of
the text are indented.  With colours the brackets are dimmed and the level has a colour of its own.
-/

namespace CaptureLint.Log

def escape (parameters : String) : String := s!"\x1b[{parameters}m"

def levelStart : LogLevel → String
  | .error => escape "1" ++ escape "31"
  | .warn => escape "33"
  | .info => escape "32"
  | .debug => escape "34"
  | .trace => escape "36"

def styled (colour : Bool) (start text : String) : String :=
  if colour then start ++ text ++ escape "0" else text

def paddedName (level : LogLevel) : String :=
  level.name ++ String.ofList (List.replicate (5 - level.name.length) ' ')

def indented (text : String) : String :=
  String.ofList (text.toList.flatMap fun c => if c = '\n' then "\n    ".toList else [c])

def render (colour : Bool) (line : LogLine) : String :=
  let dim := escape "90"
  styled colour dim "[" ++ styled colour (levelStart line.level) (paddedName line.level) ++ " " ++
    line.channel.name ++ styled colour dim "]" ++ " " ++ indented line.text ++ "\n"

end CaptureLint.Log
