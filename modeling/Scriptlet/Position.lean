/-!
# Places in a script

A position names a script, a line and a column.  Lines and columns count from
one, and a column counts characters.  A place that is not known is the absence
of a position, so a position that is there can always be shown.
-/

namespace Scriptlet

/-- A place in the text of a script. -/
structure Position where
  script : String
  line : Nat
  column : Nat
  deriving DecidableEq

/-- A position as messages show it: `script(line,column)`. -/
def Position.text (p : Position) : String :=
  p.script ++ "(" ++ p.line.repr ++ "," ++ p.column.repr ++ ")"

/-- A message with the place it speaks of in front, if that is known. -/
def Position.locate (place : Option Position) (message : String) : String :=
  match place with
  | some p => p.text ++ ": " ++ message
  | none => message

end Scriptlet
