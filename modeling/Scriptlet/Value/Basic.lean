import Scriptlet.Script.Basic
import Scriptlet.Double.Arithmetic

/-!
# Values

What variables hold and expressions give.  A list is known by its number in the
heap, so two values can be the same list, and a change to it shows through both.
-/

namespace Scriptlet

/-- The number of a list in the heap. -/
abbrev ListId : Type := Nat

/-- A value. -/
inductive Value where
  | bool (value : Bool)
  | int (value : Int32)
  | double (value : Float)
  | str (value : String)
  | list (id : ListId)
  deriving DecidableEq

namespace Value

/-- The value of a literal. -/
def ofLiteral : Literal → Value
  | .int n => .int n
  | .double x => .double x
  | .bool b => .bool b
  | .str s => .str s

/-- A number as a double. -/
def number? : Value → Option Float
  | .int n => some (Double.ofInt32 n)
  | .double x => some x
  | _ => none

/-- The name of a value's kind. -/
def kind : Value → String
  | .bool _ => "bool"
  | .int _ => "int"
  | .double _ => "double"
  | .str _ => "string"
  | .list _ => "list"

end Value

end Scriptlet
