import Scriptlet.Value.Heap

/-!
# Operators on values

An operator is defined for some of the kinds of values, and both operands must
be of one kind; an integer beside a double counts as a double.  Integer
arithmetic wraps around at thirty-two bits, division is cut off toward zero, and
a shift takes the last five bits of its amount.

The operators `&&` and `||` do not always evaluate their second operand, so they
are no operations on values and are undefined here.
-/

namespace Scriptlet

/-- Why an operator cannot be applied to its operands. -/
inductive OperandFault where
  | notNumber
  | notBoolean
  | notInteger
  | leftNotBoolean
  | rightNotBoolean
  | divisionByZero
  | undefinedForKinds
  deriving DecidableEq

/-- The wording of an operand fault. -/
def OperandFault.text : OperandFault → String
  | .notNumber => "inner value is not number"
  | .notBoolean => "inner value is not boolean"
  | .notInteger => "inner value is not integer"
  | .leftNotBoolean => "left operand is not boolean"
  | .rightNotBoolean => "right operand is not boolean"
  | .divisionByZero => "division by zero"
  | .undefinedForKinds => "not defined for combination of input values"

/-- Applies a unary operator. -/
def UnaryOp.apply : UnaryOp → Value → Except OperandFault Value
  | .negate, .int n => .ok (.int (-n))
  | .negate, .double x => .ok (.double (-x))
  | .negate, _ => .error .notNumber
  | .not, .bool b => .ok (.bool !b)
  | .not, _ => .error .notBoolean
  | .complement, .int n => .ok (.int (~~~n))
  | .complement, _ => .error .notInteger

namespace BinaryOp

/-- What an operator does with two integers. -/
def onInts? : BinaryOp → Option (Int32 → Int32 → Except OperandFault Value)
  | .mul => some fun a b => .ok (.int (a * b))
  | .div => some fun a b => if b == 0 then .error .divisionByZero else .ok (.int (a / b))
  | .mod => some fun a b => if b == 0 then .error .divisionByZero else .ok (.int (a % b))
  | .add => some fun a b => .ok (.int (a + b))
  | .sub => some fun a b => .ok (.int (a - b))
  | .shiftLeft => some fun a b => .ok (.int (a <<< b))
  | .shiftRight => some fun a b => .ok (.int (a >>> b))
  | .less => some fun a b => .ok (.bool (a < b))
  | .greater => some fun a b => .ok (.bool (b < a))
  | .lessEqual => some fun a b => .ok (.bool (a ≤ b))
  | .greaterEqual => some fun a b => .ok (.bool (b ≤ a))
  | .equal => some fun a b => .ok (.bool (a == b))
  | .notEqual => some fun a b => .ok (.bool (a != b))
  | .bitAnd => some fun a b => .ok (.int (a &&& b))
  | .bitXor => some fun a b => .ok (.int (a ^^^ b))
  | .bitOr => some fun a b => .ok (.int (a ||| b))
  | .and => none
  | .or => none

/-- What an operator does with two doubles. -/
def onDoubles? : BinaryOp → Option (Float → Float → Value)
  | .mul => some fun a b => .double (a * b)
  | .div => some fun a b => .double (a / b)
  | .mod => some fun a b => .double (Double.remainder a b)
  | .add => some fun a b => .double (a + b)
  | .sub => some fun a b => .double (a - b)
  | .less => some fun a b => .bool (a < b)
  | .greater => some fun a b => .bool (b < a)
  | .lessEqual => some fun a b => .bool (a ≤ b)
  | .greaterEqual => some fun a b => .bool (b ≤ a)
  | .equal => some fun a b => .bool (a == b)
  | .notEqual => some fun a b => .bool (a != b)
  | _ => none

/-- What an operator does with two strings. -/
def onStrings? : BinaryOp → Option (String → String → Value)
  | .add => some fun a b => .str (a ++ b)
  | .equal => some fun a b => .bool (a == b)
  | .notEqual => some fun a b => .bool (a != b)
  | _ => none

/-- What an operator does with two truth values. -/
def onBools? : BinaryOp → Option (Bool → Bool → Value)
  | .equal => some fun a b => .bool (a == b)
  | .notEqual => some fun a b => .bool (a != b)
  | .bitAnd => some fun a b => .bool (a && b)
  | .bitXor => some fun a b => .bool (a ^^ b)
  | .bitOr => some fun a b => .bool (a || b)
  | _ => none

/-- What an operator does with two lists.  Joining them makes a new list. -/
def onLists? : BinaryOp → Option (Heap → ListId → ListId → Value × Heap)
  | .add => some fun h a b =>
    let (id, h') := h.alloc (h.contents a ++ h.contents b)
    (.list id, h')
  | .equal => some fun h a b => (.bool (h.sameContents a b), h)
  | .notEqual => some fun h a b => (.bool (!h.sameContents a b), h)
  | _ => none

/-- Applies an operator to two numbers of which one is a double. -/
def applyToNumbers (op : BinaryOp) (a b : Value) : Except OperandFault Value :=
  match op.onDoubles?, a.number?, b.number? with
  | some f, some x, some y => .ok (f x y)
  | _, _, _ => .error .undefinedForKinds

/-- Applies a binary operator. -/
def apply (op : BinaryOp) (h : Heap) (a b : Value) : Except OperandFault (Value × Heap) :=
  match a, b with
  | .list a, .list b =>
    match op.onLists? with
    | some f => .ok (f h a b)
    | none => .error .undefinedForKinds
  | .int a, .int b =>
    match op.onInts? with
    | some f => (f a b).map (·, h)
    | none => .error .undefinedForKinds
  | .str a, .str b =>
    match op.onStrings? with
    | some f => .ok (f a b, h)
    | none => .error .undefinedForKinds
  | .bool a, .bool b =>
    match op.onBools? with
    | some f => .ok (f a b, h)
    | none => .error .undefinedForKinds
  | a, b => (op.applyToNumbers a b).map (·, h)

end BinaryOp

end Scriptlet
