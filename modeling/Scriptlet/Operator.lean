import Scriptlet.Token.Basic

/-!
# Operators

The operators of expressions and the symbols they are written with.  No two
binary operators share a symbol, and neither do two unary ones; `-` is both.
-/

namespace Scriptlet

/-- The operators that stand before their operand. -/
inductive UnaryOp where
  | negate
  | not
  | complement
  deriving DecidableEq

namespace UnaryOp

/-- The symbol of a unary operator. -/
def symbol : UnaryOp → Symbol
  | .negate => .minus
  | .not => .bang
  | .complement => .tilde

/-- The unary operator that a symbol stands for. -/
def ofSymbol? : Symbol → Option UnaryOp
  | .minus => some .negate
  | .bang => some .not
  | .tilde => some .complement
  | _ => none

/-- Every unary operator. -/
def all : List UnaryOp := [.negate, .not, .complement]

/-- A unary operator as it is written. -/
def text (op : UnaryOp) : String := op.symbol.text

/-- A unary operator is found by its symbol, and only by that. -/
theorem ofSymbol?_eq_some_iff {s : Symbol} {op : UnaryOp} :
    ofSymbol? s = some op ↔ s = op.symbol := by
  cases s <;> cases op <;> decide

end UnaryOp

/-- The operators between two operands. -/
inductive BinaryOp where
  | mul
  | div
  | mod
  | add
  | sub
  | shiftLeft
  | shiftRight
  | less
  | greater
  | lessEqual
  | greaterEqual
  | equal
  | notEqual
  | bitAnd
  | bitXor
  | bitOr
  | and
  | or
  deriving DecidableEq

namespace BinaryOp

/-- The symbol of a binary operator. -/
def symbol : BinaryOp → Symbol
  | .mul => .star
  | .div => .slash
  | .mod => .percent
  | .add => .plus
  | .sub => .minus
  | .shiftLeft => .shiftLeft
  | .shiftRight => .shiftRight
  | .less => .less
  | .greater => .greater
  | .lessEqual => .lessEqual
  | .greaterEqual => .greaterEqual
  | .equal => .equal
  | .notEqual => .notEqual
  | .bitAnd => .ampersand
  | .bitXor => .caret
  | .bitOr => .bar
  | .and => .andAnd
  | .or => .orOr

/-- Every binary operator. -/
def all : List BinaryOp :=
  [.mul, .div, .mod, .add, .sub, .shiftLeft, .shiftRight, .less, .greater, .lessEqual,
    .greaterEqual, .equal, .notEqual, .bitAnd, .bitXor, .bitOr, .and, .or]

/-- The binary operator that a symbol stands for. -/
def ofSymbol? (s : Symbol) : Option BinaryOp :=
  all.find? fun op => op.symbol == s

/-- A binary operator as it is written. -/
def text (op : BinaryOp) : String := op.symbol.text

/-- The levels of precedence, the loosest first.  Every level groups to the left. -/
def levels : List (List BinaryOp) :=
  [[.or], [.and], [.bitOr], [.bitXor], [.bitAnd], [.equal, .notEqual],
    [.less, .greater, .lessEqual, .greaterEqual], [.shiftLeft, .shiftRight], [.add, .sub],
    [.mul, .div, .mod]]

/-- A binary operator is found by its symbol, and only by that. -/
theorem ofSymbol?_eq_some_iff {s : Symbol} {op : BinaryOp} :
    ofSymbol? s = some op ↔ s = op.symbol := by
  cases s <;> cases op <;> decide

end BinaryOp

end Scriptlet
