import Scriptlet.Operator

/-!
# Scripts

The tree that a script is read into.  A script has statements, which run in
order, and functions, which are known from the first statement on.  Every node
keeps the position where it begins; an operation between two operands keeps that
of its operator as well, and an assignment that of its target.
-/

namespace Scriptlet

/-- A value that a script spells out. -/
inductive Literal where
  | int (value : Int32)
  | double (value : Float)
  | bool (value : Bool)
  | str (value : String)
  deriving DecidableEq

/-- An expression. -/
inductive Expr where
  | literal (position : Position) (value : Literal)
  /-- The value of a variable. -/
  | var (position : Position) (name : String)
  /-- An element of the list that a variable holds. -/
  | element (position : Position) (name : String) (index : Expr)
  | unary (position : Position) (op : UnaryOp) (operand : Expr)
  | binary (position : Position) (op : BinaryOp) (operatorPosition : Position) (left right : Expr)
  /-- Gives a variable a value. -/
  | assign (position targetPosition : Position) (name : String) (value : Expr)
  /-- Gives an element of the list that a variable holds a value. -/
  | assignElement (position targetPosition : Position) (name : String) (index value : Expr)
  | conditional (position : Position) (condition thenBranch elseBranch : Expr)
  /-- A new list. -/
  | list (position : Position) (elements : List Expr)
  | call (position : Position) (name : String) (arguments : List Expr)

/-- The position that an expression keeps.  Parentheses around it do not count. -/
def Expr.position : Expr → Position
  | .literal p _ => p
  | .var p _ => p
  | .element p _ _ => p
  | .unary p _ _ => p
  | .binary p _ _ _ _ => p
  | .assign p _ _ _ => p
  | .assignElement p _ _ _ _ => p
  | .conditional p _ _ _ => p
  | .list p _ => p
  | .call p _ _ => p

/-- Something that can be read and assigned to. -/
inductive LValue where
  | var (position : Position) (name : String)
  | element (position : Position) (name : String) (index : Expr)

namespace LValue

/-- The position that an lvalue keeps. -/
def position : LValue → Position
  | .var p _ => p
  | .element p _ _ => p

/-- The expression that reads an lvalue. -/
def read : LValue → Expr
  | .var p name => .var p name
  | .element p name index => .element p name index

/-- The expression at a position that assigns to an lvalue. -/
def assign (position : Position) (target : LValue) (value : Expr) : Expr :=
  match target with
  | .var p name => .assign position p name value
  | .element p name index => .assignElement position p name index value

end LValue

/-- A statement. -/
inductive Statement where
  /-- Declares a variable and perhaps gives it a value. -/
  | declare (position : Position) (name : String) (value : Option Expr)
  /-- Evaluates an assignment or a call for its effect. -/
  | evaluate (position : Position) (value : Expr)
  /-- Counts; the counter, if there is one, lives in the loop only. -/
  | forLoop (position : Position) (counter : Option String) (start condition step : Expr)
      (body : Statement)
  /-- Runs through the elements of a list. -/
  | forEach (position : Position) (item : String) (collection : Expr) (body : Statement)
  | ifElse (position : Position) (condition : Expr) (thenBranch : Statement)
      (elseBranch : Option Statement)
  | whileLoop (position : Position) (condition : Expr) (body : Statement)
  | block (position : Position) (statements : List Statement)
  | returns (position : Position) (value : Option Expr)
  | breaks (position : Position)
  | continues (position : Position)

/-- The position that a statement keeps. -/
def Statement.position : Statement → Position
  | .declare p _ _ => p
  | .evaluate p _ => p
  | .forLoop p _ _ _ _ _ => p
  | .forEach p _ _ _ => p
  | .ifElse p _ _ _ => p
  | .whileLoop p _ _ => p
  | .block p _ => p
  | .returns p _ => p
  | .breaks p => p
  | .continues p => p

/-- The statement that evaluates an expression begins where that begins. -/
def Statement.ofExpr (value : Expr) : Statement := .evaluate value.position value

/-- How a function is called: its name, its parameters, and whether it takes
more arguments than it has parameters. -/
structure Signature where
  name : String
  params : List String
  variadic : Bool
  deriving DecidableEq

/-- Whether a call with `count` arguments is well formed. -/
def Signature.accepts (s : Signature) (count : Nat) : Bool :=
  if s.variadic then s.params.length ≤ count else count == s.params.length

/-- A function that a script declares.  Its body is a block. -/
structure FunctionDef where
  position : Position
  signature : Signature
  bodyPosition : Position
  body : List Statement

/-- A script: the statements to run and the functions they may call. -/
structure Script where
  name : String
  statements : List Statement
  functions : List FunctionDef

end Scriptlet
