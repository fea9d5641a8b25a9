import Scriptlet.Position
import Scriptlet.Value.Operation

/-!
# Why a script stops

One cause for each way in which running a script can fail, and the place in the
script where that was seen.  There is no place for what the host does by itself.

The machine checks its own accesses as well, and an access outside the domain of
what it reads would stop the run with `brokenAccess`.
-/

namespace Scriptlet

/-- The accesses that the machine makes on its own account. -/
inductive Access where
  /-- A scope that is in use stands in the arena. -/
  | scope
  /-- A list that a value names is in the heap. -/
  | list
  /-- An element whose index was checked is in its list. -/
  | element
  /-- A call that was accepted has an argument for each parameter. -/
  | argument
  /-- A call that ends was counted when it began. -/
  | callDepth
  deriving DecidableEq

/-- What went wrong in a run. -/
inductive Fault.Cause where
  | variableAlreadyDefined (name : String)
  | functionAlreadyDefined (name : String)
  | variableNotDefined (name : String)
  /-- The variable was declared and has no value yet. -/
  | variableNotInitialized (name : String)
  /-- The variable holds no list. -/
  | variableNotCollection (name : String)
  | expressionNotCollection
  /-- The operator with this symbol does not apply to its operands. -/
  | operatorFailed (symbol : String) (reason : OperandFault)
  | indexNotInteger
  | indexOutOfRange (index : Int32)
  | conditionNotBoolean
  | functionNotDefined (name : String)
  | parameterCountMismatch (name : String)
  /-- A call without a value where one is needed. -/
  | missingReturnValue (name : String)
  | breakOutsideLoop
  | continueOutsideLoop
  /-- No 32-bit integer corresponds to the value. -/
  | conversionFailed
  | callDepthExceeded (limit : Nat)
  /-- A function of the host refused, with these words. -/
  | host (message : String)
  /-- The machine would have read something that is not there. -/
  | brokenAccess (access : Access)
  deriving DecidableEq

/-- A reason why a run stopped, and where. -/
structure Fault where
  cause : Fault.Cause
  position : Option Position
  deriving DecidableEq

namespace Fault

/-- The wording of a cause. -/
def Cause.text : Cause → String
  | .variableAlreadyDefined name => "variable " ++ name ++ " already defined"
  | .functionAlreadyDefined name => "function " ++ name ++ " already defined"
  | .variableNotDefined name => "variable " ++ name ++ " not defined"
  | .variableNotInitialized name => "variable " ++ name ++ " not initialized"
  | .variableNotCollection name => "variable " ++ name ++ " not collection"
  | .expressionNotCollection => "expression is not collection"
  | .operatorFailed symbol reason => "failed to apply " ++ symbol ++ " operator - " ++ reason.text
  | .indexNotInteger => "index expression is not an integer"
  | .indexOutOfRange index => "index " ++ index.toInt.repr ++ " out of range"
  | .conditionNotBoolean => "expression is not boolean"
  | .functionNotDefined name => "function " ++ name ++ " not defined"
  | .parameterCountMismatch _ => "parameters count mismatch"
  | .missingReturnValue name => "function " ++ name ++ " should return value"
  | .breakOutsideLoop => "break without surrounding for or while"
  | .continueOutsideLoop => "continue without surrounding for or while"
  | .conversionFailed => "unable to convert value to integer"
  | .callDepthExceeded limit => "call depth limit " ++ limit.repr ++ " exceeded"
  | .host message => message
  | .brokenAccess _ => "internal access failed"

/-- The message of a fault, with its place in front if that is known. -/
def message (f : Fault) : String :=
  Position.locate f.position f.cause.text

end Fault

end Scriptlet
