import Scriptlet.Evaluator

/-!
# What a host does with a machine

A host defines variables and functions in the host scope and runs scripts, one
after the other on one machine.  What it defines stays; the scope of a script
goes when the script ends.
-/

namespace Scriptlet

/-- Why a text could not be run to its end. -/
inductive Failure where
  /-- The text is no script. -/
  | parse (error : ParseError)
  /-- The script stopped. -/
  | fault (fault : Fault)
  deriving DecidableEq

/-- The message of a failure. -/
def Failure.message : Failure → String
  | .parse e => e.message
  | .fault f => f.message

namespace Session

/-- Defines a variable of the host. -/
def defineVariable (name : String) (value : Value) : Eval Unit :=
  Eval.declareVariable Arena.host name (some value) none

/-- Defines a function of the host. -/
def defineFunction (f : Callable) : Eval Unit :=
  Eval.declareFunction Arena.host f none

/-- Makes the built-in functions known to the host scope. -/
def defineBuiltins : Eval Unit :=
  Eval.declareBuiltins Arena.host Builtin.all

/-- The variable that a name means in the host scope. -/
def findVariable? (m : Machine) (name : String) : Option Variable :=
  m.scopes.findVariable? Arena.host name

/-- A machine whose host has defined the functions; one that is there already
stays as it is. -/
def start (maxCallDepth : Nat) (functions : List HostFunction) : Machine :=
  functions.foldl (fun m f => (defineFunction (.host f) m).2) (Machine.initial maxCallDepth)

/-- Reads a text as a script and runs it. -/
def runText [HostCode] (fuel : Nat) (name text : String) : Run Machine Failure (Option Value) :=
  fun m =>
    match Script.ofText name text with
    | .error e => (.failed (.parse e), m)
    | .ok script =>
      match Eval.execute fuel script m with
      | (.done value, m') => (.done value, m')
      | (.failed f, m') => (.failed (.fault f), m')
      | (.outOfFuel, m') => (.outOfFuel, m')

end Session

end Scriptlet
