import Scriptlet.Script.Basic

/-!
# Functions

A function that a call can reach is declared by a script, built into the
language, or lent by the host.  The built-in functions are known to every
script.  The functions of the host are known where the host defined them.
-/

namespace Scriptlet

/-- The functions that every script knows. -/
inductive Builtin where
  /-- The text of a value. -/
  | toText
  /-- The integer part of a number; `-1` for true and `0` for false. -/
  | toInt
  /-- The number of elements of a list. -/
  | countOf
  deriving DecidableEq

namespace Builtin

/-- The name of the parameter of every built-in function. -/
def param : String := "_"

/-- How a built-in function is called. -/
def signature : Builtin → Signature
  | .toText => ⟨"to_string", [param], false⟩
  | .toInt => ⟨"to_int", [param], false⟩
  | .countOf => ⟨"count_of", [param], false⟩

/-- Every built-in function, in the order in which a script comes to know them. -/
def all : List Builtin := [.toText, .toInt, .countOf]

end Builtin

/-- The functions that a host can lend to its scripts. -/
inductive HostFunction where
  /-- Prints its arguments on a line. -/
  | print
  /-- Refuses anything but true. -/
  | assert
  /-- Joins the texts of its arguments with a separator. -/
  | join
  /-- Always refuses. -/
  | fail
  /-- Refuses with a message. -/
  | failWith
  /-- A list that holds a value twice. -/
  | pair
  /-- A list of the extra arguments that are in sight. -/
  | extras
  /-- The value of the variable with a given name. -/
  | peek
  /-- The place of the call. -/
  | location
  /-- Defines a variable of the host. -/
  | define
  /-- Runs another script. -/
  | runScript
  /-- Appends a value to a list. -/
  | push
  /-- Takes all elements out of a list. -/
  | clear
  /-- The kind of a value. -/
  | kind
  /-- Has one parameter twice, so it can never be called. -/
  | dup
  /-- A function of the host's own making, known by a number. -/
  | custom (id : Nat) (signature : Signature)
  deriving DecidableEq

namespace HostFunction

/-- How a function of the host is called. -/
def signature : HostFunction → Signature
  | .print => ⟨"print", [], true⟩
  | .assert => ⟨"assert", ["condition"], false⟩
  | .join => ⟨"join", ["sep"], true⟩
  | .fail => ⟨"fail", [], false⟩
  | .failWith => ⟨"fail_with", ["message"], false⟩
  | .pair => ⟨"pair", ["x"], false⟩
  | .extras => ⟨"extras", [], false⟩
  | .peek => ⟨"peek", ["name"], false⟩
  | .location => ⟨"where", [], true⟩
  | .define => ⟨"define", ["name", "value"], false⟩
  | .runScript => ⟨"run_script", ["text"], false⟩
  | .push => ⟨"push", ["list", "value"], false⟩
  | .clear => ⟨"clear", ["list"], false⟩
  | .kind => ⟨"kind", ["x"], false⟩
  | .dup => ⟨"dup", ["a", "A"], false⟩
  | .custom _ signature => signature

/-- Every function that a host can lend without making its own. -/
def all : List HostFunction :=
  [.print, .assert, .join, .fail, .failWith, .pair, .extras, .peek, .location, .define,
    .runScript, .push, .clear, .kind, .dup]

/-- The function of the host that has a name. -/
def named? (name : String) : Option HostFunction :=
  all.find? fun f => f.signature.name == name

end HostFunction

/-- A function that a call can reach. -/
inductive Callable where
  | script (function : FunctionDef)
  | builtin (function : Builtin)
  | host (function : HostFunction)

/-- How a function is called. -/
def Callable.signature : Callable → Signature
  | .script f => f.signature
  | .builtin f => f.signature
  | .host f => f.signature

end Scriptlet
