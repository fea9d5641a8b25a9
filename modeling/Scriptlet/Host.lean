import Scriptlet.Eval
import Scriptlet.Script.Parser

/-!
# What built-in and host functions do

Such a function runs in the activation scope of its call, where its parameters
are bound, and reads its arguments from there.  A lookup that finds nothing in
the activation scope goes on in the scopes of the caller.

What the functions of the host do is for the host to say (`HostCode`).  The stock
host has the functions of `HostFunction.all` and makes none of its own.
-/

namespace Scriptlet

/-- Applies a built-in function. -/
def Builtin.apply (f : Builtin) (v : Value) (position : Option Position) : Eval Value :=
  match f with
  | .toText =>
    match v with
    | .str s => pure (.str s)
    | v => do
      let text ← Eval.render v
      pure (.str text)
  | .toInt =>
    match v with
    | .int n => pure (.int n)
    | .double x => do
      let n ← Eval.ofOption ⟨.conversionFailed, position⟩ (Double.truncate? x)
      pure (.int n)
    | .bool b => pure (.int (if b then -1 else 0))
    | _ => Eval.fault .conversionFailed position
  | .countOf => do
    let id ← Eval.expectList v .expressionNotCollection position
    let items ← Eval.listItems id position
    let n ← Eval.ofOption ⟨.conversionFailed, position⟩ (Literal.ofInt? items.length)
    pure (.int n)

namespace HostFunction

/-- The place of a call in words; a call by the host has none. -/
def placeText (position : Option Position) : String :=
  (position.getD ⟨"", 0, 0⟩).text

/-- The name of the scripts that `runScript` runs. -/
def nestedName : String := "nested"

/-- Runs a function of the stock host in the activation scope of its call.  Another
script is run by `execute`. -/
def run (execute : Script → Eval (Option Value)) (activation : ScopeId)
    (position : Option Position) (f : HostFunction) : Eval (Option Value) :=
  let argument (name : String) : Eval Value := Eval.readVariable activation name position
  match f with
  | .print => do
    let extra ← Eval.extraArguments activation position
    let texts ← Eval.renderAll extra
    Eval.printLine (" ".intercalate texts)
    pure none
  | .assert => do
    let condition ← argument "condition"
    if condition = .bool true then pure none
    else
      let text ← Eval.render condition
      Eval.fault (.host ("assertion failed: " ++ text)) position
  | .join => do
    let separator ← argument "sep"
    let text ← Eval.render separator
    let extra ← Eval.extraArguments activation position
    let texts ← Eval.renderAll extra
    pure (some (.str (text.intercalate texts)))
  | .fail => Eval.fault (.host "boom") position
  | .failWith => do
    let message ← argument "message"
    let text ← Eval.render message
    Eval.fault (.host text) position
  | .pair => do
    let x ← argument "X"
    let list ← Eval.newList [x, x]
    pure (some list)
  | .extras => do
    let extra ← Eval.extraArguments activation position
    let list ← Eval.newList extra
    pure (some list)
  | .peek => do
    let name ← argument "name"
    let text ← Eval.render name
    let value ← argument text
    pure (some value)
  | .location => pure (some (.str (placeText position)))
  | .define => do
    let name ← argument "name"
    let text ← Eval.render name
    let value ← argument "value"
    Eval.declareVariable Arena.host text (some value) none
    pure none
  | .runScript => do
    let text ← argument "text"
    let text ← Eval.render text
    match Script.ofText nestedName text with
    | .ok script => execute script
    | .error e => Eval.fault (.host e.message) position
  | .push => do
    let list ← argument "list"
    let value ← argument "value"
    let id ← Eval.expectList list (.host ("not a list: " ++ list.kind)) position
    Eval.appendItem id value position
    pure (some list)
  | .clear => do
    let list ← argument "list"
    match list with
    | .list id => Eval.clearList id position
    | _ => pure ()
    pure (some (.int 0))
  | .kind => do
    let x ← argument "x"
    pure (some (.str x.kind))
  | .dup => do
    let a ← argument "a"
    pure (some a)
  | .custom _ _ => pure none

end HostFunction

/-- What the functions of a host do: each is run in the activation scope of its call,
with `execute` to run other scripts. -/
class HostCode where
  run (execute : Script → Eval (Option Value)) (activation : ScopeId)
    (position : Option Position) (f : HostFunction) : Eval (Option Value)

/-- The code of the stock host. -/
instance HostCode.stock : HostCode := ⟨HostFunction.run⟩

end Scriptlet
