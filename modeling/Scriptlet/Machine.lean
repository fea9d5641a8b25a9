import Scriptlet.Fault
import Scriptlet.Run
import Scriptlet.Scope

/-!
# The machine that scripts run on

Its state is the scopes, the lists, how many calls are in progress and may be at
most, and the lines printed so far.  `Step` lists every single step by which a
run looks at the machine or changes it; only scopes and calls are opened and
closed around whole computations, in `Eval`.
-/

namespace Scriptlet

/-- The state in which scripts run. -/
structure Machine where
  scopes : Arena
  heap : Heap
  callDepth : Nat
  maxCallDepth : Nat
  /-- The lines printed so far, the latest last. -/
  output : Array String

namespace Machine

/-- How many calls may be in progress if nothing else is said. -/
def defaultMaxCallDepth : Nat := 128

/-- A machine whose host has defined nothing. -/
def initial (maxCallDepth : Nat) : Machine :=
  ⟨Arena.initial, Heap.empty, 0, maxCallDepth, #[]⟩

/-- Puts an empty scope at the end. -/
def pushScope (m : Machine) (parent : ScopeId) : Machine :=
  { m with scopes := m.scopes.push (Scope.empty (some parent)) }

/-- Keeps the first `count` scopes only. -/
def keepScopes (m : Machine) (count : Nat) : Machine :=
  { m with scopes := m.scopes.shrink count }

/-- Counts one call more. -/
def enterCall (m : Machine) : Machine :=
  { m with callDepth := m.callDepth + 1 }

/-- Counts one call less. -/
def leaveCall (m : Machine) : Machine :=
  { m with callDepth := m.callDepth - 1 }

end Machine

/-- A single step of a run, by what it gives.  A step that may fail says where
in the script it was to happen. -/
inductive Step : Type → Type where
  /-- Declares a variable in a scope. -/
  | declareVariable (scope : ScopeId) (name : String) (value : Option Value)
      (position : Option Position) : Step Unit
  /-- Declares a function in a scope. -/
  | declareFunction (scope : ScopeId) (f : Callable) (position : Option Position) : Step Unit
  /-- The value of the variable that a name means in a scope. -/
  | readVariable (scope : ScopeId) (name : String) (position : Option Position) : Step Value
  /-- Gives the variable that a name means in a scope a value. -/
  | assignVariable (scope : ScopeId) (name : String) (value : Value)
      (position : Option Position) : Step Unit
  /-- Gives a variable that the running code has declared in a scope a value.  It is
  looked for like any other, from the scope outward. -/
  | fillVariable (scope : ScopeId) (name : String) (value : Value)
      (position : Option Position) : Step Unit
  /-- The function that a name means in a scope. -/
  | findFunction (scope : ScopeId) (name : String) (position : Option Position) : Step Callable
  /-- The extra arguments in sight: the list that `...` means in a scope. -/
  | extraArguments (scope : ScopeId) (position : Option Position) : Step (List Value)
  /-- Makes a new list. -/
  | newList (items : List Value) : Step Value
  /-- The elements of a list. -/
  | listItems (id : ListId) (position : Option Position) : Step (List Value)
  /-- An element of a list, at an index that is known to be in range. -/
  | readElement (id : ListId) (i : Nat) (position : Option Position) : Step Value
  /-- Replaces an element of a list, at an index that is known to be in range. -/
  | writeElement (id : ListId) (i : Nat) (v : Value) (position : Option Position) : Step Unit
  /-- Puts a value at the end of a list. -/
  | appendItem (id : ListId) (v : Value) (position : Option Position) : Step Unit
  /-- Takes all elements out of a list. -/
  | clearList (id : ListId) (position : Option Position) : Step Unit
  /-- The text of a value. -/
  | render (v : Value) : Step String
  /-- Prints a line. -/
  | printLine (line : String) : Step Unit
  /-- Applies a binary operator. -/
  | applyBinary (op : BinaryOp) (a b : Value) (position : Option Position) : Step Value

namespace Step

variable {α : Type}

/-- A step in a scope, which must stand in the arena. -/
@[inline]
def inArena (scope : ScopeId) (position : Option Position)
    (body : Run Machine Fault α) : Run Machine Fault α :=
  fun m =>
    if scope < m.scopes.size then body m
    else (.failed ⟨.brokenAccess .scope, position⟩, m)

/-- A step on the elements of a list, which must be in the heap. -/
@[inline]
def onList (id : ListId) (position : Option Position)
    (body : List Value → Run Machine Fault α) : Run Machine Fault α :=
  fun m =>
    if id < m.heap.size then body (m.heap.contents id) m
    else (.failed ⟨.brokenAccess .list, position⟩, m)

/-- Puts other elements into a list. -/
@[inline]
def replaceItems (id : ListId) (items : List Value) : Run Machine Fault Unit :=
  Run.update fun m => { m with heap := m.heap.modify id fun _ => items }

/-- What a step gives, and what it makes of the machine. -/
def perform : Step α → Run Machine Fault α
  | .declareVariable scope name value position =>
    inArena scope position fun m =>
      match m.scopes.declareVariable? scope name value with
      | some scopes => (.done (), { m with scopes })
      | none => (.failed ⟨.variableAlreadyDefined name, position⟩, m)
  | .declareFunction scope f position =>
    inArena scope position fun m =>
      match m.scopes.declareFunction? scope f with
      | some scopes => (.done (), { m with scopes })
      | none => (.failed ⟨.functionAlreadyDefined f.signature.name, position⟩, m)
  | .readVariable scope name position =>
    inArena scope position fun m =>
      match m.scopes.findVariable? scope name with
      | some ⟨_, some value⟩ => (.done value, m)
      | some ⟨_, none⟩ => (.failed ⟨.variableNotInitialized name, position⟩, m)
      | none => (.failed ⟨.variableNotDefined name, position⟩, m)
  | .assignVariable scope name value position
  | .fillVariable scope name value position =>
    inArena scope position fun m =>
      match m.scopes.assign? scope name value with
      | some scopes => (.done (), { m with scopes })
      | none => (.failed ⟨.variableNotDefined name, position⟩, m)
  | .findFunction scope name position =>
    inArena scope position fun m =>
      match m.scopes.findFunction? scope name with
      | some f => (.done f, m)
      | none => (.failed ⟨.functionNotDefined name, position⟩, m)
  | .extraArguments scope position =>
    inArena scope position fun m =>
      match m.scopes.findVariable? scope Name.variadic with
      | some ⟨_, some (.list id)⟩ => (.done (m.heap.contents id), m)
      | _ => (.done [], m)
  | .newList items => fun m =>
    match m.heap.alloc items with
    | (id, heap) => (.done (.list id), { m with heap })
  | .listItems id position => onList id position pure
  | .readElement id i position =>
    onList id position fun items => Run.ofOption ⟨.brokenAccess .element, position⟩ items[i]?
  | .writeElement id i v position =>
    onList id position fun items =>
      if i < items.length then replaceItems id (items.set i v)
      else Run.fail ⟨.brokenAccess .element, position⟩
  | .appendItem id v position => onList id position fun items => replaceItems id (items ++ [v])
  | .clearList id position => onList id position fun _ => replaceItems id []
  | .render v => Run.read fun m => m.heap.render v
  | .printLine line => Run.update fun m => { m with output := m.output.push line }
  | .applyBinary op a b position => fun m =>
    match op.apply m.heap a b with
    | .ok (result, heap) => (.done result, { m with heap })
    | .error reason => (.failed ⟨.operatorFailed op.text reason, position⟩, m)

end Step

end Scriptlet
