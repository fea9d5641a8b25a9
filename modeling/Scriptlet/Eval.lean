import Scriptlet.Machine

/-!
# Computations on the machine

What a run does is written down before it is done: a computation is a tree of
steps, and `Eval.run` carries it out.  So what can be said of a computation is
not only what it makes of a machine in the end, but also through which machines
it passes on the way.

A scope and a call belong to a part of the computation.  They are opened before
that part and closed after it, in whatever way it ends.
-/

namespace Scriptlet

/-- A computation on the machine that gives an `α`. -/
inductive Eval : Type → Type 1 where
  /-- Gives a value. -/
  | protected pure {α : Type} (a : α) : Eval α
  /-- Goes on with `f` after a value; any other ending is the ending of the whole. -/
  | protected bind {α β : Type} (x : Eval α) (f : α → Eval β) : Eval β
  /-- Stops the run. -/
  | fail {α : Type} (fault : Fault) : Eval α
  /-- Ends for want of fuel. -/
  | starve {α : Type} : Eval α
  /-- Takes a single step. -/
  | protected step {α : Type} (s : Step α) : Eval α
  /-- Runs `body` in a new scope, which is taken away in every case. -/
  | inScope {α : Type} (parent : ScopeId) (body : ScopeId → Eval α) : Eval α
  /-- Runs `body` as a call, if one more may be in progress. -/
  | asCall {α : Type} (position : Option Position) (body : Eval α) : Eval α

namespace Eval

variable {α : Type}

@[always_inline]
instance : Monad Eval where
  pure := Eval.pure
  bind := Eval.bind

/-- Carries a computation out. -/
def run {α : Type} : Eval α → Run Machine Fault α
  | .pure a => Run.pure a
  | .bind x f => Run.bind x.run fun a => (f a).run
  | .fail fault => Run.fail fault
  | .starve => Run.starve
  | .step s => s.perform
  | .inScope parent body => fun m =>
    let count := m.scopes.size
    match (body count).run (m.pushScope parent) with
    | (outcome, m') => (outcome, m'.keepScopes count)
  | .asCall position body => fun m =>
    if m.callDepth < m.maxCallDepth then
      match body.run m.enterCall with
      | (outcome, m') =>
        if m'.callDepth = 0 then (.failed ⟨.brokenAccess .callDepth, position⟩, m')
        else (outcome, m'.leaveCall)
    else
      (.failed ⟨.callDepthExceeded m.maxCallDepth, position⟩, m)

/-- A computation is applied to the machine it is carried out on. -/
instance : CoeFun (Eval α) fun _ => Machine → Outcome Fault α × Machine := ⟨run⟩

/-- Stops the run at a place. -/
abbrev fault (cause : Fault.Cause) (position : Option Position) : Eval α :=
  .fail ⟨cause, position⟩

/-- The value of an optional result; without one the run stops. -/
def ofOption (fault : Fault) : Option α → Eval α
  | some a => .pure a
  | none => .fail fault

/-! ## Single steps -/

@[inherit_doc Step.declareVariable]
abbrev declareVariable (scope : ScopeId) (name : String) (value : Option Value)
    (position : Option Position) : Eval Unit :=
  .step (.declareVariable scope name value position)

@[inherit_doc Step.declareFunction]
abbrev declareFunction (scope : ScopeId) (f : Callable) (position : Option Position) :
    Eval Unit :=
  .step (.declareFunction scope f position)

@[inherit_doc Step.readVariable]
abbrev readVariable (scope : ScopeId) (name : String) (position : Option Position) :
    Eval Value :=
  .step (.readVariable scope name position)

@[inherit_doc Step.assignVariable]
abbrev assignVariable (scope : ScopeId) (name : String) (value : Value)
    (position : Option Position) : Eval Unit :=
  .step (.assignVariable scope name value position)

@[inherit_doc Step.fillVariable]
abbrev fillVariable (scope : ScopeId) (name : String) (value : Value)
    (position : Option Position) : Eval Unit :=
  .step (.fillVariable scope name value position)

@[inherit_doc Step.findFunction]
abbrev findFunction (scope : ScopeId) (name : String) (position : Option Position) :
    Eval Callable :=
  .step (.findFunction scope name position)

@[inherit_doc Step.extraArguments]
abbrev extraArguments (scope : ScopeId) (position : Option Position) : Eval (List Value) :=
  .step (.extraArguments scope position)

@[inherit_doc Step.newList]
abbrev newList (items : List Value) : Eval Value :=
  .step (.newList items)

@[inherit_doc Step.listItems]
abbrev listItems (id : ListId) (position : Option Position) : Eval (List Value) :=
  .step (.listItems id position)

@[inherit_doc Step.readElement]
abbrev readElement (id : ListId) (i : Nat) (position : Option Position) : Eval Value :=
  .step (.readElement id i position)

@[inherit_doc Step.writeElement]
abbrev writeElement (id : ListId) (i : Nat) (v : Value) (position : Option Position) :
    Eval Unit :=
  .step (.writeElement id i v position)

@[inherit_doc Step.appendItem]
abbrev appendItem (id : ListId) (v : Value) (position : Option Position) : Eval Unit :=
  .step (.appendItem id v position)

@[inherit_doc Step.clearList]
abbrev clearList (id : ListId) (position : Option Position) : Eval Unit :=
  .step (.clearList id position)

@[inherit_doc Step.render]
abbrev render (v : Value) : Eval String :=
  .step (.render v)

/-- The texts of values. -/
def renderAll : List Value → Eval (List String)
  | [] => pure []
  | v :: vs => do
    let text ← render v
    let texts ← renderAll vs
    pure (text :: texts)

@[inherit_doc Step.printLine]
abbrev printLine (line : String) : Eval Unit :=
  .step (.printLine line)

@[inherit_doc Step.applyBinary]
abbrev applyBinary (op : BinaryOp) (a b : Value) (position : Option Position) : Eval Value :=
  .step (.applyBinary op a b position)

/-! ## What needs no machine -/

/-- Applies a unary operator. -/
def applyUnary (op : UnaryOp) (v : Value) (position : Option Position) : Eval Value :=
  match op.apply v with
  | .ok result => pure result
  | .error reason => fault (.operatorFailed op.text reason) position

/-- The truth value that a value is; anything else is a fault. -/
def expectBool (v : Value) (cause : Fault.Cause) (position : Option Position) : Eval Bool :=
  match v with
  | .bool b => pure b
  | _ => fault cause position

/-- The list that a value is; anything else is a fault. -/
def expectList (v : Value) (cause : Fault.Cause) (position : Option Position) : Eval ListId :=
  match v with
  | .list id => pure id
  | _ => fault cause position

end Eval

end Scriptlet
