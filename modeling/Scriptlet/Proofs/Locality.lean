import Scriptlet.Evaluator

/-!
# Where a computation works

Running code knows two scopes: the one it runs in and the host scope.  It reads
and writes in the first, it opens new scopes under the first, and what runs in a
new scope knows that scope in place of the first.  The host scope serves two
purposes only: the host may declare a variable there, and a script gets its
scope under it.

`Eval.LocalTo` states this of a computation.  It is a property of the tree of
steps alone, so it is proved once, along the fuel, for all functions of the
evaluator (`Eval.localUpTo`), and every later argument about scopes goes by
induction on a computation that has it.
-/

namespace Scriptlet

/-- The scopes that a step may use in code that runs in `scope`. -/
def Step.LocalTo {α : Type} (scope : ScopeId) : Step α → Prop
  | .declareVariable target _ _ _ => target = scope ∨ target = Arena.host
  | .declareFunction target _ _ => target = scope
  | .readVariable target _ _ => target = scope
  | .assignVariable target _ _ _ => target = scope
  | .fillVariable target _ _ _ => target = scope
  | .findFunction target _ _ => target = scope
  | .extraArguments target _ => target = scope
  | _ => True

namespace Eval

/-- The computation works in `scope`: it uses `scope` and, inside a scope that it
opens, that scope; it opens scopes under these and under the host scope. -/
def LocalTo {α : Type} : Eval α → ScopeId → Prop
  | .pure _, _ => True
  | .bind x f, scope => x.LocalTo scope ∧ ∀ a, (f a).LocalTo scope
  | .fail _, _ => True
  | .starve, _ => True
  | .step s, scope => s.LocalTo scope
  | .inScope parent body, scope =>
    (parent = scope ∨ parent = Arena.host) ∧ ∀ inner, (body inner).LocalTo inner
  | .asCall _ body, scope => body.LocalTo scope

variable {α β : Type} {scope : ScopeId}

@[simp]
theorem localTo_pure (a : α) : (pure a : Eval α).LocalTo scope := trivial

/-- A sequence works in a scope if and only if both of its parts do. -/
@[simp]
theorem localTo_bind (x : Eval α) (f : α → Eval β) :
    (x >>= f).LocalTo scope ↔ x.LocalTo scope ∧ ∀ a, (f a).LocalTo scope := Iff.rfl

@[simp]
theorem localTo_fail (fault : Fault) : (fail fault : Eval α).LocalTo scope := trivial

@[simp]
theorem localTo_starve : (starve : Eval α).LocalTo scope := trivial

/-- A single step works in a scope if it uses that scope only. -/
@[simp]
theorem localTo_step (s : Step α) : (Eval.step s).LocalTo scope ↔ s.LocalTo scope := Iff.rfl

/-- A new scope may be opened under the scope or under the host scope, and what runs there
works there. -/
@[simp]
theorem localTo_inScope (parent : ScopeId) (body : ScopeId → Eval α) :
    (inScope parent body).LocalTo scope ↔
      (parent = scope ∨ parent = Arena.host) ∧ ∀ inner, (body inner).LocalTo inner := Iff.rfl

/-- A call works in the scope that its body works in. -/
@[simp]
theorem localTo_asCall (position : Option Position) (body : Eval α) :
    (asCall position body).LocalTo scope ↔ body.LocalTo scope := Iff.rfl

/-! ## What needs no fuel -/

@[simp]
theorem localTo_ofOption (fault : Fault) (a? : Option α) : (ofOption fault a?).LocalTo scope := by
  cases a? <;> trivial

@[simp]
theorem localTo_applyUnary (op : UnaryOp) (v : Value) (position : Option Position) :
    (applyUnary op v position).LocalTo scope := by
  unfold applyUnary
  split <;> trivial

@[simp]
theorem localTo_expectBool (v : Value) (cause : Fault.Cause) (position : Option Position) :
    (expectBool v cause position).LocalTo scope := by
  unfold expectBool
  split <;> trivial

@[simp]
theorem localTo_expectList (v : Value) (cause : Fault.Cause) (position : Option Position) :
    (expectList v cause position).LocalTo scope := by
  unfold expectList
  split <;> trivial

/-- Writing values as texts uses no scope. -/
@[simp]
theorem localTo_renderAll (values : List Value) : (renderAll values).LocalTo scope := by
  induction values with
  | nil => trivial
  | cons v vs ih => simp [renderAll, Step.LocalTo, ih]

/-- What a function makes of its ending uses no scope. -/
@[simp]
theorem localTo_flowResult (flow : Flow) : flow.result.LocalTo scope := by
  cases flow <;> trivial

/-- Parameters are bound in the scope that is given, one after the other. -/
@[simp]
theorem localTo_bindParams (position : Option Position) (params : List String)
    (values : List Value) : (bindParams scope position params values).LocalTo scope := by
  induction params generalizing values with
  | nil => trivial
  | cons param params ih =>
      cases values with
      | nil => trivial
      | cons value values => exact ⟨.inl rfl, fun _ => ih values⟩

/-- Arguments are bound in the scope that is given, the extra ones too. -/
@[simp]
theorem localTo_bindArguments (s : Signature) (values : List Value) (position : Option Position) :
    (bindArguments s values scope position).LocalTo scope := by
  unfold bindArguments
  split <;> simp [Step.LocalTo]

/-- Built-in functions are declared in the scope that is given. -/
@[simp]
theorem localTo_declareBuiltins (fs : List Builtin) : (declareBuiltins scope fs).LocalTo scope := by
  induction fs with
  | nil => trivial
  | cons f fs ih => exact ⟨rfl, fun _ => ih⟩

/-- Functions of a script are declared in the scope that is given. -/
@[simp]
theorem localTo_declareFunctions (fs : List FunctionDef) :
    (declareFunctions scope fs).LocalTo scope := by
  induction fs with
  | nil => trivial
  | cons f fs ih => exact ⟨rfl, fun _ => ih⟩

/-- A built-in function is applied without a scope. -/
@[simp]
theorem localTo_builtinApply (f : Builtin) (v : Value) (position : Option Position) :
    (f.apply v position).LocalTo scope := by
  cases f <;> cases v <;> simp [Builtin.apply, Step.LocalTo]

/-- A function of the host works in its activation scope if the scripts that it
runs do. -/
theorem localTo_hostFunctionRun {execute : Script → Eval (Option Value)}
    (hexecute : ∀ script, (execute script).LocalTo scope) (position : Option Position)
    (f : HostFunction) : (f.run execute scope position).LocalTo scope := by
  cases f with
  | assert =>
      refine ⟨rfl, fun condition => ?_⟩
      dsimp only
      split
      · trivial
      · exact ⟨trivial, fun _ => trivial⟩
  | runScript =>
      refine ⟨rfl, fun text => ⟨trivial, fun text => ?_⟩⟩
      dsimp only
      split
      next script _ => exact hexecute script
      next => trivial
  | clear =>
      refine ⟨rfl, fun list => ?_⟩
      cases list with
      | list id => exact ⟨trivial, fun _ => trivial⟩
      | _ => trivial
  | _ => simp [HostFunction.run, Step.LocalTo]

/-! ## The evaluator -/

/-- With `n` units of fuel every function of the evaluator works in the scope
that it is given. -/
structure LocalUpTo (n : Nat) : Prop where
  eval : ∀ scope e, (eval n scope e).LocalTo scope
  evalAll : ∀ scope es, (evalAll n scope es).LocalTo scope
  binary : ∀ scope op p left right, (binary n scope op p left right).LocalTo scope
  holds : ∀ scope condition, (holds n scope condition).LocalTo scope
  element : ∀ scope p name index, (element n scope p name index).LocalTo scope
  call : ∀ scope name arguments position, (call n scope name arguments position).LocalTo scope
  invoke : ∀ f scope position, (invoke n f scope position).LocalTo scope
  exec : ∀ scope s, (exec n scope s).LocalTo scope
  execAll : ∀ scope ss, (execAll n scope ss).LocalTo scope
  whileRounds : ∀ scope condition body, (whileRounds n scope condition body).LocalTo scope
  forRounds : ∀ scope condition step body, (forRounds n scope condition step body).LocalTo scope
  forEachRounds : ∀ scope p item id index body,
    (forEachRounds n scope p item id index body).LocalTo scope
  execute : ∀ scope script, (execute n script).LocalTo scope

namespace LocalUpTo

variable {n : Nat} (ih : LocalUpTo n)

include ih

/-- An expression works in the scope it is evaluated in, if its parts do. -/
theorem eval_succ (scope : ScopeId) (e : Expr) : (Eval.eval (n + 1) scope e).LocalTo scope := by
  cases e with
  | literal p value => trivial
  | var p name => exact rfl
  | element p name index => exact ⟨ih.element scope p name index, fun _ => trivial⟩
  | unary p op operand => exact ⟨ih.eval scope operand, fun v => localTo_applyUnary op v _⟩
  | binary _ op p left right => exact ih.binary scope op p left right
  | assign _ p name value => exact ⟨ih.eval scope value, fun _ => ⟨rfl, fun _ => trivial⟩⟩
  | assignElement _ p name index value =>
      exact ⟨ih.eval scope value, fun _ =>
        ⟨ih.element scope p name index, fun _ => ⟨trivial, fun _ => trivial⟩⟩⟩
  | conditional _ condition thenBranch elseBranch =>
      refine ⟨ih.holds scope condition, fun truth => ?_⟩
      cases truth with
      | true => exact ih.eval scope thenBranch
      | false => exact ih.eval scope elseBranch
  | list p elements => exact ⟨ih.evalAll scope elements, fun _ => trivial⟩
  | call p name arguments =>
      refine ⟨ih.call scope name arguments (some p), fun result => ?_⟩
      cases result <;> trivial

/-- Several expressions are evaluated in one scope. -/
theorem evalAll_succ (scope : ScopeId) (es : List Expr) :
    (Eval.evalAll (n + 1) scope es).LocalTo scope := by
  cases es with
  | nil => trivial
  | cons e es => exact ⟨ih.eval scope e, fun _ => ⟨ih.evalAll scope es, fun _ => trivial⟩⟩

/-- Both operands are evaluated in the scope of the operation. -/
theorem binary_succ (scope : ScopeId) (op : BinaryOp) (p : Position) (left right : Expr) :
    (Eval.binary (n + 1) scope op p left right).LocalTo scope := by
  refine ⟨ih.eval scope left, fun a => ?_⟩
  dsimp only
  split
  · exact ⟨ih.eval scope right, fun _ => trivial⟩
  · refine ⟨localTo_expectBool a _ _, fun truth => ?_⟩
    dsimp only
    split
    · trivial
    · exact ⟨ih.eval scope right, fun b => ⟨localTo_expectBool b _ _, fun _ => trivial⟩⟩

/-- A condition is evaluated in the scope of its statement. -/
theorem holds_succ (scope : ScopeId) (condition : Expr) :
    (Eval.holds (n + 1) scope condition).LocalTo scope :=
  ⟨ih.eval scope condition, fun v => localTo_expectBool v _ _⟩

/-- The variable of an element is read, and its index evaluated, in the same scope. -/
theorem element_succ (scope : ScopeId) (p : Position) (name : String) (index : Expr) :
    (Eval.element (n + 1) scope p name index).LocalTo scope := by
  refine ⟨rfl, fun v => ⟨localTo_expectList v _ _, fun id => ⟨ih.eval scope index, fun i => ?_⟩⟩⟩
  cases i with
  | int i => exact ⟨trivial, fun _ => ⟨localTo_ofOption _ _, fun _ => trivial⟩⟩
  | _ => trivial

/-- The function is looked up and the arguments are evaluated in the scope of the caller,
and the activation scope is opened under it. -/
theorem call_succ (scope : ScopeId) (name : String) (arguments : List Expr)
    (position : Option Position) :
    (Eval.call (n + 1) scope name arguments position).LocalTo scope := by
  refine ⟨rfl, fun f => ?_⟩
  dsimp only
  split
  · exact ⟨ih.evalAll scope arguments, fun values => ⟨.inl rfl, fun activation =>
      ⟨localTo_bindArguments f.signature values position,
        fun _ => ih.invoke f activation position⟩⟩⟩
  · trivial

/-- Whatever function is called works in its activation scope. -/
theorem invoke_succ (f : Callable) (scope : ScopeId) (position : Option Position) :
    (Eval.invoke (n + 1) f scope position).LocalTo scope := by
  cases f with
  | builtin f => exact ⟨rfl, fun v => ⟨localTo_builtinApply f v position, fun _ => trivial⟩⟩
  | host f => exact localTo_hostFunctionRun (ih.execute scope) position f
  | script f => exact ⟨ih.exec scope _, localTo_flowResult⟩

/-- A statement works in the scope it is executed in; what it opens lies under that. -/
theorem exec_succ (scope : ScopeId) (s : Statement) :
    (Eval.exec (n + 1) scope s).LocalTo scope := by
  cases s with
  | declare p name value =>
      refine ⟨.inl rfl, fun _ => ?_⟩
      cases value with
      | none => trivial
      | some e => exact ⟨ih.eval scope e, fun _ => ⟨rfl, fun _ => trivial⟩⟩
  | evaluate _ e =>
      -- a call is made without asking for its value, everything else is evaluated
      cases e with
      | call p name arguments => exact ⟨ih.call scope name arguments (some p), fun _ => trivial⟩
      | _ => exact ⟨ih.eval scope _, fun _ => trivial⟩
  | block p statements => exact ⟨.inl rfl, fun inner => ih.execAll inner statements⟩
  | ifElse p condition thenBranch elseBranch =>
      refine ⟨.inl rfl, fun inner => ⟨ih.holds inner condition, fun truth => ?_⟩⟩
      cases truth with
      | true => exact ih.exec inner thenBranch
      | false =>
          cases elseBranch with
          | some s => exact ih.exec inner s
          | none => trivial
  | whileLoop p condition body =>
      exact ⟨.inl rfl, fun inner => ih.whileRounds inner condition body⟩
  | forLoop p counter start condition step body =>
      refine ⟨.inl rfl, fun inner => ⟨ih.eval inner start, fun first => ?_⟩⟩
      cases counter with
      | some name => exact ⟨.inl rfl, fun _ => ih.forRounds inner condition step body⟩
      | none => exact ih.forRounds inner condition step body
  | forEach p item collection body =>
      exact ⟨ih.eval scope collection, fun v => ⟨localTo_expectList v _ _, fun id =>
        ⟨.inl rfl, fun inner => ⟨.inl rfl, fun _ => ih.forEachRounds inner p item id 0 body⟩⟩⟩⟩
  | returns p value =>
      cases value with
      | none => trivial
      | some e => exact ⟨ih.eval scope e, fun _ => trivial⟩
  | breaks p => trivial
  | continues p => trivial

/-- Statements in order work in one scope. -/
theorem execAll_succ (scope : ScopeId) (ss : List Statement) :
    (Eval.execAll (n + 1) scope ss).LocalTo scope := by
  cases ss with
  | nil => trivial
  | cons s rest =>
      refine ⟨ih.exec scope s, fun flow => ?_⟩
      cases flow with
      | normal => exact ih.execAll scope rest
      | _ => trivial

/-- All rounds of a `while` loop work in the scope of the loop. -/
theorem whileRounds_succ (scope : ScopeId) (condition : Expr) (body : Statement) :
    (Eval.whileRounds (n + 1) scope condition body).LocalTo scope := by
  refine ⟨ih.holds scope condition, fun truth => ?_⟩
  cases truth with
  | true =>
      refine ⟨ih.exec scope body, fun flow => ?_⟩
      dsimp only
      split
      · trivial
      · exact ih.whileRounds scope condition body
  | false => trivial

/-- All rounds of a `for` loop work in the scope of the loop. -/
theorem forRounds_succ (scope : ScopeId) (condition step : Expr) (body : Statement) :
    (Eval.forRounds (n + 1) scope condition step body).LocalTo scope := by
  refine ⟨ih.holds scope condition, fun truth => ?_⟩
  cases truth with
  | true =>
      refine ⟨ih.exec scope body, fun flow => ?_⟩
      dsimp only
      split
      · trivial
      · exact ⟨ih.eval scope step, fun _ => ih.forRounds scope condition step body⟩
  | false => trivial

/-- All rounds of a `foreach` loop work in the scope of the loop. -/
theorem forEachRounds_succ (scope : ScopeId) (p : Position) (item : String) (id : ListId)
    (index : Nat) (body : Statement) :
    (Eval.forEachRounds (n + 1) scope p item id index body).LocalTo scope := by
  refine ⟨trivial, fun items => ?_⟩
  dsimp only
  split
  · trivial
  · refine ⟨rfl, fun _ => ⟨ih.exec scope body, fun flow => ?_⟩⟩
    dsimp only
    split
    · trivial
    · exact ih.forEachRounds scope p item id (index + 1) body

/-- A script runs in a new scope under the host scope, from wherever it is executed. -/
theorem execute_succ (scope : ScopeId) (script : Script) :
    (Eval.execute (n + 1) script).LocalTo scope :=
  ⟨.inr rfl, fun inner => ⟨localTo_declareBuiltins _, fun _ => ⟨localTo_declareFunctions _, fun _ =>
    ⟨ih.execAll inner script.statements, localTo_flowResult⟩⟩⟩⟩

end LocalUpTo

/-- **Running code works in its own scope.**  By induction on the fuel: each
function hands its scope, or one that it opened, to those that it calls. -/
theorem localUpTo (n : Nat) : LocalUpTo n := by
  induction n with
  | zero => constructor <;> intros <;> trivial
  | succ n ih =>
      exact ⟨ih.eval_succ, ih.evalAll_succ, ih.binary_succ, ih.holds_succ, ih.element_succ,
        ih.call_succ, ih.invoke_succ, ih.exec_succ, ih.execAll_succ, ih.whileRounds_succ,
        ih.forRounds_succ, ih.forEachRounds_succ, ih.execute_succ⟩

end Eval

end Scriptlet
