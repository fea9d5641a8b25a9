import Scriptlet.Host

/-!
# Running scripts

Expressions give values, statements give the way in which control goes on, and
a call gives the value of its function, if that has one.  Names are looked up
where the running code was called from: the scope of a call lies inside the
scope of its caller.

Loops and calls need not end, so every function here takes fuel, one unit for
each step further down.  With more fuel a run that has ended ends in the same
way.
-/

namespace Scriptlet

/-- How control goes on after a statement. -/
inductive Flow where
  /-- With the next statement. -/
  | normal
  /-- With the end of the function or of the script. -/
  | returned (value : Option Value) (position : Position)
  /-- With the end of the loop. -/
  | broke (position : Position)
  /-- With the next round of the loop. -/
  | continued (position : Position)
  deriving DecidableEq

namespace Flow

/-- How a loop ends after a round, or `none` if it goes on. -/
def afterRound : Flow → Option Flow
  | .normal => none
  | .continued _ => none
  | .broke _ => some .normal
  | .returned value p => some (.returned value p)

/-- What a function or a script gives whose statements end this way. -/
def result : Flow → Eval (Option Value)
  | .normal => pure none
  | .returned value _ => pure value
  | .broke p => Eval.fault .breakOutsideLoop (some p)
  | .continued p => Eval.fault .continueOutsideLoop (some p)

end Flow

/-- The value of the first operand with which a logical operator needs no second
one; `none` for every other operator. -/
def BinaryOp.decidedBy? : BinaryOp → Option Bool
  | .and => some false
  | .or => some true
  | _ => none

namespace Eval

/-- Binds parameters to the values beside them. -/
def bindParams (activation : ScopeId) (position : Option Position) :
    List String → List Value → Eval Unit
  | [], _ => pure ()
  | _ :: _, [] => fault (.brokenAccess .argument) position
  | param :: params, value :: values => do
    declareVariable activation param (some value) position
    bindParams activation position params values

/-- Binds the parameters of a function, and `...` to a list of the other
arguments if the function is variadic. -/
def bindArguments (s : Signature) (values : List Value) (activation : ScopeId)
    (position : Option Position) : Eval Unit := do
  bindParams activation position s.params values
  if s.variadic then
    let extra ← newList (values.drop s.params.length)
    declareVariable activation Name.variadic (some extra) position

/-- Declares every built-in function in a scope. -/
def declareBuiltins (scope : ScopeId) : List Builtin → Eval Unit
  | [] => pure ()
  | f :: fs => do
    declareFunction scope (.builtin f) none
    declareBuiltins scope fs

/-- Declares the functions of a script in a scope. -/
def declareFunctions (scope : ScopeId) : List FunctionDef → Eval Unit
  | [] => pure ()
  | f :: fs => do
    declareFunction scope (.script f) (some f.position)
    declareFunctions scope fs

variable [HostCode]

mutual

/-- The value of an expression in a scope. -/
def eval : Nat → ScopeId → Expr → Eval Value
  | 0, _, _ => starve
  | n + 1, scope, e =>
    match e with
    | .literal _ value => pure (.ofLiteral value)
    | .var p name => readVariable scope name (some p)
    | .element p name index => do
      let (id, i) ← element n scope p name index
      readElement id i (some p)
    | .unary p op operand => do
      let v ← eval n scope operand
      applyUnary op v (some p)
    | .binary _ op p left right => binary n scope op p left right
    | .assign _ p name value => do
      let v ← eval n scope value
      assignVariable scope name v (some p)
      pure v
    | .assignElement _ p name index value => do
      let v ← eval n scope value
      let (id, i) ← element n scope p name index
      writeElement id i v (some p)
      pure v
    | .conditional _ condition thenBranch elseBranch => do
      if ← holds n scope condition then eval n scope thenBranch else eval n scope elseBranch
    | .list _ elements => do
      let values ← evalAll n scope elements
      newList values
    | .call p name arguments => do
      match ← call n scope name arguments (some p) with
      | some v => pure v
      | none => fault (.missingReturnValue name) (some p)
termination_by structural n => n

/-- The values of expressions, from left to right. -/
def evalAll : Nat → ScopeId → List Expr → Eval (List Value)
  | 0, _, _ => starve
  | _ + 1, _, [] => pure []
  | n + 1, scope, e :: es => do
    let v ← eval n scope e
    let vs ← evalAll n scope es
    pure (v :: vs)
termination_by structural n => n

/-- The value of an operation.  A logical operator stops at a first operand that
decides it. -/
def binary : Nat → ScopeId → BinaryOp → Position → Expr → Expr → Eval Value
  | 0, _, _, _, _, _ => starve
  | n + 1, scope, op, p, left, right => do
    let a ← eval n scope left
    match op.decidedBy? with
    | none =>
      let b ← eval n scope right
      applyBinary op a b (some p)
    | some decisive =>
      let a ← expectBool a (.operatorFailed op.text .leftNotBoolean) (some p)
      if a = decisive then pure (.bool a)
      else
        let b ← eval n scope right
        let b ← expectBool b (.operatorFailed op.text .rightNotBoolean) (some p)
        pure (.bool b)
termination_by structural n => n

/-- The truth of a condition. -/
def holds : Nat → ScopeId → Expr → Eval Bool
  | 0, _, _ => starve
  | n + 1, scope, condition => do
    let v ← eval n scope condition
    expectBool v .conditionNotBoolean (some condition.position)
termination_by structural n => n

/-- The list and the index that an element of a variable means. -/
def element : Nat → ScopeId → Position → String → Expr → Eval (ListId × Nat)
  | 0, _, _, _, _ => starve
  | n + 1, scope, p, name, index => do
    let v ← readVariable scope name (some p)
    let id ← expectList v (.variableNotCollection name) (some p)
    match ← eval n scope index with
    | .int i =>
      let items ← listItems id (some p)
      let i ← ofOption ⟨.indexOutOfRange i, some index.position⟩ (Heap.index? i items.length)
      pure (id, i)
    | _ => fault .indexNotInteger (some index.position)
termination_by structural n => n

/-- Calls the function that a name means in the scope of the caller. -/
def call : Nat → ScopeId → String → List Expr → Option Position → Eval (Option Value)
  | 0, _, _, _, _ => starve
  | n + 1, scope, name, arguments, position => do
    let f ← findFunction scope name position
    if f.signature.accepts arguments.length then
      let values ← evalAll n scope arguments
      asCall position (inScope scope fun activation => do
        bindArguments f.signature values activation position
        invoke n f activation position)
    else
      fault (.parameterCountMismatch f.signature.name) position
termination_by structural n => n

/-- Runs a function whose arguments are bound in the activation scope. -/
def invoke : Nat → Callable → ScopeId → Option Position → Eval (Option Value)
  | 0, _, _, _ => starve
  | n + 1, f, activation, position =>
    match f with
    | .builtin f => do
      let v ← readVariable activation Builtin.param position
      let result ← f.apply v position
      pure (some result)
    | .host f => HostCode.run (execute n) activation position f
    | .script f => do
      let flow ← exec n activation (.block f.bodyPosition f.body)
      flow.result
termination_by structural n => n

/-- Executes a statement in a scope. -/
def exec : Nat → ScopeId → Statement → Eval Flow
  | 0, _, _ => starve
  | n + 1, scope, s =>
    match s with
    | .declare p name value => do
      declareVariable scope name none (some p)
      match value with
      | none => pure .normal
      | some e =>
        let v ← eval n scope e
        fillVariable scope name v (some p)
        pure .normal
    | .evaluate _ e =>
      match e with
      | .call p name arguments => do
        let _ ← call n scope name arguments (some p)
        pure .normal
      | e => do
        let _ ← eval n scope e
        pure .normal
    | .block _ statements => inScope scope fun inner => execAll n inner statements
    | .ifElse _ condition thenBranch elseBranch =>
      inScope scope fun inner => do
        if ← holds n inner condition then exec n inner thenBranch
        else
          match elseBranch with
          | some s => exec n inner s
          | none => pure .normal
    | .whileLoop _ condition body => inScope scope fun inner => whileRounds n inner condition body
    | .forLoop p counter start condition step body =>
      inScope scope fun inner => do
        let first ← eval n inner start
        match counter with
        | some name => declareVariable inner name (some first) (some p)
        | none => pure ()
        forRounds n inner condition step body
    | .forEach p item collection body => do
      let v ← eval n scope collection
      let id ← expectList v .expressionNotCollection (some collection.position)
      inScope scope fun inner => do
        declareVariable inner item none (some p)
        forEachRounds n inner p item id 0 body
    | .returns p value =>
      match value with
      | none => pure (.returned none p)
      | some e => do
        let v ← eval n scope e
        pure (.returned (some v) p)
    | .breaks p => pure (.broke p)
    | .continues p => pure (.continued p)
termination_by structural n => n

/-- Executes statements in order, up to the first that does not end normally. -/
def execAll : Nat → ScopeId → List Statement → Eval Flow
  | 0, _, _ => starve
  | _ + 1, _, [] => pure .normal
  | n + 1, scope, s :: rest => do
    match ← exec n scope s with
    | .normal => execAll n scope rest
    | flow => pure flow
termination_by structural n => n

/-- The rounds of a `while` loop. -/
def whileRounds : Nat → ScopeId → Expr → Statement → Eval Flow
  | 0, _, _, _ => starve
  | n + 1, scope, condition, body => do
    if ← holds n scope condition then
      let flow ← exec n scope body
      match flow.afterRound with
      | some ending => pure ending
      | none => whileRounds n scope condition body
    else pure .normal
termination_by structural n => n

/-- The rounds of a `for` loop. -/
def forRounds : Nat → ScopeId → Expr → Expr → Statement → Eval Flow
  | 0, _, _, _, _ => starve
  | n + 1, scope, condition, step, body => do
    if ← holds n scope condition then
      let flow ← exec n scope body
      match flow.afterRound with
      | some ending => pure ending
      | none =>
        let _ ← eval n scope step
        forRounds n scope condition step body
    else pure .normal
termination_by structural n => n

/-- The rounds of a `foreach` loop from an index on.  The list is read anew in
every round, so the loop sees changes that its body makes. -/
def forEachRounds : Nat → ScopeId → Position → String → ListId → Nat → Statement → Eval Flow
  | 0, _, _, _, _, _, _ => starve
  | n + 1, scope, p, item, id, index, body => do
    let items ← listItems id (some p)
    match items[index]? with
    | none => pure .normal
    | some v =>
      fillVariable scope item v (some p)
      let flow ← exec n scope body
      match flow.afterRound with
      | some ending => pure ending
      | none => forEachRounds n scope p item id (index + 1) body
termination_by structural n => n

/-- Executes a script in a scope of its own under the host scope. -/
def execute : Nat → Script → Eval (Option Value)
  | 0, _ => starve
  | n + 1, script =>
    inScope Arena.host fun scope => do
      declareBuiltins scope Builtin.all
      declareFunctions scope script.functions
      let flow ← execAll n scope script.statements
      flow.result
termination_by structural n => n

end

end Eval

end Scriptlet
