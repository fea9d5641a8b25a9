import Scriptlet.Proofs.Moment
import Scriptlet.Evaluator

/-!
# Two runs side by side

The same code can run in two scopes, on two machines.  `Eval.Parallel` says of two
computations that they do the same, one in a scope `s` and the other in a scope `t`:
step by step they use these scopes alike, and what they run in new scopes is parallel
in these.  They name no other scope, but for the host scope, and that only if
functions of the host may be called at all (`hosted`).  A host is local if its functions
are parallel to themselves (`HostCode.Local`), and the stock host is (`HostCode.stock_local`).
With a local host the evaluator is parallel to itself (`Eval.parallelUpTo`).

What is to be shown about two runs is then put into a relation between machines that
a pair of parallel steps and the opening and closing of scopes and calls preserve
(`Simulation`).  Parallel computations on machines so related end alike and leave
related machines (`Simulation.run`).
-/

namespace Scriptlet

/-- The function belongs to the host. -/
def Callable.IsHost : Callable → Prop
  | .host _ => True
  | _ => False

namespace Step

variable {α : Type}

/-- The step names no scope. -/
def Scopeless : Step α → Prop
  | .declareVariable _ _ _ _ => False
  | .declareFunction _ _ _ => False
  | .readVariable _ _ _ => False
  | .assignVariable _ _ _ _ => False
  | .fillVariable _ _ _ _ => False
  | .findFunction _ _ _ => False
  | .extraArguments _ _ => False
  | _ => True

/-- The machine that has the lists of `h` and nothing else. -/
def bare (h : Heap) : Machine :=
  ⟨#[], h, 0, 0, #[]⟩

/-- What the run does depends on the lists alone: it may change these and print, and
leaves the rest of the machine as it was. -/
def HeapOnly (x : Run Machine Fault α) : Prop :=
  ∀ m, x m = ((x (bare m.heap)).1,
    { m with heap := (x (bare m.heap)).2.heap, output := m.output ++ (x (bare m.heap)).2.output })

theorem heapOnly_pure (a : α) : HeapOnly (Run.pure a) := by
  intro m
  simp [Run.pure, bare]

theorem heapOnly_fail (fault : Fault) : HeapOnly (Run.fail fault : Run Machine Fault α) := by
  intro m
  simp [Run.fail, bare]

/-- Replacing the elements of a list changes the lists only. -/
theorem heapOnly_replaceItems (id : ListId) (items : List Value) :
    HeapOnly (replaceItems id items) := by
  intro m
  simp [replaceItems, Run.update, bare]

/-- What is done with a list that is there needs the lists alone, if what is behind the
guard does. -/
theorem heapOnly_onList (id : ListId) (position : Option Position)
    {body : List Value → Run Machine Fault α} (hbody : ∀ items, HeapOnly (body items)) :
    HeapOnly (onList id position body) := by
  intro m
  unfold onList
  by_cases hid : id < m.heap.size
  · have hid' : id < (bare m.heap).heap.size := hid
    rw [if_pos hid, if_pos hid']
    exact hbody (m.heap.contents id) m
  · have hid' : ¬ id < (bare m.heap).heap.size := hid
    rw [if_neg hid, if_neg hid']
    exact heapOnly_fail _ m

/-- A step that names no scope has to do with the lists alone. -/
theorem perform_heapOnly {a : Step α} (ha : a.Scopeless) : HeapOnly a.perform := by
  cases a with
  | newList items =>
      intro m
      simp [perform, bare]
  | listItems id position => exact heapOnly_onList id position heapOnly_pure
  | readElement id i position =>
      show HeapOnly (onList id position fun items => Run.ofOption _ items[i]?)
      apply heapOnly_onList
      intro items
      cases items[i]? with
      | some v => exact heapOnly_pure v
      | none => exact heapOnly_fail _
  | writeElement id i v position =>
      show HeapOnly (onList id position fun items =>
        if i < items.length then replaceItems id (items.set i v) else Run.fail _)
      apply heapOnly_onList
      intro items
      split
      · exact heapOnly_replaceItems id _
      · exact heapOnly_fail _
  | appendItem id v position =>
      exact heapOnly_onList id position fun items => heapOnly_replaceItems id (items ++ [v])
  | clearList id position =>
      exact heapOnly_onList id position fun _ => heapOnly_replaceItems id []
  | render v =>
      intro m
      simp [perform, Run.read, bare]
  | printLine line =>
      intro m
      simp [perform, Run.update, bare]
  | applyBinary op x y position =>
      intro m
      simp only [perform, bare]
      split <;> simp
  | _ => exact ha.elim

/-- Two steps that do the same, in the scopes `s` and `t`. -/
inductive Parallel (hosted : Prop) (s t : ScopeId) : {α : Type} → Step α → Step α → Prop where
  | declareVariable (name : String) (value : Option Value) (position : Option Position) :
      Parallel hosted s t (.declareVariable s name value position)
        (.declareVariable t name value position)
  | declareHostVariable (h : hosted) (name : String) (value : Option Value)
      (position : Option Position) :
      Parallel hosted s t (.declareVariable Arena.host name value position)
        (.declareVariable Arena.host name value position)
  | declareFunction (f : Callable) (h : f.IsHost → hosted) (position : Option Position) :
      Parallel hosted s t (.declareFunction s f position) (.declareFunction t f position)
  | declareHostFunction (h : hosted) (f : Callable) (position : Option Position) :
      Parallel hosted s t (.declareFunction Arena.host f position)
        (.declareFunction Arena.host f position)
  | readVariable (name : String) (position : Option Position) :
      Parallel hosted s t (.readVariable s name position) (.readVariable t name position)
  | assignVariable (name : String) (value : Value) (position : Option Position) :
      Parallel hosted s t (.assignVariable s name value position)
        (.assignVariable t name value position)
  | fillVariable (name : String) (value : Value) (position : Option Position) :
      Parallel hosted s t (.fillVariable s name value position)
        (.fillVariable t name value position)
  | findFunction (name : String) (position : Option Position) :
      Parallel hosted s t (.findFunction s name position) (.findFunction t name position)
  | extraArguments (position : Option Position) :
      Parallel hosted s t (.extraArguments s position) (.extraArguments t position)
  | scopeless {α : Type} {a : Step α} (h : a.Scopeless) : Parallel hosted s t a a

end Step

namespace Eval

/-- Two computations that do the same, in the scopes `s` and `t`.  After the search for
a function only those have to be considered that may be called. -/
inductive Parallel (hosted : Prop) :
    ScopeId → ScopeId → {α : Type} → Eval α → Eval α → Prop where
  | pure {s t : ScopeId} {α : Type} (a : α) : Parallel hosted s t (.pure a) (.pure a)
  | fail {s t : ScopeId} {α : Type} (fault : Fault) :
      Parallel hosted s t (.fail fault : Eval α) (.fail fault)
  | starve {s t : ScopeId} {α : Type} : Parallel hosted s t (.starve : Eval α) .starve
  | step {s t : ScopeId} {α : Type} {a b : Step α} (h : a.Parallel hosted s t b) :
      Parallel hosted s t (.step a) (.step b)
  | bind {s t : ScopeId} {α β : Type} {x y : Eval α} {f g : α → Eval β}
      (hx : Parallel hosted s t x y) (hf : ∀ a, Parallel hosted s t (f a) (g a)) :
      Parallel hosted s t (.bind x f) (.bind y g)
  | found {s t : ScopeId} {β : Type} (name : String) (position : Option Position)
      {f g : Callable → Eval β}
      (hf : ∀ c, (c.IsHost → hosted) → Parallel hosted s t (f c) (g c)) :
      Parallel hosted s t (.bind (.step (.findFunction s name position)) f)
        (.bind (.step (.findFunction t name position)) g)
  | inScope {s t : ScopeId} {α : Type} {f g : ScopeId → Eval α}
      (hf : ∀ i j, Parallel hosted i j (f i) (g j)) :
      Parallel hosted s t (.inScope s f) (.inScope t g)
  | inHost {s t : ScopeId} {α : Type} (h : hosted) {f g : ScopeId → Eval α}
      (hf : ∀ i j, Parallel hosted i j (f i) (g j)) :
      Parallel hosted s t (.inScope Arena.host f) (.inScope Arena.host g)
  | asCall {s t : ScopeId} {α : Type} (position : Option Position) {x y : Eval α}
      (hx : Parallel hosted s t x y) :
      Parallel hosted s t (.asCall position x) (.asCall position y)

variable {α : Type} {hosted : Prop} {s t : ScopeId}

/-! ## What needs no fuel -/

/-- A step that names no scope is parallel to itself. -/
theorem parallel_scopeless {a : Step α} (h : a.Scopeless) :
    (Eval.step a).Parallel hosted s t (.step a) :=
  .step (.scopeless h)

/-- Variables are read from both scopes. -/
theorem parallel_readVariable (name : String) (position : Option Position) :
    (readVariable s name position).Parallel hosted s t (readVariable t name position) :=
  .step (.readVariable name position)

/-- Variables are declared in both scopes. -/
theorem parallel_declareVariable (name : String) (value : Option Value)
    (position : Option Position) :
    (declareVariable s name value position).Parallel hosted s t
      (declareVariable t name value position) :=
  .step (.declareVariable name value position)

/-- The extra arguments are looked up from both scopes. -/
theorem parallel_extraArguments (position : Option Position) :
    (extraArguments s position).Parallel hosted s t (extraArguments t position) :=
  .step (.extraArguments position)

theorem parallel_ofOption (fault : Fault) (a? : Option α) :
    (ofOption fault a?).Parallel hosted s t (ofOption fault a?) := by
  cases a? with
  | some a => exact .pure a
  | none => exact .fail fault

theorem parallel_applyUnary (op : UnaryOp) (v : Value) (position : Option Position) :
    (applyUnary op v position).Parallel hosted s t (applyUnary op v position) := by
  unfold applyUnary
  split
  · exact .pure _
  · exact .fail _

/-- What asks for a truth value names no scope. -/
theorem parallel_expectBool (v : Value) (cause : Fault.Cause) (position : Option Position) :
    (expectBool v cause position).Parallel hosted s t (expectBool v cause position) := by
  unfold expectBool
  split
  · exact .pure _
  · exact .fail _

theorem parallel_expectList (v : Value) (cause : Fault.Cause) (position : Option Position) :
    (expectList v cause position).Parallel hosted s t (expectList v cause position) := by
  unfold expectList
  split
  · exact .pure _
  · exact .fail _

theorem parallel_flowResult (flow : Flow) : flow.result.Parallel hosted s t flow.result := by
  cases flow with
  | normal => exact .pure _
  | returned value p => exact .pure _
  | broke p => exact .fail _
  | continued p => exact .fail _

/-- Writing values as texts names no scope. -/
theorem parallel_renderAll (values : List Value) :
    (renderAll values).Parallel hosted s t (renderAll values) := by
  induction values with
  | nil => exact .pure _
  | cons v vs ih => exact .bind (parallel_scopeless trivial) fun _ => .bind ih fun _ => .pure _

/-- Parameters are bound in both scopes, in the same order. -/
theorem parallel_bindParams (position : Option Position) (params : List String)
    (values : List Value) :
    (bindParams s position params values).Parallel hosted s t
      (bindParams t position params values) := by
  induction params generalizing values with
  | nil => exact .pure _
  | cons param params ih =>
      cases values with
      | nil => exact .fail _
      | cons value values =>
          exact .bind (parallel_declareVariable param (some value) position) fun _ => ih values

theorem parallel_bindArguments (signature : Signature) (values : List Value)
    (position : Option Position) :
    (bindArguments signature values s position).Parallel hosted s t
      (bindArguments signature values t position) := by
  refine .bind (parallel_bindParams position signature.params values) fun _ => ?_
  split
  · refine .bind (parallel_scopeless trivial) fun extra => ?_
    exact parallel_declareVariable Name.variadic (some extra) position
  · exact .pure _

/-- Built-in functions are declared in both scopes. -/
theorem parallel_declareBuiltins (fs : List Builtin) :
    (declareBuiltins s fs).Parallel hosted s t (declareBuiltins t fs) := by
  induction fs with
  | nil => exact .pure _
  | cons f fs ih => exact .bind (.step (.declareFunction (.builtin f) False.elim none)) fun _ => ih

/-- Functions of a script are declared in both scopes. -/
theorem parallel_declareFunctions (fs : List FunctionDef) :
    (declareFunctions s fs).Parallel hosted s t (declareFunctions t fs) := by
  induction fs with
  | nil => exact .pure _
  | cons f fs ih =>
      exact .bind (.step (.declareFunction (.script f) False.elim (some f.position))) fun _ => ih

theorem parallel_builtinApply (f : Builtin) (v : Value) (position : Option Position) :
    (f.apply v position).Parallel hosted s t (f.apply v position) := by
  cases f with
  | toText =>
      cases v with
      | str text => exact .pure _
      | _ => exact .bind (parallel_scopeless trivial) fun _ => .pure _
  | toInt =>
      cases v with
      | double x => exact .bind (parallel_ofOption _ _) fun _ => .pure _
      | int n => exact .pure _
      | bool b => exact .pure _
      | _ => exact .fail _
  | countOf =>
      refine .bind (parallel_expectList v _ _) fun id => ?_
      refine .bind (parallel_scopeless trivial) fun items => ?_
      exact .bind (parallel_ofOption _ _) fun _ => .pure _

/-- A function of the stock host does the same in two activations if the scripts that it
runs do. -/
theorem parallel_hostFunctionRun {execute : Script → Eval (Option Value)}
    (hexecute : ∀ script, (execute script).Parallel True s t (execute script))
    (position : Option Position) (f : HostFunction) :
    (f.run execute s position).Parallel True s t (f.run execute t position) := by
  cases f with
  | print =>
      refine .bind (parallel_extraArguments position) fun extra => ?_
      refine .bind (parallel_renderAll extra) fun texts => ?_
      exact .bind (parallel_scopeless trivial) fun _ => .pure _
  | assert =>
      refine .bind (parallel_readVariable "condition" position) fun condition => ?_
      split
      · exact .pure _
      · exact .bind (parallel_scopeless trivial) fun _ => .fail _
  | join =>
      refine .bind (parallel_readVariable "sep" position) fun separator => ?_
      refine .bind (parallel_scopeless trivial) fun text => ?_
      refine .bind (parallel_extraArguments position) fun extra => ?_
      exact .bind (parallel_renderAll extra) fun _ => .pure _
  | fail => exact .fail _
  | failWith =>
      refine .bind (parallel_readVariable "message" position) fun message => ?_
      exact .bind (parallel_scopeless trivial) fun _ => .fail _
  | pair =>
      refine .bind (parallel_readVariable "X" position) fun x => ?_
      exact .bind (parallel_scopeless trivial) fun _ => .pure _
  | extras =>
      refine .bind (parallel_extraArguments position) fun extra => ?_
      exact .bind (parallel_scopeless trivial) fun _ => .pure _
  | peek =>
      refine .bind (parallel_readVariable "name" position) fun name => ?_
      refine .bind (parallel_scopeless trivial) fun text => ?_
      exact .bind (parallel_readVariable text position) fun _ => .pure _
  | location => exact .pure _
  | define =>
      refine .bind (parallel_readVariable "name" position) fun name => ?_
      refine .bind (parallel_scopeless trivial) fun text => ?_
      refine .bind (parallel_readVariable "value" position) fun value => ?_
      exact .bind (.step (.declareHostVariable trivial text (some value) none)) fun _ => .pure _
  | runScript =>
      refine .bind (parallel_readVariable "text" position) fun text => ?_
      refine .bind (parallel_scopeless trivial) fun text => ?_
      split
      next script _ => exact hexecute script
      next => exact .fail _
  | push =>
      refine .bind (parallel_readVariable "list" position) fun list => ?_
      refine .bind (parallel_readVariable "value" position) fun value => ?_
      refine .bind (parallel_expectList list _ _) fun id => ?_
      exact .bind (parallel_scopeless trivial) fun _ => .pure _
  | clear =>
      refine .bind (parallel_readVariable "list" position) fun list => ?_
      cases list with
      | list id => exact .bind (parallel_scopeless trivial) fun _ => .pure _
      | _ => exact .pure _
  | kind => exact .bind (parallel_readVariable "x" position) fun _ => .pure _
  | dup => exact .bind (parallel_readVariable "a" position) fun _ => .pure _
  | custom => exact .pure _

end Eval

/-- The functions of the host reach variables and functions only from the activation of
their call outward, and in the host scope: in any two activations they do the same, if
the scripts that they run do. -/
class HostCode.Local [HostCode] : Prop where
  parallel {s t : ScopeId} {execute : Script → Eval (Option Value)}
    (hexecute : ∀ script, (execute script).Parallel True s t (execute script))
    (position : Option Position) (f : HostFunction) :
    (HostCode.run execute s position f).Parallel True s t (HostCode.run execute t position f)

/-- The stock host is local. -/
instance HostCode.stock_local : HostCode.Local := ⟨Eval.parallel_hostFunctionRun⟩

/-! ## The evaluator -/

namespace Eval

variable {hosted : Prop} [HostCode]

/-- With `n` units of fuel every function of the evaluator does the same in all scopes. -/
structure ParallelUpTo (hosted : Prop) (n : Nat) : Prop where
  eval : ∀ s t e, (eval n s e).Parallel hosted s t (eval n t e)
  evalAll : ∀ s t es, (evalAll n s es).Parallel hosted s t (evalAll n t es)
  binary : ∀ s t op p left right,
    (binary n s op p left right).Parallel hosted s t (binary n t op p left right)
  holds : ∀ s t condition, (holds n s condition).Parallel hosted s t (holds n t condition)
  element : ∀ s t p name index,
    (element n s p name index).Parallel hosted s t (element n t p name index)
  call : ∀ s t name arguments position,
    (call n s name arguments position).Parallel hosted s t (call n t name arguments position)
  invoke : ∀ f, (f.IsHost → hosted) → ∀ s t position,
    (invoke n f s position).Parallel hosted s t (invoke n f t position)
  exec : ∀ s t statement, (exec n s statement).Parallel hosted s t (exec n t statement)
  execAll : ∀ s t ss, (execAll n s ss).Parallel hosted s t (execAll n t ss)
  whileRounds : ∀ s t condition body,
    (whileRounds n s condition body).Parallel hosted s t (whileRounds n t condition body)
  forRounds : ∀ s t condition step body,
    (forRounds n s condition step body).Parallel hosted s t (forRounds n t condition step body)
  forEachRounds : ∀ s t p item id index body,
    (forEachRounds n s p item id index body).Parallel hosted s t
      (forEachRounds n t p item id index body)
  execute : hosted → ∀ s t script, (execute n script).Parallel hosted s t (execute n script)

namespace ParallelUpTo

variable {n : Nat} (ih : ParallelUpTo hosted n)

include ih

/-- An expression does the same in two scopes, if its parts do. -/
theorem eval_succ (s t : ScopeId) (e : Expr) :
    (Eval.eval (n + 1) s e).Parallel hosted s t (Eval.eval (n + 1) t e) := by
  cases e with
  | literal p value => exact .pure _
  | var p name => exact parallel_readVariable name (some p)
  | element p name index =>
      exact .bind (ih.element s t p name index) fun _ => parallel_scopeless trivial
  | unary p op operand =>
      exact .bind (ih.eval s t operand) fun v => parallel_applyUnary op v (some p)
  | binary _ op p left right => exact ih.binary s t op p left right
  | assign _ p name value =>
      refine .bind (ih.eval s t value) fun v => ?_
      exact .bind (.step (.assignVariable name v (some p))) fun _ => .pure _
  | assignElement _ p name index value =>
      refine .bind (ih.eval s t value) fun v => ?_
      refine .bind (ih.element s t p name index) fun place => ?_
      exact .bind (parallel_scopeless trivial) fun _ => .pure _
  | conditional _ condition thenBranch elseBranch =>
      refine .bind (ih.holds s t condition) fun truth => ?_
      cases truth with
      | true => exact ih.eval s t thenBranch
      | false => exact ih.eval s t elseBranch
  | list p elements => exact .bind (ih.evalAll s t elements) fun _ => parallel_scopeless trivial
  | call p name arguments =>
      refine .bind (ih.call s t name arguments (some p)) fun result => ?_
      cases result with
      | some v => exact .pure _
      | none => exact .fail _

/-- Several expressions do the same in two scopes, one after the other. -/
theorem evalAll_succ (s t : ScopeId) (es : List Expr) :
    (Eval.evalAll (n + 1) s es).Parallel hosted s t (Eval.evalAll (n + 1) t es) := by
  cases es with
  | nil => exact .pure _
  | cons e es => exact .bind (ih.eval s t e) fun _ => .bind (ih.evalAll s t es) fun _ => .pure _

/-- An operation does the same in two scopes, decided by its first operand or not. -/
theorem binary_succ (s t : ScopeId) (op : BinaryOp) (p : Position) (left right : Expr) :
    (Eval.binary (n + 1) s op p left right).Parallel hosted s t
      (Eval.binary (n + 1) t op p left right) := by
  refine .bind (ih.eval s t left) fun a => ?_
  split
  · exact .bind (ih.eval s t right) fun _ => parallel_scopeless trivial
  · refine .bind (parallel_expectBool a _ _) fun truth => ?_
    split
    · exact .pure _
    · refine .bind (ih.eval s t right) fun b => ?_
      exact .bind (parallel_expectBool b _ _) fun _ => .pure _

/-- A condition does the same in two scopes. -/
theorem holds_succ (s t : ScopeId) (condition : Expr) :
    (Eval.holds (n + 1) s condition).Parallel hosted s t (Eval.holds (n + 1) t condition) :=
  .bind (ih.eval s t condition) fun v => parallel_expectBool v _ _

/-- An element is read from both scopes, and its index evaluated in them. -/
theorem element_succ (s t : ScopeId) (p : Position) (name : String) (index : Expr) :
    (Eval.element (n + 1) s p name index).Parallel hosted s t
      (Eval.element (n + 1) t p name index) := by
  refine .bind (parallel_readVariable name (some p)) fun v => ?_
  refine .bind (parallel_expectList v _ _) fun id => ?_
  refine .bind (ih.eval s t index) fun i => ?_
  cases i with
  | int i =>
      refine .bind (parallel_scopeless trivial) fun items => ?_
      exact .bind (parallel_ofOption _ _) fun _ => .pure _
  | _ => exact .fail _

/-- A call finds its function from both scopes, and opens the activations under them. -/
theorem call_succ (s t : ScopeId) (name : String) (arguments : List Expr)
    (position : Option Position) :
    (Eval.call (n + 1) s name arguments position).Parallel hosted s t
      (Eval.call (n + 1) t name arguments position) := by
  refine .found name position fun f hf => ?_
  split
  · refine .bind (ih.evalAll s t arguments) fun values => ?_
    refine .asCall position (.inScope fun i j => ?_)
    exact .bind (parallel_bindArguments f.signature values position)
      fun _ => ih.invoke f hf i j position
  · exact .fail _

/-- A function does the same in two activations, one of the host since the host is local. -/
theorem invoke_succ [HostCode.Local] (f : Callable) (hf : f.IsHost → hosted) (s t : ScopeId)
    (position : Option Position) :
    (Eval.invoke (n + 1) f s position).Parallel hosted s t
      (Eval.invoke (n + 1) f t position) := by
  cases f with
  | builtin f =>
      refine .bind (parallel_readVariable Builtin.param position) fun v => ?_
      exact .bind (parallel_builtinApply f v position) fun _ => .pure _
  | host f =>
      obtain rfl : hosted = True := eq_true (hf trivial)
      exact HostCode.Local.parallel (ih.execute trivial s t) position f
  | script f => exact .bind (ih.exec s t _) parallel_flowResult

/-- A statement does the same in two scopes; what it opens lies under these. -/
theorem exec_succ (s t : ScopeId) (statement : Statement) :
    (Eval.exec (n + 1) s statement).Parallel hosted s t (Eval.exec (n + 1) t statement) := by
  cases statement with
  | declare p name value =>
      refine .bind (parallel_declareVariable name none (some p)) fun _ => ?_
      cases value with
      | none => exact .pure _
      | some e =>
          refine .bind (ih.eval s t e) fun v => ?_
          exact .bind (.step (.fillVariable name v (some p))) fun _ => .pure _
  | evaluate _ e =>
      cases e with
      | call p name arguments => exact .bind (ih.call s t name arguments (some p)) fun _ => .pure _
      | _ => exact .bind (ih.eval s t _) fun _ => .pure _
  | block p statements => exact .inScope fun i j => ih.execAll i j statements
  | ifElse p condition thenBranch elseBranch =>
      refine .inScope fun i j => .bind (ih.holds i j condition) fun truth => ?_
      cases truth with
      | true => exact ih.exec i j thenBranch
      | false =>
          cases elseBranch with
          | some statement => exact ih.exec i j statement
          | none => exact .pure _
  | whileLoop p condition body => exact .inScope fun i j => ih.whileRounds i j condition body
  | forLoop p counter start condition step body =>
      refine .inScope fun i j => .bind (ih.eval i j start) fun first => ?_
      cases counter with
      | some name =>
          exact .bind (parallel_declareVariable name (some first) (some p))
            fun _ => ih.forRounds i j condition step body
      | none => exact ih.forRounds i j condition step body
  | forEach p item collection body =>
      refine .bind (ih.eval s t collection) fun v => ?_
      refine .bind (parallel_expectList v _ _) fun id => .inScope fun i j => ?_
      exact .bind (parallel_declareVariable item none (some p))
        fun _ => ih.forEachRounds i j p item id 0 body
  | returns p value =>
      cases value with
      | none => exact .pure _
      | some e => exact .bind (ih.eval s t e) fun _ => .pure _
  | breaks p => exact .pure _
  | continues p => exact .pure _

/-- Statements in order do the same in two scopes. -/
theorem execAll_succ (s t : ScopeId) (ss : List Statement) :
    (Eval.execAll (n + 1) s ss).Parallel hosted s t (Eval.execAll (n + 1) t ss) := by
  cases ss with
  | nil => exact .pure _
  | cons statement rest =>
      refine .bind (ih.exec s t statement) fun flow => ?_
      cases flow with
      | normal => exact ih.execAll s t rest
      | _ => exact .pure _

/-- The rounds of a `while` loop do the same in two scopes. -/
theorem whileRounds_succ (s t : ScopeId) (condition : Expr) (body : Statement) :
    (Eval.whileRounds (n + 1) s condition body).Parallel hosted s t
      (Eval.whileRounds (n + 1) t condition body) := by
  refine .bind (ih.holds s t condition) fun truth => ?_
  cases truth with
  | true =>
      refine .bind (ih.exec s t body) fun flow => ?_
      split
      · exact .pure _
      · exact ih.whileRounds s t condition body
  | false => exact .pure _

/-- The rounds of a `for` loop do the same in two scopes. -/
theorem forRounds_succ (s t : ScopeId) (condition step : Expr) (body : Statement) :
    (Eval.forRounds (n + 1) s condition step body).Parallel hosted s t
      (Eval.forRounds (n + 1) t condition step body) := by
  refine .bind (ih.holds s t condition) fun truth => ?_
  cases truth with
  | true =>
      refine .bind (ih.exec s t body) fun flow => ?_
      split
      · exact .pure _
      · exact .bind (ih.eval s t step) fun _ => ih.forRounds s t condition step body
  | false => exact .pure _

/-- The rounds of a `foreach` loop do the same in two scopes. -/
theorem forEachRounds_succ (s t : ScopeId) (p : Position) (item : String) (id : ListId)
    (index : Nat) (body : Statement) :
    (Eval.forEachRounds (n + 1) s p item id index body).Parallel hosted s t
      (Eval.forEachRounds (n + 1) t p item id index body) := by
  refine .bind (parallel_scopeless trivial) fun items => ?_
  split
  · exact .pure _
  next v _ =>
    refine .bind (.step (.fillVariable item v (some p))) fun _ => ?_
    refine .bind (ih.exec s t body) fun flow => ?_
    split
    · exact .pure _
    · exact ih.forEachRounds s t p item id (index + 1) body

/-- A script is run under the host scope, from wherever it is executed. -/
theorem execute_succ (hhosted : hosted) (s t : ScopeId) (script : Script) :
    (Eval.execute (n + 1) script).Parallel hosted s t (Eval.execute (n + 1) script) := by
  refine .inHost hhosted fun i j => ?_
  refine .bind (parallel_declareBuiltins Builtin.all) fun _ => ?_
  refine .bind (parallel_declareFunctions script.functions) fun _ => ?_
  exact .bind (ih.execAll i j script.statements) parallel_flowResult

end ParallelUpTo

/-- **With a local host the evaluator does the same in all scopes.**  By induction on the
fuel: a scope is handed on and never looked at. -/
theorem parallelUpTo [HostCode.Local] (hosted : Prop) (n : Nat) : ParallelUpTo hosted n := by
  induction n with
  | zero => constructor <;> intros <;> exact .starve
  | succ n ih =>
      exact ⟨ih.eval_succ, ih.evalAll_succ, ih.binary_succ, ih.holds_succ, ih.element_succ,
        ih.call_succ, ih.invoke_succ, ih.exec_succ, ih.execAll_succ, ih.whileRounds_succ,
        ih.forRounds_succ, ih.forEachRounds_succ, ih.execute_succ⟩

end Eval

/-! ## Related machines -/

/-- Two runs have ended in the same way, on related machines. -/
def EndAlike {α : Type} (R : Machine → Machine → Prop) (r r' : Outcome Fault α × Machine) : Prop :=
  r.1 = r'.1 ∧ R r.2 r'.2

/-- Two steps in scopes that are there, or both are not, end alike if what they do does. -/
theorem Step.inArena_endAlike {α : Type} {R : Machine → Machine → Prop} {s t : ScopeId}
    {m m' : Machine} (hsize : s < m.scopes.size ↔ t < m'.scopes.size) (h : R m m')
    (position : Option Position) {body body' : Run Machine Fault α}
    (hbody : EndAlike R (body m) (body' m')) :
    EndAlike R (inArena s position body m) (inArena t position body' m') := by
  unfold inArena
  by_cases hs : s < m.scopes.size
  · rw [if_pos hs, if_pos (hsize.mp hs)]
    exact hbody
  · rw [if_neg hs, if_neg fun ht => hs (hsize.mpr ht)]
    exact ⟨rfl, h⟩

/-- A relation between machines that two parallel runs preserve, with the scopes in which
they are: parallel steps give the same and lead to related machines, and so do opening and
closing scopes and calls.  Where `hosted` does not hold, no function of the host is found. -/
structure Simulation (hosted : Prop) (R : ScopeId → ScopeId → Machine → Machine → Prop) :
    Prop where
  step : ∀ {s t m m'} {α : Type} {a b : Step α}, R s t m m' → a.Parallel hosted s t b →
    EndAlike (R s t) (a.perform m) (b.perform m')
  found : ∀ {s t m m' name position f}, R s t m m' →
    ((Step.findFunction s name position).perform m).1 = .done f → f.IsHost → hosted
  pushScope : ∀ {s t m m'}, R s t m m' →
    R m.scopes.size m'.scopes.size (m.pushScope s) (m'.pushScope t)
  pushHost : hosted → ∀ {s t m m'}, R s t m m' →
    R m.scopes.size m'.scopes.size (m.pushScope Arena.host) (m'.pushScope Arena.host)
  keepScopes : ∀ {s t i j m m' after after'}, R s t m m' → R i j after after' →
    (after.keepScopes m.scopes.size).frame = m.frame →
    (after'.keepScopes m'.scopes.size).frame = m'.frame →
    R s t (after.keepScopes m.scopes.size) (after'.keepScopes m'.scopes.size)
  calls : ∀ {s t m m'}, R s t m m' →
    m.callDepth = m'.callDepth ∧ m.maxCallDepth = m'.maxCallDepth
  enterCall : ∀ {s t m m'}, R s t m m' → R s t m.enterCall m'.enterCall
  leaveCall : ∀ {s t m m'}, R s t m m' → R s t m.leaveCall m'.leaveCall

namespace Simulation

variable {α β : Type} {hosted : Prop} {R : ScopeId → ScopeId → Machine → Machine → Prop}
  {s t : ScopeId} {m m' : Machine}

/-- Two sequences end alike if their first parts do, and after a value their second. -/
theorem run_bind {x y : Eval α} {f g : α → Eval β} (hx : EndAlike (R s t) (x.run m) (y.run m'))
    (hf : ∀ a n n', x.run m = (.done a, n) → R s t n n' →
      EndAlike (R s t) ((f a).run n) ((g a).run n')) :
    EndAlike (R s t) ((Eval.bind x f).run m) ((Eval.bind y g).run m') := by
  simp only [Eval.run, Run.bind]
  rcases hrun : x.run m with ⟨outcome, n⟩
  rcases hrun' : y.run m' with ⟨outcome', n'⟩
  rw [hrun, hrun'] at hx
  obtain ⟨rfl, hrelated⟩ := hx
  cases outcome with
  | done a => exact hf a n n' hrun hrelated
  | failed fault => exact ⟨rfl, hrelated⟩
  | outOfFuel => exact ⟨rfl, hrelated⟩

/-- Two computations in new scopes end alike if their bodies do. -/
theorem run_inScope (hR : Simulation hosted R) (h : R s t m m') {parent parent' : ScopeId}
    {f g : ScopeId → Eval α}
    (hbody : EndAlike (R m.scopes.size m'.scopes.size)
      ((f m.scopes.size).run (m.pushScope parent))
      ((g m'.scopes.size).run (m'.pushScope parent'))) :
    EndAlike (R s t) ((Eval.inScope parent f).run m) ((Eval.inScope parent' g).run m') := by
  have hframe := Eval.run_frame (.inScope parent f) m
  have hframe' := Eval.run_frame (.inScope parent' g) m'
  exact ⟨hbody.1, hR.keepScopes h hbody.2 hframe hframe'⟩

/-- **Parallel computations on related machines end alike and leave related machines.** -/
theorem run (hR : Simulation hosted R) {x y : Eval α} (hxy : x.Parallel hosted s t y)
    (h : R s t m m') : EndAlike (R s t) (x.run m) (y.run m') := by
  induction hxy generalizing m m' with
  | pure a => exact ⟨rfl, h⟩
  | fail fault => exact ⟨rfl, h⟩
  | starve => exact ⟨rfl, h⟩
  | step hab => exact hR.step h hab
  | bind hx hf ihx ihf => exact run_bind (ihx h) fun a n n' _ hn => ihf a hn
  | found name position hf ihf =>
      -- the case of `bind` does not do, since what is found has to be known
      refine run_bind (hR.step h (.findFunction name position)) ?_
      intro f n n' hrun hn
      have hdone : ((Step.findFunction _ name position).perform m).1 = .done f :=
        congrArg Prod.fst hrun
      exact ihf f (hR.found h hdone) hn
  | inScope hf ihf => exact hR.run_inScope h (ihf _ _ (hR.pushScope h))
  | inHost hhosted hf ihf => exact hR.run_inScope h (ihf _ _ (hR.pushHost hhosted h))
  | asCall position hx ihx =>
      obtain ⟨hdepth, hmax⟩ := hR.calls h
      obtain ⟨houtcome, hrelated⟩ := ihx (hR.enterCall h)
      simp only [Eval.run, ← hdepth, ← hmax]
      split
      · have hafter := (hR.calls hrelated).1
        rw [← hafter, houtcome]
        split
        · exact ⟨rfl, hrelated⟩
        · exact ⟨rfl, hR.leaveCall hrelated⟩
      · exact ⟨rfl, h⟩

end Simulation

end Scriptlet
