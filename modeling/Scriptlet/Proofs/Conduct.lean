import Scriptlet.Proofs.Access

/-!
# What code does by itself, and what it needs the host for

Running code declares variables in the scope that it was told to declare in and in
scopes that it has opened itself.  Functions it declares only in the scope of a script, which
is opened under the host scope.  It changes lists by writing elements.  Whatever
else can be done to scopes and lists, only functions of the host can do: to
declare a variable in the host scope, to make a list longer and to empty it.

`Eval.Conforms` states this of a computation, for a set of functions that the host
has `lent` and the scopes that are the code's `own`.  It is a property of the
tree of steps, proved along the fuel (`Eval.conformsUpTo`).  Run on a machine that
knows no other functions of the host, such a computation takes conforming steps
only (`Eval.Conforms.lends_taken`).  What such steps leave alone, the run leaves alone;
for a single scope this is `Eval.scope_of_taken`.
-/

namespace Scriptlet

/-- The function is none of the host's, or one that the host has lent. -/
def Callable.LentIn (lent : HostFunction → Prop) : Callable → Prop
  | .host f => lent f
  | _ => True

/-- The machine knows no functions of the host but lent ones. -/
def Machine.Lends (lent : HostFunction → Prop) (m : Machine) : Prop :=
  ∀ f, m.Knows f → f.LentIn lent

/-- Only the functions of the host have to be looked at. -/
theorem Machine.lends_iff {lent : HostFunction → Prop} {m : Machine} :
    m.Lends lent ↔ ∀ g, m.Knows (.host g) → lent g := by
  constructor
  · exact fun h g hg => h (.host g) hg
  · intro h f hf
    cases f with
    | host g => exact h g hf
    | _ => trivial

/-- The scopes in which code declares variables, and those in which it declares functions. -/
structure Territory where
  vars : ScopeId → Prop
  functions : ScopeId → Prop

namespace Territory

/-- Variables may be declared in these scopes, and functions nowhere. -/
def ofVariables (own : ScopeId → Prop) : Territory := ⟨own, fun _ => False⟩

/-- What belongs to code in a scope that was opened for it: functions only if it is the scope
of a script. -/
def opened (parent inner : ScopeId) : Territory :=
  ⟨(· = inner), fun i => i = inner ∧ parent = Arena.host⟩

/-- Under another scope than the host's a new scope is for variables only. -/
theorem opened_of_ne {parent : ScopeId} (h : parent ≠ Arena.host) (inner : ScopeId) :
    opened parent inner = ofVariables (· = inner) := by
  simp only [opened, ofVariables, h, and_false]

/-- With the scopes from a place on. -/
def andFrom (own : Territory) (count : Nat) : Territory :=
  ⟨fun i => own.vars i ∨ count ≤ i, fun i => own.functions i ∨ count ≤ i⟩

end Territory

namespace Step

variable {α : Type}

/-- What code may do that declares in its `own` scopes. -/
def Conforms (lent : HostFunction → Prop) (own : Territory) : Step α → Prop
  | .declareVariable scope _ _ _ => own.vars scope ∨ lent .define
  | .declareFunction scope f _ => own.functions scope ∧ f.LentIn lent
  | .appendItem _ _ _ => lent .push
  | .clearList _ _ => lent .clear
  | _ => True

/-- What a step can give where only lent functions of the host are known. -/
def MayGive (lent : HostFunction → Prop) : Step α → α → Prop
  | .findFunction _ _ _, f => f.LentIn lent
  | _, _ => True

/-- What conforms for few scopes conforms for more. -/
theorem Conforms.mono {lent : HostFunction → Prop} {own own' : Territory} {s : Step α}
    (hs : s.Conforms lent own) (hvariables : ∀ i, own.vars i → own'.vars i)
    (hfunctions : ∀ i, own.functions i → own'.functions i) : s.Conforms lent own' := by
  cases s with
  | declareVariable scope name value position => exact hs.imp_left (hvariables scope)
  | declareFunction scope f position => exact ⟨hfunctions scope hs.1, hs.2⟩
  | appendItem id v position => exact hs
  | clearList id position => exact hs
  | _ => trivial

end Step

namespace Eval

/-- What a computation can give where only lent functions of the host are known. -/
def MayGive {α : Type} (lent : HostFunction → Prop) : Eval α → α → Prop
  | .step s, a => s.MayGive lent a
  | _, _ => True

/-- The computation declares in `own` scopes and in those that it opens, and does
with lists what code can do, as long as only lent functions of the host are
known. -/
def Conforms {α : Type} (lent : HostFunction → Prop) : Eval α → Territory → Prop
  | .pure _, _ => True
  | .bind x f, own => x.Conforms lent own ∧ ∀ a, x.MayGive lent a → (f a).Conforms lent own
  | .fail _, _ => True
  | .starve, _ => True
  | .step s, own => s.Conforms lent own
  | .inScope parent body, _ => ∀ inner, (body inner).Conforms lent (.opened parent inner)
  | .asCall _ body, own => body.Conforms lent own

variable {α β : Type} {lent : HostFunction → Prop} {own : Territory}

/-! ## What needs no fuel -/

theorem conforms_ofOption (fault : Fault) (a? : Option α) :
    (ofOption fault a?).Conforms lent own := by
  cases a? <;> trivial

theorem conforms_applyUnary (op : UnaryOp) (v : Value) (position : Option Position) :
    (applyUnary op v position).Conforms lent own := by
  unfold applyUnary
  split <;> trivial

theorem conforms_expectBool (v : Value) (cause : Fault.Cause) (position : Option Position) :
    (expectBool v cause position).Conforms lent own := by
  unfold expectBool
  split <;> trivial

theorem conforms_expectList (v : Value) (cause : Fault.Cause) (position : Option Position) :
    (expectList v cause position).Conforms lent own := by
  unfold expectList
  split <;> trivial

theorem conforms_renderAll (values : List Value) : (renderAll values).Conforms lent own := by
  induction values with
  | nil => trivial
  | cons v vs ih => exact ⟨trivial, fun _ _ => ⟨ih, fun _ _ => trivial⟩⟩

theorem conforms_flowResult (flow : Flow) : flow.result.Conforms lent own := by
  cases flow <;> trivial

/-- Parameters are declared in the activation scope, which must be an own one. -/
theorem conforms_bindParams {activation : ScopeId} (hown : own.vars activation)
    (position : Option Position) (params : List String) (values : List Value) :
    (bindParams activation position params values).Conforms lent own := by
  induction params generalizing values with
  | nil => trivial
  | cons param params ih =>
      cases values with
      | nil => trivial
      | cons value values => exact ⟨.inl hown, fun _ _ => ih values⟩

theorem conforms_bindArguments {activation : ScopeId} (hown : own.vars activation)
    (s : Signature) (values : List Value) (position : Option Position) :
    (bindArguments s values activation position).Conforms lent own := by
  refine ⟨conforms_bindParams hown position s.params values, fun _ _ => ?_⟩
  dsimp only
  split
  · exact ⟨trivial, fun _ _ => .inl hown⟩
  · trivial

/-- Built-in functions are declared in a scope that must be an own one. -/
theorem conforms_declareBuiltins {scope : ScopeId} (hown : own.functions scope)
    (fs : List Builtin) :
    (declareBuiltins scope fs).Conforms lent own := by
  induction fs with
  | nil => trivial
  | cons f fs ih => exact ⟨⟨hown, trivial⟩, fun _ _ => ih⟩

/-- Functions of a script are declared in a scope that must be an own one. -/
theorem conforms_declareFunctions {scope : ScopeId} (hown : own.functions scope)
    (fs : List FunctionDef) :
    (declareFunctions scope fs).Conforms lent own := by
  induction fs with
  | nil => trivial
  | cons f fs ih => exact ⟨⟨hown, trivial⟩, fun _ _ => ih⟩

/-- A built-in function declares nothing and changes no list. -/
theorem conforms_builtinApply (f : Builtin) (v : Value) (position : Option Position) :
    (f.apply v position).Conforms lent own := by
  cases f with
  | toText => cases v <;> first | trivial | exact ⟨trivial, fun _ _ => trivial⟩
  | toInt =>
      cases v with
      | double x => exact ⟨conforms_ofOption _ _, fun _ _ => trivial⟩
      | _ => trivial
  | countOf =>
      exact ⟨conforms_expectList v _ _, fun _ _ => ⟨trivial, fun _ _ =>
        ⟨conforms_ofOption _ _, fun _ _ => trivial⟩⟩⟩

/-- A lent function of the host conforms if the scripts that it runs do. -/
theorem conforms_hostFunctionRun {execute : Script → Eval (Option Value)}
    (hexecute : ∀ script, (execute script).Conforms lent own) (activation : ScopeId)
    (position : Option Position) {f : HostFunction} (hf : lent f) :
    (f.run execute activation position).Conforms lent own := by
  cases f with
  | print =>
      exact ⟨trivial, fun _ _ => ⟨conforms_renderAll _, fun _ _ => ⟨trivial, fun _ _ => trivial⟩⟩⟩
  | assert =>
      refine ⟨trivial, fun condition _ => ?_⟩
      dsimp only
      split
      · trivial
      · exact ⟨trivial, fun _ _ => trivial⟩
  | join =>
      exact ⟨trivial, fun _ _ => ⟨trivial, fun _ _ => ⟨trivial, fun _ _ =>
        ⟨conforms_renderAll _, fun _ _ => trivial⟩⟩⟩⟩
  | fail | location | custom => trivial
  | failWith | pair | extras =>
      exact ⟨trivial, fun _ _ => ⟨trivial, fun _ _ => trivial⟩⟩
  | peek => exact ⟨trivial, fun _ _ => ⟨trivial, fun _ _ => ⟨trivial, fun _ _ => trivial⟩⟩⟩
  | define =>
      exact ⟨trivial, fun _ _ => ⟨trivial, fun _ _ => ⟨trivial, fun _ _ =>
        ⟨.inr hf, fun _ _ => trivial⟩⟩⟩⟩
  | runScript =>
      refine ⟨trivial, fun _ _ => ⟨trivial, fun text _ => ?_⟩⟩
      dsimp only
      split
      next script _ => exact hexecute script
      next => trivial
  | push =>
      exact ⟨trivial, fun list _ => ⟨trivial, fun _ _ => ⟨conforms_expectList list _ _, fun _ _ =>
        ⟨hf, fun _ _ => trivial⟩⟩⟩⟩
  | clear =>
      refine ⟨trivial, fun list _ => ?_⟩
      cases list with
      | list id => exact ⟨hf, fun _ _ => trivial⟩
      | _ => trivial
  | kind | dup => exact ⟨trivial, fun _ _ => trivial⟩

/-! ## The evaluator -/

end Eval

/-- The statement declares a variable in the scope that it is executed in. -/
def Statement.IsDeclaration : Statement → Prop
  | .declare _ _ _ => True
  | _ => False

namespace Eval

/-- With `n` units of fuel every function of the evaluator conforms.  Only
declarations, and code that runs in a scope opened for it, declare anything in the
scope that they are given. -/
structure ConformsUpTo (lent : HostFunction → Prop) (n : Nat) : Prop where
  eval : ∀ own scope e, (eval n scope e).Conforms lent own
  evalAll : ∀ own scope es, (evalAll n scope es).Conforms lent own
  binary : ∀ own scope op p left right, (binary n scope op p left right).Conforms lent own
  holds : ∀ own scope condition, (holds n scope condition).Conforms lent own
  element : ∀ own scope p name index, (element n scope p name index).Conforms lent own
  call : ∀ own scope name arguments position,
    (call n scope name arguments position).Conforms lent own
  invoke : ∀ own f activation position, f.LentIn lent →
    (invoke n f activation position).Conforms lent own
  exec : ∀ own scope s, (s.IsDeclaration → own.vars scope) →
    (exec n scope s).Conforms lent own
  execAll : ∀ own scope ss, (∀ s ∈ ss, s.IsDeclaration → own.vars scope) →
    (execAll n scope ss).Conforms lent own
  whileRounds : ∀ own scope condition body, own.vars scope →
    (whileRounds n scope condition body).Conforms lent own
  forRounds : ∀ own scope condition step body, own.vars scope →
    (forRounds n scope condition step body).Conforms lent own
  forEachRounds : ∀ own scope p item id index body, own.vars scope →
    (forEachRounds n scope p item id index body).Conforms lent own
  execute : ∀ own script, (execute n script).Conforms lent own

namespace ConformsUpTo

variable {n : Nat} (ih : ConformsUpTo lent n)

include ih

/-- An expression declares nothing itself, whatever scopes are its own. -/
theorem eval_succ (scope : ScopeId) (e : Expr) :
    (Eval.eval (n + 1) scope e).Conforms lent own := by
  cases e with
  | literal p value => trivial
  | var p name => trivial
  | element p name index => exact ⟨ih.element own scope p name index, fun _ _ => trivial⟩
  | unary p op operand =>
      exact ⟨ih.eval own scope operand, fun v _ => conforms_applyUnary op v (some p)⟩
  | binary _ op p left right => exact ih.binary own scope op p left right
  | assign _ p name value =>
      exact ⟨ih.eval own scope value, fun _ _ => ⟨trivial, fun _ _ => trivial⟩⟩
  | assignElement _ p name index value =>
      exact ⟨ih.eval own scope value, fun _ _ =>
        ⟨ih.element own scope p name index, fun _ _ => ⟨trivial, fun _ _ => trivial⟩⟩⟩
  | conditional _ condition thenBranch elseBranch =>
      refine ⟨ih.holds own scope condition, fun truth _ => ?_⟩
      cases truth with
      | true => exact ih.eval own scope thenBranch
      | false => exact ih.eval own scope elseBranch
  | list p elements => exact ⟨ih.evalAll own scope elements, fun _ _ => trivial⟩
  | call p name arguments =>
      refine ⟨ih.call own scope name arguments (some p), fun result _ => ?_⟩
      cases result <;> trivial

theorem evalAll_succ (scope : ScopeId) (es : List Expr) :
    (Eval.evalAll (n + 1) scope es).Conforms lent own := by
  cases es with
  | nil => trivial
  | cons e es =>
      exact ⟨ih.eval own scope e, fun _ _ => ⟨ih.evalAll own scope es, fun _ _ => trivial⟩⟩

theorem binary_succ (scope : ScopeId) (op : BinaryOp) (p : Position) (left right : Expr) :
    (Eval.binary (n + 1) scope op p left right).Conforms lent own := by
  refine ⟨ih.eval own scope left, fun a _ => ?_⟩
  dsimp only
  split
  · exact ⟨ih.eval own scope right, fun _ _ => trivial⟩
  · refine ⟨conforms_expectBool a _ _, fun truth _ => ?_⟩
    dsimp only
    split
    · trivial
    · exact ⟨ih.eval own scope right, fun b _ => ⟨conforms_expectBool b _ _, fun _ _ => trivial⟩⟩

theorem holds_succ (scope : ScopeId) (condition : Expr) :
    (Eval.holds (n + 1) scope condition).Conforms lent own :=
  ⟨ih.eval own scope condition, fun v _ => conforms_expectBool v _ _⟩

theorem element_succ (scope : ScopeId) (p : Position) (name : String) (index : Expr) :
    (Eval.element (n + 1) scope p name index).Conforms lent own := by
  refine ⟨trivial, fun v _ => ⟨conforms_expectList v _ _, fun id _ =>
    ⟨ih.eval own scope index, fun i _ => ?_⟩⟩⟩
  cases i with
  | int i => exact ⟨trivial, fun _ _ => ⟨conforms_ofOption _ _, fun _ _ => trivial⟩⟩
  | _ => trivial

/-- A call declares its arguments in the activation scope, which it opens. -/
theorem call_succ (scope : ScopeId) (name : String) (arguments : List Expr)
    (position : Option Position) :
    (Eval.call (n + 1) scope name arguments position).Conforms lent own := by
  -- the function was found, so it is lent if it is one of the host's
  refine ⟨trivial, fun f hf => ?_⟩
  dsimp only
  split
  · refine ⟨ih.evalAll own scope arguments, fun values _ => ?_⟩
    exact fun activation => ⟨conforms_bindArguments (by rfl) f.signature values position,
      fun _ _ => ih.invoke _ f activation position hf⟩
  · trivial

/-- A function may be called if the host has lent it or it is none of the host's. -/
theorem invoke_succ {f : Callable} (hf : f.LentIn lent) (activation : ScopeId)
    (position : Option Position) :
    (Eval.invoke (n + 1) f activation position).Conforms lent own := by
  cases f with
  | builtin f =>
      exact ⟨trivial, fun v _ => ⟨conforms_builtinApply f v position, fun _ _ => trivial⟩⟩
  | host f => exact conforms_hostFunctionRun (ih.execute own) activation position hf
  | script f =>
      refine ⟨ih.exec own activation _ ?_, fun flow _ => conforms_flowResult flow⟩
      intro hdeclares
      cases hdeclares

/-- A statement declares in its own scope only if it is a declaration. -/
theorem exec_succ (scope : ScopeId) (s : Statement)
    (hown : s.IsDeclaration → own.vars scope) :
    (Eval.exec (n + 1) scope s).Conforms lent own := by
  cases s with
  | declare p name value =>
      refine ⟨.inl (hown trivial), fun _ _ => ?_⟩
      cases value with
      | none => trivial
      | some e => exact ⟨ih.eval own scope e, fun _ _ => ⟨trivial, fun _ _ => trivial⟩⟩
  | evaluate _ e =>
      cases e with
      | call p name arguments => exact ⟨ih.call own scope name arguments _, fun _ _ => trivial⟩
      | _ => exact ⟨ih.eval own scope _, fun _ _ => trivial⟩
  | block p statements => exact fun inner => ih.execAll _ inner statements fun _ _ _ => rfl
  | ifElse p condition thenBranch elseBranch =>
      intro inner
      refine ⟨ih.holds _ inner condition, fun truth _ => ?_⟩
      cases truth with
      | true => exact ih.exec _ inner thenBranch fun _ => rfl
      | false =>
          cases elseBranch with
          | some s => exact ih.exec _ inner s fun _ => rfl
          | none => trivial
  | whileLoop p condition body => exact fun inner => ih.whileRounds _ inner condition body rfl
  | forLoop p counter start condition step body =>
      intro inner
      refine ⟨ih.eval _ inner start, fun first _ => ?_⟩
      have hrounds := ih.forRounds (.opened scope inner) inner condition step body rfl
      cases counter with
      | some name => exact ⟨.inl rfl, fun _ _ => hrounds⟩
      | none => exact hrounds
  | forEach p item collection body =>
      refine ⟨ih.eval own scope collection, fun v _ => ⟨conforms_expectList v _ _, fun id _ => ?_⟩⟩
      exact fun inner => ⟨.inl rfl, fun _ _ => ih.forEachRounds _ inner p item id 0 body rfl⟩
  | returns p value =>
      cases value with
      | none => trivial
      | some e => exact ⟨ih.eval own scope e, fun _ _ => trivial⟩
  | breaks p => trivial
  | continues p => trivial

/-- Statements in order declare in their scope what the declarations among them do. -/
theorem execAll_succ (scope : ScopeId) (ss : List Statement)
    (hown : ∀ s ∈ ss, s.IsDeclaration → own.vars scope) :
    (Eval.execAll (n + 1) scope ss).Conforms lent own := by
  cases ss with
  | nil => trivial
  | cons s rest =>
      obtain ⟨hfirst, hrest⟩ := List.forall_mem_cons.mp hown
      refine ⟨ih.exec own scope s hfirst, fun flow _ => ?_⟩
      cases flow with
      | normal => exact ih.execAll own scope rest hrest
      | _ => trivial

/-- The body of a `while` loop may be a declaration, so the scope of the loop must be an own
one. -/
theorem whileRounds_succ {scope : ScopeId} (hown : own.vars scope) (condition : Expr)
    (body : Statement) : (Eval.whileRounds (n + 1) scope condition body).Conforms lent own := by
  refine ⟨ih.holds own scope condition, fun truth _ => ?_⟩
  cases truth with
  | false => trivial
  | true =>
      refine ⟨ih.exec own scope body fun _ => hown, fun flow _ => ?_⟩
      dsimp only
      split
      · trivial
      · exact ih.whileRounds own scope condition body hown

/-- The body of a `for` loop may be a declaration, so the scope of the loop must be an own
one. -/
theorem forRounds_succ {scope : ScopeId} (hown : own.vars scope) (condition step : Expr)
    (body : Statement) : (Eval.forRounds (n + 1) scope condition step body).Conforms lent own := by
  refine ⟨ih.holds own scope condition, fun truth _ => ?_⟩
  cases truth with
  | false => trivial
  | true =>
      refine ⟨ih.exec own scope body fun _ => hown, fun flow _ => ?_⟩
      dsimp only
      split
      · trivial
      · exact ⟨ih.eval own scope step, fun _ _ => ih.forRounds own scope condition step body hown⟩

/-- The body of a `foreach` loop may be a declaration, so the scope of the loop must be an
own one. -/
theorem forEachRounds_succ {scope : ScopeId} (hown : own.vars scope) (p : Position)
    (item : String) (id : ListId) (index : Nat) (body : Statement) :
    (Eval.forEachRounds (n + 1) scope p item id index body).Conforms lent own := by
  refine ⟨trivial, fun items _ => ?_⟩
  dsimp only
  split
  · trivial
  · refine ⟨trivial, fun _ _ => ⟨ih.exec own scope body fun _ => hown, fun flow _ => ?_⟩⟩
    dsimp only
    split
    · trivial
    · exact ih.forEachRounds own scope p item id (index + 1) body hown

/-- A script declares its functions and variables in the scope that it opens. -/
theorem execute_succ (script : Script) : (Eval.execute (n + 1) script).Conforms lent own := by
  intro scope
  have hown : (Territory.opened Arena.host scope).functions scope := ⟨rfl, rfl⟩
  refine ⟨conforms_declareBuiltins hown Builtin.all, fun _ _ =>
    ⟨conforms_declareFunctions hown script.functions, fun _ _ => ?_⟩⟩
  exact ⟨ih.execAll _ scope script.statements fun _ _ _ => rfl, fun flow _ =>
    conforms_flowResult flow⟩

end ConformsUpTo

/-- **The evaluator does by itself what code can do, and no more.** -/
theorem conformsUpTo (lent : HostFunction → Prop) (n : Nat) : ConformsUpTo lent n := by
  induction n with
  | zero => constructor <;> intros <;> trivial
  | succ n ih =>
      exact {
        eval := fun _ => ih.eval_succ
        evalAll := fun _ => ih.evalAll_succ
        binary := fun _ => ih.binary_succ
        holds := fun _ => ih.holds_succ
        element := fun _ => ih.element_succ
        call := fun _ => ih.call_succ
        invoke := fun _ _ activation position hf => ih.invoke_succ hf activation position
        exec := fun _ => ih.exec_succ
        execAll := fun _ => ih.execAll_succ
        whileRounds := fun _ _ condition body hown => ih.whileRounds_succ hown condition body
        forRounds := fun _ _ condition step body hown => ih.forRounds_succ hown condition step body
        forEachRounds := fun _ _ p item id index body hown =>
          ih.forEachRounds_succ hown p item id index body
        execute := fun _ => ih.execute_succ }

end Eval

/-! ## The steps of a run -/

namespace Machine.Lends

variable {m : Machine} {lent : HostFunction → Prop}

/-- A new scope brings no function of the host. -/
theorem pushScope (hm : m.Lends lent) (parent : ScopeId) : (m.pushScope parent).Lends lent :=
  fun f hf => hm f (knows_of_pushScope hf)

/-- Taking scopes away brings no function of the host. -/
theorem keepScopes (hm : m.Lends lent) (count : Nat) : (m.keepScopes count).Lends lent :=
  fun f hf => hm f (knows_of_keepScopes hf)

end Machine.Lends

namespace Step

variable {α : Type} {lent : HostFunction → Prop} {own : Territory} {s : Step α}
  {m m' : Machine}

/-- The search for a function that is in sight. -/
theorem perform_findFunction_of_some {scope : ScopeId} {name : String} {f : Callable}
    (hscope : scope < m.scopes.size) (hfound : m.scopes.findFunction? scope name = some f)
    (position : Option Position) :
    (findFunction scope name position).perform m = (.done f, m) := by
  simp only [perform, inArena, if_pos hscope, hfound]

/-- The search for a function that is not in sight. -/
theorem perform_findFunction_of_none {scope : ScopeId} {name : String}
    (hscope : scope < m.scopes.size) (hfound : m.scopes.findFunction? scope name = none)
    (position : Option Position) :
    (findFunction scope name position).perform m =
      (.failed ⟨.functionNotDefined name, position⟩, m) := by
  simp only [perform, inArena, if_pos hscope, hfound]

/-- A function that a step gives was found, and the machine stays as it was. -/
theorem eq_of_perform_findFunction {scope : ScopeId} {name : String} {position : Option Position}
    {f : Callable} (h : (findFunction scope name position).perform m = (.done f, m')) :
    m.scopes.findFunction? scope name = some f ∧ m' = m := by
  simp only [perform, inArena] at h
  split at h
  · split at h
    next g hg =>
      cases h
      exact ⟨hg, rfl⟩
    next => cases h
  · cases h

/-- What a step gives on such a machine is what it can give there. -/
theorem mayGive_of_perform {a : α} (hm : m.Lends lent) (h : s.perform m = (.done a, m')) :
    s.MayGive lent a := by
  cases s with
  | findFunction scope name position =>
      exact hm a (Machine.knows_of_findFunction? (eq_of_perform_findFunction h).1)
  | _ => trivial

/-- A conforming step makes no function of the host known that is not lent. -/
theorem Change.lends (h : s.Change m m') (hs : s.Conforms lent own) (hm : m.Lends lent) :
    m'.Lends lent := by
  intro f hf
  rcases h.knows hf with hknown | hbrought
  · exact hm f hknown
  · cases s with
    | declareFunction scope g position =>
        cases hbrought
        exact hs.2
    | _ => cases hbrought

end Step

namespace Eval

variable {α β : Type} {lent : HostFunction → Prop} {own : Territory} {m : Machine}

/-- What a computation gives on such a machine is what it can give there. -/
theorem mayGive_of_run {x : Eval α} {a : α} {m' : Machine} (hm : m.Lends lent)
    (h : x.run m = (.done a, m')) : x.MayGive lent a := by
  cases x with
  | step s => exact s.mayGive_of_perform hm h
  | _ => trivial

/-- **A run of conforming code takes conforming steps**, on machines that know no other
functions of the host.  The scopes that are opened on the way are its own. -/
theorem Conforms.lends_taken {x : Eval α} (hx : x.Conforms lent own) (hm : m.Lends lent) :
    (x.run m).2.Lends lent ∧ ∀ t ∈ x.taken m, t.machine.Lends lent ∧
      t.step.Conforms lent (own.andFrom m.scopes.size) := by
  induction x generalizing own m with
  | pure a => exact ⟨hm, by simp [taken]⟩
  | bind x f ihx ihf =>
      obtain ⟨hlends, htaken⟩ := ihx hx.1 hm
      have hrest : ∀ a m', x.run m = (.done a, m') → ((f a).run m').2.Lends lent ∧
          ∀ t ∈ (f a).taken m', t.machine.Lends lent ∧
            t.step.Conforms lent (own.andFrom m.scopes.size) := by
        intro a m' hrun
        have hsize := (run_later x m).size_eq
        rw [hrun] at hlends hsize
        rw [← hsize]
        exact ihf a (hx.2 a (mayGive_of_run hm hrun)) hlends
      constructor
      · simp only [run, Run.bind]
        rcases hrun : x.run m with ⟨a | e | _, m'⟩
        · exact (hrest a m' hrun).1
        · rwa [hrun] at hlends
        · rwa [hrun] at hlends
      · intro t ht
        rcases mem_taken_bind.mp ht with ht | ⟨a, m', hrun, ht⟩
        · exact htaken t ht
        · exact (hrest a m' hrun).2 t ht
  | fail fault => exact ⟨hm, by simp [taken]⟩
  | starve => exact ⟨hm, by simp [taken]⟩
  | step s =>
      refine ⟨(s.perform_change m).lends hx hm, ?_⟩
      intro t ht
      cases List.mem_singleton.mp ht
      exact ⟨hm, Step.Conforms.mono hx (fun _ => .inl) fun _ => .inl⟩
  | inScope parent body ih =>
      obtain ⟨hlends, htaken⟩ := ih m.scopes.size (hx m.scopes.size) (hm.pushScope parent)
      refine ⟨hlends.keepScopes m.scopes.size, fun t ht => ?_⟩
      obtain ⟨hmachine, hstep⟩ := htaken t ht
      have hsize : (m.pushScope parent).scopes.size = m.scopes.size + 1 := by
        simp [Machine.pushScope]
      rw [hsize] at hstep
      refine ⟨hmachine, hstep.mono ?_ ?_⟩
      · rintro i (rfl | hlater)
        · exact .inr (Nat.le_refl _)
        · exact .inr (Nat.le_of_succ_le hlater)
      · rintro i (⟨rfl, _⟩ | hlater)
        · exact .inr (Nat.le_refl _)
        · exact .inr (Nat.le_of_succ_le hlater)
  | asCall position body ih =>
      have hbody := ih hx (m := m.enterCall) hm
      by_cases hlt : m.callDepth < m.maxCallDepth
      · simp only [run, taken, if_pos hlt]
        refine ⟨?_, hbody.2⟩
        split
        · exact hbody.1
        · exact hbody.1
      · simp only [run, taken, if_neg hlt]
        exact ⟨hm, fun t ht => absurd ht List.not_mem_nil⟩

/-- **What every step keeps of a scope, a run keeps.**  The scope was there before, so it
is there all along; it is only the steps that can change it. -/
theorem scope_of_taken {I : Option Scope → Prop} (x : Eval α) {i : ScopeId}
    (hi : i < m.scopes.size) (hm : I m.scopes[i]?)
    (hstep : ∀ t ∈ x.taken m, i < t.machine.scopes.size → I t.machine.scopes[i]? →
      I (t.step.perform t.machine).2.scopes[i]?) :
    I (x.run m).2.scopes[i]? ∧
      ∀ t ∈ x.taken m, i < t.machine.scopes.size ∧ I t.machine.scopes[i]? := by
  induction x generalizing m with
  | pure a => exact ⟨hm, by simp [taken]⟩
  | bind x f ihx ihf =>
      obtain ⟨hend, htaken⟩ := ihx hi hm fun t ht => hstep t (mem_taken_bind.mpr (.inl ht))
      have hrest : ∀ a m', x.run m = (.done a, m') → I ((f a).run m').2.scopes[i]? ∧
          ∀ t ∈ (f a).taken m', i < t.machine.scopes.size ∧ I t.machine.scopes[i]? := by
        intro a m' hrun
        have hsize := (run_later x m).size_eq
        rw [hrun] at hend hsize
        exact ihf a (hsize ▸ hi) hend
          fun t ht => hstep t (mem_taken_bind.mpr (.inr ⟨a, m', hrun, ht⟩))
      constructor
      · simp only [run, Run.bind]
        rcases hrun : x.run m with ⟨a | e | _, m'⟩
        · exact (hrest a m' hrun).1
        · rwa [hrun] at hend
        · rwa [hrun] at hend
      · intro t ht
        rcases mem_taken_bind.mp ht with ht | ⟨a, m', hrun, ht⟩
        · exact htaken t ht
        · exact (hrest a m' hrun).2 t ht
  | fail fault => exact ⟨hm, by simp [taken]⟩
  | starve => exact ⟨hm, by simp [taken]⟩
  | step s =>
      have hmem : (⟨s, m⟩ : Taken) ∈ (Eval.step s).taken m := List.mem_singleton_self _
      refine ⟨hstep ⟨s, m⟩ hmem hi hm, ?_⟩
      intro t ht
      cases List.mem_singleton.mp ht
      exact ⟨hi, hm⟩
  | inScope parent body ih =>
      have hopened : (m.pushScope parent).scopes[i]? = m.scopes[i]? := by
        rw [Machine.getElem?_pushScope, if_neg (Nat.ne_of_lt hi)]
      have hlt : i < (m.pushScope parent).scopes.size := by
        simp only [Machine.pushScope, Array.size_push]
        exact Nat.lt_succ_of_lt hi
      obtain ⟨hend, htaken⟩ := ih m.scopes.size hlt (hopened ▸ hm) hstep
      refine ⟨?_, htaken⟩
      show I (((body m.scopes.size).run (m.pushScope parent)).2.keepScopes m.scopes.size).scopes[i]?
      rw [Machine.getElem?_keepScopes, if_pos hi]
      exact hend
  | asCall position body ih =>
      by_cases hlt : m.callDepth < m.maxCallDepth
      · simp only [taken, if_pos hlt] at hstep
        simp only [run, taken, if_pos hlt]
        obtain ⟨hend, htaken⟩ := ih (m := m.enterCall) hi hm hstep
        refine ⟨?_, htaken⟩
        split
        · exact hend
        · exact hend
      · simp only [run, taken, if_neg hlt]
        exact ⟨hm, fun t ht => absurd ht List.not_mem_nil⟩

end Eval

/-! ## Tasks -/

namespace Task

variable {α : Type}

/-- The task declares variables in the scope in which it is done. -/
def Declares : Task α → Prop
  | .exec _ s => s.IsDeclaration
  | .execAll _ statements => ∃ s ∈ statements, s.IsDeclaration
  | _ => False

/-- Each task conforms if its scope is an own one where it declares. -/
theorem conforms_toEval (task : Task α) (fuel : Nat) {lent : HostFunction → Prop}
    {own : Territory} (hown : task.Declares → own.vars task.scope) :
    (task.toEval fuel).Conforms lent own := by
  have hconforms := Eval.conformsUpTo lent fuel
  cases task with
  | eval scope e => exact hconforms.eval own scope e
  | exec scope s => exact hconforms.exec own scope s hown
  | execAll scope statements =>
      exact hconforms.execAll own scope statements fun s hs hdeclares => hown ⟨s, hs, hdeclares⟩
  | call scope name arguments position => exact hconforms.call own scope name arguments position
  | execute script => exact hconforms.execute own script

end Task

end Scriptlet
