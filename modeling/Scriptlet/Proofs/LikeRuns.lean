import Scriptlet.Proofs.Correspondence

/-!
# Code that is alike runs alike

The evaluator on two pieces of code that are alike, on corresponding machines: both runs
end in the same kind of way, with the same value or with corresponding faults, and leave
corresponding machines (`Eval.alikeUpTo`).

The one place where the runs do not simply go in lockstep is the call of a built-in
function.  Its parameter is called `_` on both sides, and a script may have a variable of
that name, to which another one corresponds.  But the parameter is bound in a scope that
holds nothing else, read from there at once, and gone before any code of the script runs
again, so the call needs no scope at all (`Eval.run_inScope_builtin`).
-/

namespace Scriptlet

/-! ## The newest scope -/

namespace Machine

variable (m : Machine) {s : Scope}

/-- A change of the scope at the end. -/
theorem modify_withScope (f : Scope → Scope) :
    (m.withScope s).scopes.modify m.scopes.size f = (m.withScope (f s)).scopes := by
  apply Array.ext_getElem?
  intro i
  simp only [withScope, Array.getElem?_modify, Array.getElem?_push]
  by_cases hi : i = m.scopes.size
  · simp [hi]
  · simp [hi, Ne.symm hi]

/-- The new scope is there. -/
theorem lt_size_withScope : m.scopes.size < (m.withScope s).scopes.size := by
  simp [withScope]

/-- The new scope is the one that was put at the end. -/
theorem getElem?_withScope_self : (m.withScope s).scopes[m.scopes.size]? = some s := by
  simp [withScope]

/-- The other scopes are what they were. -/
theorem getElem?_withScope_of_lt {i : ScopeId} (hi : i < m.scopes.size) :
    (m.withScope s).scopes[i]? = m.scopes[i]? := by
  simp only [withScope, Array.getElem?_push, if_neg (Nat.ne_of_lt hi)]

/-- A declaration in the newest scope of a variable that it lacks. -/
theorem declareVariable_withScope {name : String} (hnew : s.getVariable? (Name.fold name) = none)
    (value : Option Value) (position : Option Position) :
    (Step.declareVariable m.scopes.size name value position).perform (m.withScope s) =
      (.done (), m.withScope (s.addVariable (Name.fold name) ⟨name, value⟩)) := by
  have hdeclared := Arena.declareVariable?_eq_some_iff.mpr
    ⟨s, m.getElem?_withScope_self, hnew, m.modify_withScope (·.addVariable _ ⟨name, value⟩)⟩
  simp only [Step.perform, Step.inArena, if_pos m.lt_size_withScope, hdeclared]
  rfl

/-- A declaration in the newest scope of a function that it lacks. -/
theorem declareFunction_withScope {f : Callable}
    (hnew : s.getFunction? (Name.fold f.signature.name) = none) (position : Option Position) :
    (Step.declareFunction m.scopes.size f position).perform (m.withScope s) =
      (.done (), m.withScope (s.addFunction (Name.fold f.signature.name) f)) := by
  have hdeclared := Arena.declareFunction?_eq_some_iff.mpr
    ⟨s, m.getElem?_withScope_self, hnew, m.modify_withScope (·.addFunction _ f)⟩
  simp only [Step.perform, Step.inArena, if_pos m.lt_size_withScope, hdeclared]
  rfl

/-- What the newest scope declares is found there. -/
theorem readVariable_withScope {name : String} {v : Variable} {value : Value}
    (hfound : s.getVariable? (Name.fold name) = some v) (hvalue : v.value = some value)
    (position : Option Position) :
    (Step.readVariable m.scopes.size name position).perform (m.withScope s) =
      (.done value, m.withScope s) := by
  obtain ⟨spelling, _⟩ := v
  cases hvalue
  have hmeans : (m.withScope s).scopes.findVariable? m.scopes.size name =
      some ⟨spelling, some value⟩ := by
    simp only [Arena.findVariable?, Arena.findOutward, m.getElem?_withScope_self, hfound]
  simp only [Step.perform, Step.inArena, if_pos m.lt_size_withScope, hmeans]

/-- Without the newest scope the machine is what it was. -/
theorem keepScopes_withScope : (m.withScope s).keepScopes m.scopes.size = m := by
  have hscopes : ((m.withScope s).keepScopes m.scopes.size).scopes = m.scopes := by
    apply Array.ext_getElem?
    intro i
    rw [getElem?_keepScopes]
    by_cases hi : i < m.scopes.size
    · rw [if_pos hi, m.getElem?_withScope_of_lt hi]
    · rw [if_neg hi, Array.getElem?_eq_none (Nat.le_of_not_lt hi)]
  exact congrArg (fun scopes => { m with scopes }) hscopes

end Machine

/-! ## Built-in functions -/

/-- The scope of a call of a built-in function: it holds the argument and nothing else. -/
def Scope.ofArgument (parent : ScopeId) (v : Value) : Scope :=
  (Scope.empty (some parent)).addVariable (Name.fold Builtin.param) ⟨Builtin.param, some v⟩

namespace Eval

variable {α β : Type}

/-- The computation looks at lists at most, and changes nothing. -/
def OnlyLooks (x : Eval α) : Prop :=
  ∀ m m' : Machine, m'.heap = m.heap → x.run m' = ((x.run m).1, m')

theorem onlyLooks_pure (a : α) : (pure a : Eval α).OnlyLooks :=
  fun _ _ _ => rfl

theorem onlyLooks_fail (f : Fault) : (Eval.fail f : Eval α).OnlyLooks :=
  fun _ _ _ => rfl

/-- A sequence of computations that only look only looks. -/
theorem OnlyLooks.bind {x : Eval α} {f : α → Eval β} (hx : x.OnlyLooks)
    (hf : ∀ a, (f a).OnlyLooks) : (x >>= f).OnlyLooks := by
  intro m m' hheap
  show Run.bind x.run (fun a => (f a).run) m' = ((Run.bind x.run (fun a => (f a).run) m).1, m')
  unfold Run.bind
  rw [hx m m' hheap, hx m m rfl]
  cases (x.run m).1 with
  | done a => exact hf a m m' hheap
  | failed f => rfl
  | outOfFuel => rfl

theorem onlyLooks_ofOption (f : Fault) (a? : Option α) : (ofOption f a?).OnlyLooks := by
  cases a? with
  | some a => exact onlyLooks_pure a
  | none => exact onlyLooks_fail f

theorem onlyLooks_expectList (v : Value) (cause : Fault.Cause) (position : Option Position) :
    (expectList v cause position).OnlyLooks := by
  cases v with
  | list id => exact onlyLooks_pure id
  | _ => exact onlyLooks_fail _

/-- Looking at the elements of a list changes nothing. -/
theorem onlyLooks_listItems (id : ListId) (position : Option Position) :
    (listItems id position).OnlyLooks := by
  intro m m' hheap
  simp only [run, Step.perform, Step.onList, hheap]
  split <;> rfl

/-- Writing a value as text changes nothing. -/
theorem onlyLooks_render (v : Value) : (render v).OnlyLooks := by
  intro m m' hheap
  simp only [run, Step.perform, Run.read, hheap]

/-- A built-in function only looks. -/
theorem onlyLooks_builtinApply (f : Builtin) (v : Value) (position : Option Position) :
    (f.apply v position).OnlyLooks := by
  cases f with
  | toText =>
      cases v with
      | str s => exact onlyLooks_pure _
      | _ => exact (onlyLooks_render _).bind fun _ => onlyLooks_pure _
  | toInt =>
      cases v with
      | double x => exact (onlyLooks_ofOption _ _).bind fun _ => onlyLooks_pure _
      | int n => exact onlyLooks_pure _
      | bool b => exact onlyLooks_pure _
      | _ => exact onlyLooks_fail _
  | countOf =>
      refine (onlyLooks_expectList v _ _).bind fun id => ?_
      refine (onlyLooks_listItems id position).bind fun items => ?_
      exact (onlyLooks_ofOption _ _).bind fun _ => onlyLooks_pure _

/-- A computation that changes nothing but its own scope leaves the machine as it was. -/
theorem run_inScope_of_withScope {m : Machine} {parent : ScopeId} {body : ScopeId → Eval α}
    {outcome : Outcome Fault α} {s : Scope}
    (h : (body m.scopes.size).run (m.pushScope parent) = (outcome, m.withScope s)) :
    (inScope parent body).run m = (outcome, m) := by
  simp only [run]
  rw [h, m.keepScopes_withScope]

/-- Binding the argument of a built-in function in a new scope. -/
theorem run_bindArguments_builtin (f : Builtin) (v : Value) (others : List Value)
    (position : Option Position) (scope : ScopeId) (m : Machine) :
    (bindArguments f.signature (v :: others) m.scopes.size position).run (m.pushScope scope) =
      (.done (), m.withScope (.ofArgument scope v)) := by
  have hparam : (bindParams m.scopes.size position [Builtin.param] (v :: others)).run
      (m.pushScope scope) = (.done (), m.withScope (.ofArgument scope v)) :=
    Run.bind_done (m.declareVariable_withScope rfl (some v) position) _
  cases f <;> exact Run.bind_done hparam _

/-- **A built-in function needs no scope.**  Its parameter is bound in a new scope and read
from there, and that is all. -/
theorem run_inScope_builtin (n : Nat) (scope : ScopeId) (f : Builtin) (v : Value)
    (others : List Value) (position : Option Position) :
    (inScope scope fun activation => do
      bindArguments f.signature (v :: others) activation position
      invoke (n + 1) (.builtin f) activation position).run =
    (do
      let result ← f.apply v position
      pure (some result) : Eval (Option Value)).run := by
  funext m
  have hlooks : (f.apply v position >>= fun result => pure (some result) :
      Eval (Option Value)).OnlyLooks :=
    (onlyLooks_builtinApply f v position).bind fun _ => onlyLooks_pure _
  have hbound := run_bindArguments_builtin f v others position scope m
  have hread : (readVariable m.scopes.size Builtin.param position).run
      (m.withScope (.ofArgument scope v)) = (.done v, m.withScope (.ofArgument scope v)) :=
    m.readVariable_withScope (v := ⟨Builtin.param, some v⟩) rfl rfl position
  have hbody : (bindArguments f.signature (v :: others) m.scopes.size position >>= fun _ =>
      invoke (n + 1) (.builtin f) m.scopes.size position).run (m.pushScope scope) =
      (f.apply v position >>= fun result => pure (some result) : Eval (Option Value)).run
        (m.withScope (.ofArgument scope v)) :=
    (Run.bind_done hbound _).trans (Run.bind_done hread _)
  rw [hlooks m (m.withScope (.ofArgument scope v)) rfl] at hbody
  exact (run_inScope_of_withScope hbody).trans (hlooks m m rfl).symm

/-- Declaring built-in functions in the newest scope, if they have names that are not
declared there. -/
theorem run_declareBuiltins (m : Machine) {fs : List Builtin}
    (hnodup : (fs.map fun f => Name.fold f.signature.name).Nodup) {s : Scope}
    (hnew : ∀ f ∈ fs, s.getFunction? (Name.fold f.signature.name) = none) :
    (declareBuiltins m.scopes.size fs).run (m.withScope s) =
      (.done (), m.withScope (s.withBuiltins fs)) := by
  induction fs generalizing s with
  | nil => rfl
  | cons f fs ih =>
      obtain ⟨hfirst, hothers⟩ := List.nodup_cons.mp hnodup
      have hdeclared := m.declareFunction_withScope (f := .builtin f) (hnew f (.head fs)) none
      refine (Run.bind_done hdeclared _).trans (ih hothers ?_)
      intro g hg
      have hne : Name.fold g.signature.name ≠ Name.fold (Callable.builtin f).signature.name := by
        intro heq
        exact hfirst (List.mem_map.mpr ⟨g, hg, heq⟩)
      unfold Scope.getFunction? Scope.addFunction
      rw [List.lookup_cons, beq_eq_false_iff_ne.mpr hne]
      exact hnew g (.tail f hg)

/-- Every built-in function can be declared in a new scope. -/
theorem run_declareBuiltins_all (m : Machine) (scope : ScopeId) :
    (declareBuiltins m.scopes.size Builtin.all).run (m.pushScope scope) =
      (.done (), m.withScope ((Scope.empty (some scope)).withBuiltins Builtin.all)) :=
  run_declareBuiltins m (by decide) fun _ _ => rfl

/-! ## What needs no fuel -/

variable {c : Correspondence} {R : α → α → Prop} {p q : Option Position}

/-- An optional result is there on both sides, or both fail alike. -/
theorem alike_ofOption {f g : Fault} (h : f.Corresponds c g) (a? : Option α) :
    (ofOption f a?).Alike c Eq (ofOption g a?) := by
  cases a? with
  | some a => exact alike_pure rfl
  | none => exact alike_fail h

/-- A unary operator gives the same, or fails at corresponding places. -/
theorem alike_applyUnary (op : UnaryOp) (v : Value) (hp : c.Spot p q) :
    (applyUnary op v p).Alike c Eq (applyUnary op v q) := by
  unfold applyUnary
  split
  · exact alike_pure rfl
  · exact alike_fault (.unnamed trivial) hp

/-- A value is a truth value on both sides or on neither. -/
theorem alike_expectBool (v : Value) {cause cause' : Fault.Cause}
    (h : cause.Corresponds c.name c.limit cause') (hp : c.Spot p q) :
    (expectBool v cause p).Alike c Eq (expectBool v cause' q) := by
  cases v with
  | bool b => exact alike_pure rfl
  | _ => exact alike_fault h hp

/-- A value is a list on both sides or on neither. -/
theorem alike_expectList (v : Value) {cause cause' : Fault.Cause}
    (h : cause.Corresponds c.name c.limit cause') (hp : c.Spot p q) :
    (expectList v cause p).Alike c Eq (expectList v cause' q) := by
  cases v with
  | list id => exact alike_pure rfl
  | _ => exact alike_fault h hp

/-- Corresponding endings give a function the same value, or are the same wrong jump. -/
theorem alike_flowResult {flow flow' : Flow} (h : flow.Corresponds c.toLikeness flow') :
    flow.result.Alike c Eq flow'.result := by
  cases h with
  | normal => exact alike_pure rfl
  | returned value hp => exact alike_pure rfl
  | broke hp => exact alike_fault (.unnamed trivial) (.known hp)
  | continued hp => exact alike_fault (.unnamed trivial) (.known hp)

/-- Values have the same texts on both sides. -/
theorem alike_renderAll (values : List Value) :
    (renderAll values).Alike c Eq (renderAll values) := by
  induction values with
  | nil => exact alike_pure rfl
  | cons v vs ih =>
      exact (alike_render v).bind_same fun _ => ih.bind_same fun _ => alike_pure rfl

/-- Corresponding parameters are bound to the same values. -/
theorem alike_bindParams (activation : ScopeId) (hp : c.Spot p q) {params params' : List String}
    (hparams : List.Forall₂ c.name params params') (values : List Value) :
    (bindParams activation p params values).Alike c Eq
      (bindParams activation q params' values) := by
  induction hparams generalizing values with
  | nil => exact alike_pure rfl
  | cons hparam _ ih =>
      cases values with
      | nil => exact alike_fault (.unnamed trivial) hp
      | cons value values =>
          exact (alike_declareVariable activation hparam (some value) hp).bind_same
            fun _ => ih values

/-- Corresponding signatures bind the same arguments, the extra ones too. -/
theorem alike_bindArguments {s t : Signature} (h : s.Alike c.toLikeness t) (values : List Value)
    (activation : ScopeId) (hp : c.Spot p q) :
    (bindArguments s values activation p).Alike c Eq (bindArguments t values activation q) := by
  refine (alike_bindParams activation hp h.params values).bind_same fun _ => ?_
  rw [h.variadic_eq, h.params.length_eq]
  split
  · refine (alike_newList _).bind_same fun extra => ?_
    exact alike_declareVariable activation c.variadic (some extra) hp
  · exact alike_pure rfl

/-- Functions that are alike are declared in the same order. -/
theorem alike_declareFunctions (scope : ScopeId) {fs gs : List FunctionDef}
    (h : List.Forall₂ (FunctionDef.Alike c.toLikeness) fs gs) :
    (declareFunctions scope fs).Alike c Eq (declareFunctions scope gs) := by
  induction h with
  | nil => exact alike_pure rfl
  | @cons f g fs gs hfg _ ih =>
      have hdeclared : (declareFunction scope (.script f) (some f.position)).Alike c Eq
          (declareFunction scope (.script g) (some g.position)) :=
        alike_declareFunction scope hfg.signature.name (.script hfg) (.known hfg.position)
      exact hdeclared.bind_same fun _ => ih

/-- A built-in function gives the same, or fails at corresponding places. -/
theorem alike_builtinApply (f : Builtin) (v : Value) (hp : c.Spot p q) :
    (f.apply v p).Alike c Eq (f.apply v q) := by
  have hfault : (Fault.mk .conversionFailed p).Corresponds c ⟨.conversionFailed, q⟩ :=
    ⟨.unnamed trivial, hp⟩
  cases f with
  | toText =>
      cases v with
      | str text => exact alike_pure rfl
      | _ => exact (alike_render _).bind_same fun _ => alike_pure rfl
  | toInt =>
      cases v with
      | double x => exact (alike_ofOption hfault _).bind_same fun _ => alike_pure rfl
      | int n => exact alike_pure rfl
      | bool b => exact alike_pure rfl
      | _ => exact alike_fail hfault
  | countOf =>
      refine Alike.bind_same (alike_expectList v (.unnamed trivial) hp) fun id => ?_
      refine (alike_listItems id hp).bind_same fun items => ?_
      exact (alike_ofOption hfault _).bind_same fun _ => alike_pure rfl

/-- A function of the host that may be known does the same at corresponding places, if the
scripts that it runs do. -/
theorem alike_hostFunctionRun {f : HostFunction} (hf : c.host f)
    {execute : Script → Eval (Option Value)}
    (hexecute : ∀ script, (execute script).Alike c Eq (execute script)) (activation : ScopeId)
    (hp : c.Spot p q) :
    (f.run execute activation p).Alike c Eq (f.run execute activation q) := by
  have hname := (c.reflexive hf).name
  have hargument : ∀ name, (readVariable activation name p).Alike c Eq
      (readVariable activation name q) := fun name =>
    alike_readVariable activation (hname name) hp
  have hrefused : ∀ text, (fault (.host text) p : Eval (Option Value)).Alike c Eq
      (fault (.host text) q) := fun text => alike_fault (.unnamed trivial) hp
  cases f with
  | print =>
      refine (alike_extraArguments activation hp).bind_same fun extra => ?_
      refine (alike_renderAll extra).bind_same fun texts => ?_
      exact (alike_printLine _).bind_same fun _ => alike_pure rfl
  | assert =>
      refine (hargument "condition").bind_same fun condition => ?_
      split
      · exact alike_pure rfl
      · exact (alike_render _).bind_same fun text => hrefused _
  | join =>
      refine (hargument "sep").bind_same fun separator => ?_
      refine (alike_render separator).bind_same fun text => ?_
      refine (alike_extraArguments activation hp).bind_same fun extra => ?_
      exact (alike_renderAll extra).bind_same fun _ => alike_pure rfl
  | fail => exact hrefused "boom"
  | custom => exact alike_pure rfl
  | failWith =>
      refine (hargument "message").bind_same fun message => ?_
      exact (alike_render message).bind_same fun text => hrefused text
  | pair =>
      refine (hargument "X").bind_same fun x => ?_
      exact (alike_newList _).bind_same fun _ => alike_pure rfl
  | extras =>
      refine (alike_extraArguments activation hp).bind_same fun extra => ?_
      exact (alike_newList extra).bind_same fun _ => alike_pure rfl
  | peek =>
      refine (hargument "name").bind_same fun name => ?_
      refine (alike_render name).bind_same fun text => ?_
      exact (hargument text).bind_same fun _ => alike_pure rfl
  | location =>
      obtain rfl := hp.eq (c.place_eq hf)
      exact alike_pure rfl
  | define =>
      refine (hargument "name").bind_same fun name => ?_
      refine (alike_render name).bind_same fun text => ?_
      refine (hargument "value").bind_same fun value => ?_
      have hdeclared := alike_declareVariable Arena.host (hname text) (some value)
        (.unknown (c.unknown_of_host hf))
      exact hdeclared.bind_same fun _ => alike_pure rfl
  | runScript =>
      refine (hargument "text").bind_same fun text => ?_
      refine (alike_render text).bind_same fun text => ?_
      split
      next script _ => exact hexecute script
      next e _ => exact hrefused e.message
  | push =>
      refine (hargument "list").bind_same fun list => ?_
      refine (hargument "value").bind_same fun value => ?_
      refine Alike.bind_same (alike_expectList list (.unnamed trivial) hp) fun id => ?_
      exact (alike_appendItem id value hp).bind_same fun _ => alike_pure rfl
  | clear =>
      refine (hargument "list").bind_same fun list => ?_
      cases list with
      | list id => exact (alike_clearList id hp).bind_same fun _ => alike_pure rfl
      | _ => exact alike_pure rfl
  | kind => exact (hargument "x").bind_same fun _ => alike_pure rfl
  | dup => exact (hargument "a").bind_same fun _ => alike_pure rfl

/-! ## The evaluator -/

/-- The body of a call: the arguments are bound in a new scope, and the function is run there. -/
def activate (n : Nat) (scope : ScopeId) (f : Callable) (values : List Value)
    (position : Option Position) : Eval (Option Value) :=
  inScope scope fun activation => do
    bindArguments f.signature values activation position
    invoke n f activation position

/-- With `n` units of fuel every function of the evaluator runs alike what is alike. -/
structure AlikeUpTo (c : Correspondence) (n : Nat) : Prop where
  eval : ∀ s {e e'}, e.Alike c.toLikeness e' → (eval n s e).Alike c Eq (eval n s e')
  evalAll : ∀ s {es es'}, List.Forall₂ (Expr.Alike c.toLikeness) es es' →
    (evalAll n s es).Alike c Eq (evalAll n s es')
  binary : ∀ s op {p q left left' right right'}, c.place p q → left.Alike c.toLikeness left' →
    right.Alike c.toLikeness right' →
    (binary n s op p left right).Alike c Eq (binary n s op q left' right')
  holds : ∀ s {e e'}, e.Alike c.toLikeness e' → (holds n s e).Alike c Eq (holds n s e')
  element : ∀ s {p q a b index index'}, c.place p q → c.name a b →
    index.Alike c.toLikeness index' →
    (element n s p a index).Alike c Eq (element n s q b index')
  call : ∀ s {p q a b arguments arguments'}, c.Spot p q → c.name a b →
    List.Forall₂ (Expr.Alike c.toLikeness) arguments arguments' →
    (call n s a arguments p).Alike c Eq (call n s b arguments' q)
  activate : ∀ s {p q f g} values, c.Spot p q → f.Alike c g →
    (activate n s f values p).Alike c Eq (activate n s g values q)
  exec : ∀ s {statement statement'}, statement.Alike c.toLikeness statement' →
    (exec n s statement).Alike c (Flow.Corresponds c.toLikeness) (exec n s statement')
  execAll : ∀ s {ss ss'}, List.Forall₂ (Statement.Alike c.toLikeness) ss ss' →
    (execAll n s ss).Alike c (Flow.Corresponds c.toLikeness) (execAll n s ss')
  whileRounds : ∀ s {condition condition' body body'}, condition.Alike c.toLikeness condition' →
    body.Alike c.toLikeness body' →
    (whileRounds n s condition body).Alike c (Flow.Corresponds c.toLikeness)
      (whileRounds n s condition' body')
  forRounds : ∀ s {condition condition' step step' body body'},
    condition.Alike c.toLikeness condition' → step.Alike c.toLikeness step' →
    body.Alike c.toLikeness body' →
    (forRounds n s condition step body).Alike c (Flow.Corresponds c.toLikeness)
      (forRounds n s condition' step' body')
  forEachRounds : ∀ s {p q a b body body'} id index, c.place p q → c.name a b →
    body.Alike c.toLikeness body' →
    (forEachRounds n s p a id index body).Alike c (Flow.Corresponds c.toLikeness)
      (forEachRounds n s q b id index body')
  execute : ∀ {script script'}, script.Alike c.toLikeness script' →
    (execute n script).Alike c Eq (execute n script')

/-- After a round two loops go on, or end in corresponding ways. -/
theorem afterRound_corresponds {l : Likeness} {flow flow' : Flow} (h : flow.Corresponds l flow') :
    Option.Rel (Flow.Corresponds l) flow.afterRound flow'.afterRound := by
  cases h with
  | normal => exact .none
  | returned value hp => exact .some (.returned value hp)
  | broke hp => exact .some .normal
  | continued hp => exact .none

/-- What follows a round of a loop. -/
theorem alike_afterRound {flow flow' : Flow} (h : flow.Corresponds c.toLikeness flow')
    {again again' : Eval Flow} (hagain : again.Alike c (Flow.Corresponds c.toLikeness) again') :
    Alike c (Flow.Corresponds c.toLikeness)
      (match flow.afterRound with
        | some ending => pure ending
        | none => again)
      (match flow'.afterRound with
        | some ending => pure ending
        | none => again') := by
  have hending := afterRound_corresponds h
  generalize flow.afterRound = ending?, flow'.afterRound = ending'? at hending
  cases hending with
  | none => exact hagain
  | some hending => exact alike_pure hending

/-- A built-in function is called alike, whatever names mean in the scopes outside. -/
theorem alike_activate_builtin (n : Nat) (s : ScopeId) (f : Builtin) (values : List Value)
    (hp : c.Spot p q) :
    (activate n s (.builtin f) values p).Alike c Eq (activate n s (.builtin f) values q) := by
  cases values with
  | nil =>
      refine alike_inScope_of_run s fun {m m'} hm => ?_
      cases f <;> exact .failed ⟨.unnamed trivial, hp⟩ (hm.pushScope s)
  | cons v others =>
      cases n with
      | zero =>
          -- the argument is bound, and then there is no fuel
          have hstarved : ∀ position m, (activate 0 s (.builtin f) (v :: others) position).run m =
              (.outOfFuel, m) := by
            intro position m
            have hbound := run_bindArguments_builtin f v others position s m
            exact run_inScope_of_withScope (Run.bind_done hbound _)
          intro m m' hm
          rw [hstarved, hstarved]
          exact .outOfFuel hm
      | succ n =>
          have happly : (f.apply v p >>= fun result => pure (some result) :
              Eval (Option Value)).Alike c Eq
              (f.apply v q >>= fun result => pure (some result)) :=
            (alike_builtinApply f v hp).bind_same fun _ => alike_pure rfl
          have hleft := run_inScope_builtin n s f v others p
          have hright := run_inScope_builtin n s f v others q
          unfold Alike at happly
          rw [← hleft, ← hright] at happly
          exact happly

/-- Any other function is called alike if it is run alike. -/
theorem alike_activate {n : Nat} (s : ScopeId) {f g : Callable}
    (hsignature : f.signature.Alike c.toLikeness g.signature) (values : List Value)
    (hp : c.Spot p q)
    (hinvoke : ∀ activation, (invoke n f activation p).Alike c Eq (invoke n g activation q)) :
    (activate n s f values p).Alike c Eq (activate n s g values q) :=
  alike_inScope s fun activation =>
    (alike_bindArguments hsignature values activation hp).bind_same fun _ => hinvoke activation

namespace AlikeUpTo

variable {n : Nat} (ih : AlikeUpTo c n)

include ih

/-- Expressions that are alike have the same value. -/
theorem eval_succ (s : ScopeId) {e e' : Expr} (h : e.Alike c.toLikeness e') :
    (Eval.eval (n + 1) s e).Alike c Eq (Eval.eval (n + 1) s e') := by
  cases h with
  | literal hp value => exact alike_pure rfl
  | var hp hname => exact alike_readVariable s hname (.known hp)
  | element hp hname hindex =>
      exact (ih.element s hp hname hindex).bind_same fun place =>
        alike_readElement place.1 place.2 (.known hp)
  | unary op hp hoperand =>
      exact (ih.eval s hoperand).bind_same fun v => alike_applyUnary op v (.known hp)
  | binary op hp ho hleft hright => exact ih.binary s op ho hleft hright
  | assign hp ht hname hvalue =>
      refine (ih.eval s hvalue).bind_same fun v => ?_
      exact (alike_assignVariable s hname v (.known ht)).bind_same fun _ => alike_pure rfl
  | assignElement hp ht hname hindex hvalue =>
      refine (ih.eval s hvalue).bind_same fun v => ?_
      refine (ih.element s ht hname hindex).bind_same fun place => ?_
      exact (alike_writeElement place.1 place.2 v (.known ht)).bind_same fun _ => alike_pure rfl
  | conditional hp hcondition hthen helse =>
      refine (ih.holds s hcondition).bind_same fun truth => ?_
      cases truth with
      | true => exact ih.eval s hthen
      | false => exact ih.eval s helse
  | list hp helements => exact (ih.evalAll s helements).bind_same alike_newList
  | call hp hname harguments =>
      refine (ih.call s (.known hp) hname harguments).bind_same fun result => ?_
      cases result with
      | some v => exact alike_pure rfl
      | none => exact alike_fault (.missingReturnValue hname) (.known hp)

theorem evalAll_succ (s : ScopeId) {es es' : List Expr}
    (h : List.Forall₂ (Expr.Alike c.toLikeness) es es') :
    (Eval.evalAll (n + 1) s es).Alike c Eq (Eval.evalAll (n + 1) s es') := by
  cases h with
  | nil => exact alike_pure rfl
  | cons he hes =>
      exact (ih.eval s he).bind_same fun _ => (ih.evalAll s hes).bind_same fun _ => alike_pure rfl

/-- Operations that are alike have the same value. -/
theorem binary_succ (s : ScopeId) (op : BinaryOp) {p q : Position} {left left' right right' : Expr}
    (hp : c.place p q) (hleft : left.Alike c.toLikeness left')
    (hright : right.Alike c.toLikeness right') :
    (Eval.binary (n + 1) s op p left right).Alike c Eq
      (Eval.binary (n + 1) s op q left' right') := by
  refine (ih.eval s hleft).bind_same fun a => ?_
  split
  · exact (ih.eval s hright).bind_same fun b => alike_applyBinary op a b (.known hp)
  · refine Alike.bind_same (alike_expectBool a (.unnamed trivial) (.known hp)) fun truth => ?_
    split
    · exact alike_pure rfl
    · refine (ih.eval s hright).bind_same fun b => ?_
      exact Alike.bind_same (alike_expectBool b (.unnamed trivial) (.known hp))
        fun _ => alike_pure rfl

theorem holds_succ (s : ScopeId) {e e' : Expr} (h : e.Alike c.toLikeness e') :
    (Eval.holds (n + 1) s e).Alike c Eq (Eval.holds (n + 1) s e') :=
  (ih.eval s h).bind_same fun v => alike_expectBool v (.unnamed trivial) (.known h.position)

/-- Elements that are alike mean the same list and index. -/
theorem element_succ (s : ScopeId) {p q : Position} {a b : String} {index index' : Expr}
    (hp : c.place p q) (hname : c.name a b) (hindex : index.Alike c.toLikeness index') :
    (Eval.element (n + 1) s p a index).Alike c Eq (Eval.element (n + 1) s q b index') := by
  refine (alike_readVariable s hname (.known hp)).bind_same fun v => ?_
  refine (alike_expectList v (.variableNotCollection hname) (.known hp)).bind_same fun id => ?_
  refine (ih.eval s hindex).bind_same fun i => ?_
  cases i with
  | int i =>
      refine (alike_listItems id (.known hp)).bind_same fun items => ?_
      have hfault : (Fault.mk (.indexOutOfRange i) (some index.position)).Corresponds c
          ⟨.indexOutOfRange i, some index'.position⟩ :=
        ⟨.unnamed trivial, .known hindex.position⟩
      exact (alike_ofOption hfault _).bind_same fun _ => alike_pure rfl
  | _ => exact alike_fault (.unnamed trivial) (.known hindex.position)

/-- Calls that are alike find functions that are alike and give them the same arguments. -/
theorem call_succ (s : ScopeId) {p q : Option Position} {a b : String}
    {arguments arguments' : List Expr} (hp : c.Spot p q) (hname : c.name a b)
    (harguments : List.Forall₂ (Expr.Alike c.toLikeness) arguments arguments') :
    (Eval.call (n + 1) s a arguments p).Alike c Eq (Eval.call (n + 1) s b arguments' q) := by
  refine (alike_findFunction s hname hp).bind fun f g hfg => ?_
  rw [harguments.length_eq, hfg.accepts_eq]
  split
  · refine (ih.evalAll s harguments).bind_same fun values => ?_
    exact alike_asCall hp (ih.activate s values hp hfg)
  · exact alike_fault (.parameterCountMismatch hfg.name) hp

/-- Functions that are alike do the same with the same arguments. -/
theorem activate_succ (s : ScopeId) {p q : Option Position} {f g : Callable} (values : List Value)
    (hp : c.Spot p q) (hfg : f.Alike c g) :
    (Eval.activate (n + 1) s f values p).Alike c Eq (Eval.activate (n + 1) s g values q) := by
  cases hfg with
  | builtin f => exact alike_activate_builtin (n + 1) s f values hp
  | script hfg =>
      refine alike_activate s hfg.signature values hp fun activation => ?_
      exact (ih.exec activation (.block hfg.bodyPosition hfg.body)).bind
        fun _ _ => alike_flowResult
  | @host f hf =>
      have hrefl := c.reflexive hf
      refine alike_activate s (Signature.alike_refl hrefl f.signature) values hp
        fun activation => ?_
      exact alike_hostFunctionRun hf (fun script => ih.execute (Script.alike_refl hrefl script))
        activation hp

/-- Statements that are alike end in the same way, from corresponding places. -/
theorem exec_succ (s : ScopeId) {statement statement' : Statement}
    (h : statement.Alike c.toLikeness statement') :
    (Eval.exec (n + 1) s statement).Alike c (Flow.Corresponds c.toLikeness)
      (Eval.exec (n + 1) s statement') := by
  cases h with
  | declare hp hname hvalue =>
      refine (alike_declareVariable s hname none (.known hp)).bind_same fun _ => ?_
      cases hvalue with
      | none => exact alike_pure .normal
      | some hvalue =>
          refine (ih.eval s hvalue).bind_same fun v => ?_
          exact (alike_fillVariable s hname v (.known hp)).bind_same fun _ => alike_pure .normal
  | evaluate hp hvalue =>
      cases hvalue with
      | call hp hname harguments =>
          exact (ih.call s (.known hp) hname harguments).bind_same fun _ => alike_pure .normal
      | _ => exact (ih.eval s (by constructor <;> assumption)).bind_same fun _ => alike_pure .normal
  | block hp hstatements => exact alike_inScope s fun inner => ih.execAll inner hstatements
  | ifElse hp hcondition hthen helse =>
      refine alike_inScope s fun inner => (ih.holds inner hcondition).bind_same fun truth => ?_
      cases truth with
      | true => exact ih.exec inner hthen
      | false =>
          cases helse with
          | none => exact alike_pure .normal
          | some helse => exact ih.exec inner helse
  | whileLoop hp hcondition hbody =>
      exact alike_inScope s fun inner => ih.whileRounds inner hcondition hbody
  | forLoop hp hcounter hstart hcondition hstep hbody =>
      refine alike_inScope s fun inner => (ih.eval inner hstart).bind_same fun first => ?_
      have hrounds := ih.forRounds inner hcondition hstep hbody
      cases hcounter with
      | none => exact hrounds
      | some hname =>
          exact (alike_declareVariable inner hname (some first) (.known hp)).bind_same
            fun _ => hrounds
  | forEach hp hitem hcollection hbody =>
      refine (ih.eval s hcollection).bind_same fun v => ?_
      refine Alike.bind_same
        (alike_expectList v (.unnamed trivial) (.known hcollection.position)) fun id => ?_
      refine alike_inScope s fun inner => ?_
      exact (alike_declareVariable inner hitem none (.known hp)).bind_same
        fun _ => ih.forEachRounds inner id 0 hp hitem hbody
  | returns hp hvalue =>
      cases hvalue with
      | none => exact alike_pure (.returned none hp)
      | some hvalue =>
          exact (ih.eval s hvalue).bind_same fun v => alike_pure (.returned (some v) hp)
  | breaks hp => exact alike_pure (.broke hp)
  | continues hp => exact alike_pure (.continued hp)

theorem execAll_succ (s : ScopeId) {ss ss' : List Statement}
    (h : List.Forall₂ (Statement.Alike c.toLikeness) ss ss') :
    (Eval.execAll (n + 1) s ss).Alike c (Flow.Corresponds c.toLikeness)
      (Eval.execAll (n + 1) s ss') := by
  cases h with
  | nil => exact alike_pure .normal
  | cons hstatement hrest =>
      refine (ih.exec s hstatement).bind fun flow flow' hflow => ?_
      cases hflow with
      | normal => exact ih.execAll s hrest
      | returned value hp => exact alike_pure (.returned value hp)
      | broke hp => exact alike_pure (.broke hp)
      | continued hp => exact alike_pure (.continued hp)

theorem whileRounds_succ (s : ScopeId) {condition condition' : Expr} {body body' : Statement}
    (hcondition : condition.Alike c.toLikeness condition')
    (hbody : body.Alike c.toLikeness body') :
    (Eval.whileRounds (n + 1) s condition body).Alike c (Flow.Corresponds c.toLikeness)
      (Eval.whileRounds (n + 1) s condition' body') := by
  refine (ih.holds s hcondition).bind_same fun truth => ?_
  cases truth with
  | true =>
      exact (ih.exec s hbody).bind fun _ _ hflow =>
        alike_afterRound hflow (ih.whileRounds s hcondition hbody)
  | false => exact alike_pure .normal

theorem forRounds_succ (s : ScopeId) {condition condition' step step' : Expr}
    {body body' : Statement} (hcondition : condition.Alike c.toLikeness condition')
    (hstep : step.Alike c.toLikeness step') (hbody : body.Alike c.toLikeness body') :
    (Eval.forRounds (n + 1) s condition step body).Alike c (Flow.Corresponds c.toLikeness)
      (Eval.forRounds (n + 1) s condition' step' body') := by
  refine (ih.holds s hcondition).bind_same fun truth => ?_
  cases truth with
  | true =>
      refine (ih.exec s hbody).bind fun _ _ hflow => alike_afterRound hflow ?_
      exact (ih.eval s hstep).bind_same fun _ => ih.forRounds s hcondition hstep hbody
  | false => exact alike_pure .normal

theorem forEachRounds_succ (s : ScopeId) {p q : Position} {a b : String} {body body' : Statement}
    (id : ListId) (index : Nat) (hp : c.place p q) (hname : c.name a b)
    (hbody : body.Alike c.toLikeness body') :
    (Eval.forEachRounds (n + 1) s p a id index body).Alike c (Flow.Corresponds c.toLikeness)
      (Eval.forEachRounds (n + 1) s q b id index body') := by
  refine (alike_listItems id (.known hp)).bind_same fun items => ?_
  split
  · exact alike_pure .normal
  next v _ =>
    refine (alike_fillVariable s hname v (.known hp)).bind_same fun _ => ?_
    exact (ih.exec s hbody).bind fun _ _ hflow =>
      alike_afterRound hflow (ih.forEachRounds s id (index + 1) hp hname hbody)

/-- Scripts that are alike give the same value. -/
theorem execute_succ {script script' : Script} (h : script.Alike c.toLikeness script') :
    (Eval.execute (n + 1) script).Alike c Eq (Eval.execute (n + 1) script') := by
  refine alike_inScope_of_run Arena.host fun {m m'} hm => ?_
  have hleft := run_declareBuiltins_all m Arena.host
  have hright := run_declareBuiltins_all m' Arena.host
  rw [← hm.scopes.size_eq] at hright
  have hscript : ∀ scope, (do
        declareFunctions scope script.functions
        let flow ← Eval.execAll n scope script.statements
        flow.result : Eval (Option Value)).Alike c Eq
      (do
        declareFunctions scope script'.functions
        let flow ← Eval.execAll n scope script'.statements
        flow.result) := by
    intro scope
    refine (alike_declareFunctions scope h.functions).bind_same fun _ => ?_
    exact (ih.execAll scope h.statements).bind fun _ _ => alike_flowResult
  have hends := hscript m.scopes.size
    (hm.withScope ((Scope.Corresponds.empty c (some Arena.host)).withBuiltins Builtin.all))
  exact Run.Ends.bind_done hleft hright hends

end AlikeUpTo

/-- **Code that is alike runs alike.**  By induction on the fuel: what a function of the
evaluator does with a name or a place, it does with the corresponding one. -/
theorem alikeUpTo (c : Correspondence) (n : Nat) : AlikeUpTo c n := by
  induction n with
  | zero =>
      have hactivate : ∀ s {p q f g} values, c.Spot p q → f.Alike c g →
          (activate 0 s f values p).Alike c Eq (activate 0 s g values q) := by
        intro s p q f g values hp hfg
        cases hfg with
        | builtin f => exact alike_activate_builtin 0 s f values hp
        | script hfg => exact alike_activate s hfg.signature values hp fun _ => alike_starve
        | @host f hf =>
            have hsignature := Signature.alike_refl (c.reflexive hf) f.signature
            exact alike_activate s hsignature values hp fun _ => alike_starve
      constructor
      case activate => exact hactivate
      all_goals intros; exact alike_starve
  | succ n ih =>
      exact ⟨ih.eval_succ, ih.evalAll_succ, ih.binary_succ, ih.holds_succ, ih.element_succ,
        ih.call_succ, ih.activate_succ, ih.exec_succ, ih.execAll_succ, ih.whileRounds_succ,
        ih.forRounds_succ, ih.forEachRounds_succ, ih.execute_succ⟩

end Eval

end Scriptlet
