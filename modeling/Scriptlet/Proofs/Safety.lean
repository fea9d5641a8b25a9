import Scriptlet.Proofs.Access

/-!
# No access of the evaluator fails

The evaluator reads scopes, lists, elements and arguments without asking whether
they are there.  `Eval.safeUpTo` shows that it need not ask.  The places where
this is not plain to see:

* an index is checked against the length that its list has after the index
  expression was evaluated, and nothing comes between the check and the access;
* a variable is filled after arbitrary code has run, and is still declared in its
  scope, since no computation takes a variable away (`Eval.run_later`);
* a call was accepted for the number of its argument expressions, and evaluating
  them gives as many values.
-/

namespace Scriptlet

/-- The value that control carries to the end of a function. -/
def Flow.value? : Flow → Option Value
  | .returned value _ => value
  | _ => none

/-- What a round hands on is no value, or the one that it returned. -/
theorem Flow.value?_afterRound {flow ending : Flow} (h : flow.afterRound = some ending) :
    ending.value? = none ∨ ending.value? = flow.value? := by
  cases flow <;> cases h
  · exact .inr rfl
  · exact .inl rfl

/-- An index that is found is within its list. -/
theorem Heap.index?_lt {i : Int32} {length k : Nat} (h : Heap.index? i length = some k) :
    k < length := by
  unfold Heap.index? at h
  split at h
  next hrange =>
    cases h
    omega
  next => cases h

namespace Eval

variable {α β : Type} {plain : Prop} {scope : ScopeId} {m : Machine}

/-! ## What needs no fuel -/

/-- An optional result that is missing is no broken access, if its fault is none. -/
theorem safe_ofOption {fault : Fault} (h : ¬ fault.Broken) (a? : Option α) :
    (ofOption fault a?).Safe plain m fun a m' => a? = some a ∧ m' = m := by
  cases a? with
  | some a => exact safe_pure ⟨rfl, rfl⟩
  | none => exact safe_fail h

/-- A unary operator gives no list. -/
theorem safe_applyUnary (op : UnaryOp) (v : Value) (position : Option Position) :
    (applyUnary op v position).Safe plain m fun result m' => m'.Has result := by
  unfold applyUnary
  split
  next result h => exact safe_pure (UnaryOp.within_of_apply h _)
  next => exact safe_fail id

/-- Asking for a truth value is no access. -/
theorem safe_expectBool (v : Value) {cause : Fault.Cause} {position : Option Position}
    (h : ¬ Fault.Broken ⟨cause, position⟩) :
    (expectBool v cause position).Safe plain m fun _ _ => True := by
  unfold expectBool
  split
  · exact safe_pure trivial
  · exact safe_fail h

/-- If the value is there, so is the list that it is. -/
theorem safe_expectList (v : Value) {cause : Fault.Cause} {position : Option Position}
    (h : ¬ Fault.Broken ⟨cause, position⟩) :
    (expectList v cause position).Safe plain m fun id m' => m.Has v → id < m'.heap.size := by
  unfold expectList
  split
  next id => exact safe_pure fun hv => hv
  next => exact safe_fail h

/-- What a function returns is there if the value in its ending is. -/
theorem safe_flowResult {flow : Flow} (h : ∀ v ∈ flow.value?, m.Has v) :
    flow.result.Safe plain m fun result m' => ∀ v ∈ result, m'.Has v := by
  cases flow with
  | normal => exact safe_pure nofun
  | returned value p => exact safe_pure h
  | broke p => exact safe_fail id
  | continued p => exact safe_fail id

/-- Values that are there can be written as texts. -/
theorem safe_renderAll (hm : m.Ready plain scope) {values : List Value}
    (hvalues : ∀ v ∈ values, m.Has v) :
    (renderAll values).Safe plain m fun _ _ => True := by
  induction values generalizing m with
  | nil => exact safe_pure trivial
  | cons v vs ih =>
      have hhead : m.Has v := hvalues v List.mem_cons_self
      refine (safe_render hm hhead).bind hm ?_
      intro text m' hm' hlater _
      have htail : ∀ w ∈ vs, m'.Has w :=
        fun w hw => hlater.has (hvalues w (List.mem_cons_of_mem v hw))
      refine (ih hm' htail).bind hm' ?_
      intro texts m'' _ _ _
      exact safe_pure trivial

/-- Binding is safe if there is a value for every parameter. -/
theorem safe_bindParams (hm : m.Ready plain scope) (position : Option Position)
    {params : List String} {values : List Value} (hlength : params.length ≤ values.length)
    (hvalues : ∀ v ∈ values, m.Has v) :
    (bindParams scope position params values).Safe plain m fun _ _ => True := by
  induction params generalizing values m with
  | nil => exact safe_pure trivial
  | cons param params ih =>
      cases values with
      | nil => simp at hlength
      | cons value values =>
          have hhead : ∀ v ∈ some value, m.Has v := by
            rintro v ⟨⟩
            exact hvalues value List.mem_cons_self
          refine (safe_declareVariable hm param hhead position).bind hm ?_
          intro _ m' hm' hlater _
          apply ih hm'
          · simpa using hlength
          · exact fun v hv => hlater.has (hvalues v (List.mem_cons_of_mem value hv))

/-- Arguments that are there can be bound, one for each parameter. -/
theorem safe_bindArguments (hm : m.Ready plain scope) (s : Signature) {values : List Value}
    (position : Option Position) (haccepts : s.accepts values.length)
    (hvalues : ∀ v ∈ values, m.Has v) :
    (bindArguments s values scope position).Safe plain m fun _ _ => True := by
  have hlength : s.params.length ≤ values.length := by
    unfold Signature.accepts at haccepts
    split at haccepts
    · simpa using haccepts
    · simp at haccepts
      omega
  refine (safe_bindParams hm position hlength hvalues).bind hm ?_
  intro _ m' hm' hlater _
  split
  · have hextra : ∀ v ∈ values.drop s.params.length, m'.Has v :=
      fun v hv => hlater.has (hvalues v (List.mem_of_mem_drop hv))
    refine (safe_newList hm' hextra).bind hm' ?_
    intro extra m'' hm'' _ hhas
    have hlist : ∀ v ∈ some extra, m''.Has v := by
      rintro v ⟨⟩
      exact hhas
    exact (safe_declareVariable hm'' Name.variadic hlist position).imp fun _ _ _ => trivial
  · exact safe_pure trivial

/-- Built-in functions are plain and can be declared. -/
theorem safe_declareBuiltins (hm : m.Ready plain scope) (fs : List Builtin) :
    (declareBuiltins scope fs).Safe plain m fun _ _ => True := by
  induction fs generalizing m with
  | nil => exact safe_pure trivial
  | cons f fs ih =>
      refine (safe_step hm (s := .declareFunction scope (.builtin f) none) hm.scope_lt
        fun _ => trivial).bind hm ?_
      intro _ m' hm' _ _
      exact ih hm'

/-- Functions of a script can be declared; in plain code they are plain. -/
theorem safe_declareFunctions (hm : m.Ready plain scope) {fs : List FunctionDef}
    (hfs : plain → ∀ f ∈ fs, f.Plain) :
    (declareFunctions scope fs).Safe plain m fun _ _ => True := by
  induction fs generalizing m with
  | nil => exact safe_pure trivial
  | cons f fs ih =>
      refine (safe_step hm (s := .declareFunction scope (.script f) (some f.position)) hm.scope_lt
        fun h => hfs h f List.mem_cons_self).bind hm ?_
      intro _ m' hm' _ _
      exact ih hm' fun h g hg => hfs h g (List.mem_cons_of_mem f hg)

/-- A built-in function gives no list that is not there. -/
theorem safe_builtinApply (hm : m.Ready plain scope) (f : Builtin) {v : Value} (hv : m.Has v)
    (position : Option Position) :
    (f.apply v position).Safe plain m fun result m' => m'.Has result := by
  cases f with
  | toText =>
      cases v with
      | str s => exact safe_pure trivial
      | _ =>
          refine (safe_render hm hv).bind hm ?_
          intro text m' _ _ _
          exact safe_pure trivial
  | toInt =>
      cases v with
      | double x =>
          refine (safe_ofOption id (Double.truncate? x)).bind hm ?_
          intro n m' _ _ _
          exact safe_pure trivial
      | int n => exact safe_pure trivial
      | bool b => exact safe_pure trivial
      | str s => exact safe_fail id
      | list id => exact safe_fail not_false
  | countOf =>
      refine (safe_expectList v id).bind hm ?_
      intro list m' hm' _ hlist
      refine (safe_listItems hm' (hlist hv) position).bind hm' ?_
      intro items m'' hm'' _ _
      refine (safe_ofOption id (Literal.ofInt? items.length)).bind hm'' ?_
      intro n _ _ _ _
      exact safe_pure trivial

/-- A function of the host is safe if the scripts that it runs are.  Plain code does not
come to one. -/
theorem safe_hostFunctionRun (hm : m.Ready plain scope) (hplain : ¬ plain)
    {execute : Script → Eval (Option Value)}
    (hexecute : ∀ script m', m'.Ready plain scope →
      (execute script).Safe plain m' fun result m'' => ∀ v ∈ result, m''.Has v)
    (position : Option Position) (f : HostFunction) :
    (f.run execute scope position).Safe plain m fun result m' => ∀ v ∈ result, m'.Has v := by
  have hone : ∀ {m' : Machine} {v : Value}, m'.Has v → ∀ w ∈ some v, m'.Has w := by
    rintro m' v hv w ⟨⟩
    exact hv
  cases f with
  | print =>
      refine (safe_extraArguments hm position).bind hm fun extra m₁ hm₁ _ hitems => ?_
      refine (safe_renderAll hm₁ hitems).bind hm₁ fun texts m₂ hm₂ _ _ => ?_
      refine (safe_step hm₂ (s := .printLine (" ".intercalate texts)) trivial
        fun _ => trivial).bind hm₂ ?_
      intro _ _ _ _ _
      exact safe_pure nofun
  | assert =>
      refine (safe_readVariable hm "condition" position).bind hm
        fun condition m₁ hm₁ _ hcondition => ?_
      split
      · exact safe_pure nofun
      · refine (safe_render hm₁ hcondition).bind hm₁ ?_
        intro text _ _ _ _
        exact safe_fail id
  | join =>
      refine (safe_readVariable hm "sep" position).bind hm fun separator m₁ hm₁ _ hseparator => ?_
      refine (safe_render hm₁ hseparator).bind hm₁ fun text m₂ hm₂ _ _ => ?_
      refine (safe_extraArguments hm₂ position).bind hm₂ fun extra m₃ hm₃ _ hitems => ?_
      refine (safe_renderAll hm₃ hitems).bind hm₃ fun texts m₄ _ _ _ => ?_
      exact safe_pure (hone trivial)
  | fail => exact safe_fail id
  | failWith =>
      refine (safe_readVariable hm "message" position).bind hm fun message m₁ hm₁ _ hmessage => ?_
      refine (safe_render hm₁ hmessage).bind hm₁ fun text _ _ _ _ => ?_
      exact safe_fail id
  | pair =>
      refine (safe_readVariable hm "X" position).bind hm fun x m₁ hm₁ _ hx => ?_
      have hboth : ∀ v ∈ [x, x], m₁.Has v := by simpa using hx
      refine (safe_newList hm₁ hboth).bind hm₁ fun list m₂ _ _ hlist => ?_
      exact safe_pure (hone hlist)
  | extras =>
      refine (safe_extraArguments hm position).bind hm fun extra m₁ hm₁ _ hitems => ?_
      refine (safe_newList hm₁ hitems).bind hm₁ fun list m₂ _ _ hlist => ?_
      exact safe_pure (hone hlist)
  | peek =>
      refine (safe_readVariable hm "name" position).bind hm fun name m₁ hm₁ _ hname => ?_
      refine (safe_render hm₁ hname).bind hm₁ fun text m₂ hm₂ _ _ => ?_
      refine (safe_readVariable hm₂ text position).bind hm₂ fun value m₃ _ _ hvalue => ?_
      exact safe_pure (hone hvalue)
  | location => exact safe_pure (hone trivial)
  | custom => exact safe_pure nofun
  | define =>
      refine (safe_readVariable hm "name" position).bind hm fun name m₁ hm₁ _ hname => ?_
      refine (safe_render hm₁ hname).bind hm₁ fun text m₂ hm₂ _ _ => ?_
      refine (safe_readVariable hm₂ "value" position).bind hm₂ fun value m₃ hm₃ _ hvalue => ?_
      have hhost : Arena.host < m₃.scopes.size := Nat.lt_of_le_of_lt (Nat.zero_le _) hm₃.scope_lt
      refine (safe_step hm₃ (s := .declareVariable Arena.host text (some value) none)
        ⟨hhost, hone hvalue⟩ fun _ => trivial).bind hm₃ ?_
      intro _ _ _ _ _
      exact safe_pure nofun
  | runScript =>
      refine (safe_readVariable hm "text" position).bind hm fun text m₁ hm₁ _ htext => ?_
      refine (safe_render hm₁ htext).bind hm₁ fun text m₂ hm₂ _ _ => ?_
      split
      next script _ => exact hexecute script m₂ hm₂
      next => exact safe_fail id
  | push =>
      refine (safe_readVariable hm "list" position).bind hm fun list m₁ hm₁ _ hlist => ?_
      refine (safe_readVariable hm₁ "value" position).bind hm₁ fun value m₂ hm₂ hlater₂ hvalue => ?_
      refine (safe_expectList list id).bind hm₂ fun id m₃ hm₃ hlater₃ hid => ?_
      have hin : (Step.appendItem id value position).InDomain m₃ :=
        ⟨hid (hlater₂.has hlist), hlater₃.has hvalue⟩
      refine (safe_step hm₃ hin fun h => absurd h hplain).bind hm₃ fun _ m₄ _ hlater₄ _ => ?_
      exact safe_pure (hone (hlater₄.has (hlater₃.has (hlater₂.has hlist))))
  | clear =>
      refine (safe_readVariable hm "list" position).bind hm fun list m₁ hm₁ _ hlist => ?_
      cases list with
      | list id =>
          refine (safe_step hm₁ (s := .clearList id position) hlist
            fun h => absurd h hplain).bind hm₁ ?_
          intro _ _ _ _ _
          exact safe_pure (hone trivial)
      | _ => exact safe_pure (hone trivial)
  | kind =>
      refine (safe_readVariable hm "x" position).bind hm fun x m₁ _ _ _ => ?_
      exact safe_pure (hone trivial)
  | dup =>
      refine (safe_readVariable hm "a" position).bind hm fun a m₁ _ _ ha => ?_
      exact safe_pure (hone ha)

/-- What a loop does after a round: it ends with what the round ended with, or goes on. -/
theorem safe_afterRound {flow : Flow} {next : Eval Flow} (hflow : ∀ v ∈ flow.value?, m.Has v)
    (hnext : next.Safe plain m fun flow m' => ∀ v ∈ flow.value?, m'.Has v) :
    (match flow.afterRound with
      | some ending => pure ending
      | none => next : Eval Flow).Safe plain m fun flow m' => ∀ v ∈ flow.value?, m'.Has v := by
  split
  next ending h =>
    refine safe_pure ?_
    rcases Flow.value?_afterRound h with hvalue | hvalue
    · rw [hvalue]
      exact nofun
    · rw [hvalue]
      exact hflow
  next => exact hnext

/-! ## The evaluator -/

/-- With `n` units of fuel every function of the evaluator is safe on a machine that is
ready, in code that is plain where `plain` holds. -/
structure SafeUpTo (plain : Prop) (n : Nat) : Prop where
  eval : ∀ {scope m}, m.Ready plain scope → ∀ {e}, (plain → e.Plain) →
    (eval n scope e).Safe plain m fun v m' => m'.Has v
  evalAll : ∀ {scope m}, m.Ready plain scope → ∀ {es}, (plain → Expr.AllPlain es) →
    (evalAll n scope es).Safe plain m
      fun vs m' => vs.length = es.length ∧ ∀ v ∈ vs, m'.Has v
  binary : ∀ {scope m}, m.Ready plain scope → ∀ (op : BinaryOp) (p : Position) {left right},
    (plain → left.Plain ∧ right.Plain) →
    (binary n scope op p left right).Safe plain m fun v m' => m'.Has v
  holds : ∀ {scope m}, m.Ready plain scope → ∀ {condition}, (plain → condition.Plain) →
    (holds n scope condition).Safe plain m fun _ _ => True
  element : ∀ {scope m}, m.Ready plain scope → ∀ (p : Position) (name : String) {index},
    (plain → index.Plain) → (element n scope p name index).Safe plain m
      fun place m' => place.1 < m'.heap.size ∧ place.2 < (m'.heap.contents place.1).length
  call : ∀ {scope m}, m.Ready plain scope → ∀ (name : String) {arguments},
    (plain → Expr.AllPlain arguments) → ∀ position : Option Position,
    (call n scope name arguments position).Safe plain m fun result m' => ∀ v ∈ result, m'.Has v
  invoke : ∀ {scope m}, m.Ready plain scope → ∀ {f}, (plain → f.Plain) →
    ∀ position : Option Position,
    (invoke n f scope position).Safe plain m fun result m' => ∀ v ∈ result, m'.Has v
  exec : ∀ {scope m}, m.Ready plain scope → ∀ {s}, (plain → s.Plain) →
    (exec n scope s).Safe plain m fun flow m' => ∀ v ∈ flow.value?, m'.Has v
  execAll : ∀ {scope m}, m.Ready plain scope → ∀ {ss}, (plain → Statement.AllPlain ss) →
    (execAll n scope ss).Safe plain m fun flow m' => ∀ v ∈ flow.value?, m'.Has v
  whileRounds : ∀ {scope m}, m.Ready plain scope → ∀ (condition : Expr) (body : Statement),
    ¬ plain → (whileRounds n scope condition body).Safe plain m
      fun flow m' => ∀ v ∈ flow.value?, m'.Has v
  forRounds : ∀ {scope m}, m.Ready plain scope → ∀ (condition step : Expr) (body : Statement),
    ¬ plain → (forRounds n scope condition step body).Safe plain m
      fun flow m' => ∀ v ∈ flow.value?, m'.Has v
  forEachRounds : ∀ {scope m}, m.Ready plain scope → ∀ (p : Position) {item : String},
    m.Declares scope (Name.fold item) → ∀ {id : ListId}, id < m.heap.size → ∀ (index : Nat) {body},
    (plain → body.Plain) → (forEachRounds n scope p item id index body).Safe plain m
      fun flow m' => ∀ v ∈ flow.value?, m'.Has v
  execute : ∀ {scope m}, m.Ready plain scope → ∀ {script}, (plain → script.Plain) →
    (execute n script).Safe plain m fun result m' => ∀ v ∈ result, m'.Has v

namespace SafeUpTo

variable {n : Nat} (ih : SafeUpTo plain n)

include ih

/-- An expression gives a value that is there, if its parts do. -/
theorem eval_succ (hm : m.Ready plain scope) {e : Expr} (he : plain → e.Plain) :
    (Eval.eval (n + 1) scope e).Safe plain m fun v m' => m'.Has v := by
  cases e with
  | literal p value => exact safe_pure (Value.within_ofLiteral value _)
  | var p name => exact safe_readVariable hm name _
  | element p name index =>
      have hindex : plain → index.Plain := he
      refine (ih.element hm p name hindex).bind hm ?_
      rintro ⟨id, i⟩ m' hm' _ hplace
      exact safe_step hm' (s := .readElement id i (some p)) hplace fun _ => trivial
  | unary p op operand =>
      have hoperand : plain → operand.Plain := he
      refine (ih.eval hm hoperand).bind hm ?_
      intro v m' _ _ _
      exact safe_applyUnary op v _
  | binary _ op p left right => exact ih.binary hm op p he
  | assign _ p name value =>
      have hvalue : plain → value.Plain := he
      refine (ih.eval hm hvalue).bind hm ?_
      intro v m' hm' _ hv
      refine (safe_step hm' (s := .assignVariable scope name v (some p)) ⟨hm'.scope_lt, hv⟩
        fun _ => trivial).bind hm' ?_
      intro _ m'' _ hlater _
      exact safe_pure (hlater.has hv)
  | assignElement _ p name index value =>
      have hplain : ¬ plain := he
      refine (ih.eval hm fun h => absurd h hplain).bind hm ?_
      intro v m₁ hm₁ _ hv
      refine (ih.element hm₁ p name fun h => absurd h hplain).bind hm₁ ?_
      rintro ⟨id, i⟩ m₂ hm₂ hlater₂ hplace
      have hin : (Step.writeElement id i v (some p)).InDomain m₂ :=
        ⟨hplace.1, hplace.2, hlater₂.has hv⟩
      refine (safe_step hm₂ hin fun h => absurd h hplain).bind hm₂ ?_
      intro _ m₃ _ hlater₃ _
      exact safe_pure (hlater₃.has (hlater₂.has hv))
  | conditional _ condition thenBranch elseBranch =>
      refine (ih.holds hm fun h => (he h).1).bind hm ?_
      intro truth m' hm' _ _
      cases truth with
      | true => exact ih.eval hm' fun h => (he h).2.1
      | false => exact ih.eval hm' fun h => (he h).2.2
  | list p elements =>
      refine (ih.evalAll hm he).bind hm ?_
      intro values m' hm' _ hvalues
      exact safe_newList hm' hvalues.2
  | call p name arguments =>
      refine (ih.call hm name he (some p)).bind hm ?_
      intro result m' _ _ hresult
      cases result with
      | some v => exact safe_pure (hresult v rfl)
      | none => exact safe_fail id

/-- Several expressions give as many values, all of which are there after the last one. -/
theorem evalAll_succ (hm : m.Ready plain scope) {es : List Expr} (hes : plain → Expr.AllPlain es) :
    (Eval.evalAll (n + 1) scope es).Safe plain m
      fun vs m' => vs.length = es.length ∧ ∀ v ∈ vs, m'.Has v := by
  cases es with
  | nil => exact safe_pure ⟨rfl, nofun⟩
  | cons e es =>
      refine (ih.eval hm fun h => (hes h).1).bind hm ?_
      intro v m' hm' _ hv
      refine (ih.evalAll hm' fun h => (hes h).2).bind hm' ?_
      rintro vs m'' _ hlater ⟨hlength, hvs⟩
      refine safe_pure ⟨by simp [hlength], ?_⟩
      intro w hw
      rcases List.mem_cons.mp hw with rfl | hw
      · exact hlater.has hv
      · exact hvs w hw

/-- An operation gives a value that is there, if its operands do. -/
theorem binary_succ (hm : m.Ready plain scope) (op : BinaryOp) (p : Position) {left right : Expr}
    (he : plain → left.Plain ∧ right.Plain) :
    (Eval.binary (n + 1) scope op p left right).Safe plain m fun v m' => m'.Has v := by
  refine (ih.eval hm fun h => (he h).1).bind hm ?_
  intro a m₁ hm₁ _ ha
  split
  · refine (ih.eval hm₁ fun h => (he h).2).bind hm₁ ?_
    intro b m₂ hm₂ hlater hb
    exact safe_step hm₂ (s := .applyBinary op a b (some p)) ⟨hlater.has ha, hb⟩ fun _ => trivial
  · refine (safe_expectBool a id).bind hm₁ ?_
    intro truth m₂ hm₂ _ _
    split
    · exact safe_pure trivial
    · refine (ih.eval hm₂ fun h => (he h).2).bind hm₂ ?_
      intro b m₃ hm₃ _ _
      refine (safe_expectBool b id).bind hm₃ ?_
      intro _ _ _ _ _
      exact safe_pure trivial

/-- A condition makes no broken access. -/
theorem holds_succ (hm : m.Ready plain scope) {condition : Expr} (he : plain → condition.Plain) :
    (Eval.holds (n + 1) scope condition).Safe plain m fun _ _ => True := by
  refine (ih.eval hm he).bind hm ?_
  intro v m' _ _ _
  exact safe_expectBool v id

/-- The index is compared with the length that the list has when it is used. -/
theorem element_succ (hm : m.Ready plain scope) (p : Position) (name : String) {index : Expr}
    (he : plain → index.Plain) :
    (Eval.element (n + 1) scope p name index).Safe plain m
      fun place m' => place.1 < m'.heap.size ∧ place.2 < (m'.heap.contents place.1).length := by
  refine (safe_readVariable hm name (some p)).bind hm ?_
  intro v m₁ hm₁ _ hv
  refine (safe_expectList v id).bind hm₁ ?_
  intro list m₂ hm₂ _ hlist
  refine (ih.eval hm₂ he).bind hm₂ ?_
  intro i m₃ hm₃ hlater₃ _
  have hlist₃ : list < m₃.heap.size := Nat.lt_of_lt_of_le (hlist hv) hlater₃.heap_le
  cases i with
  | int i =>
      refine (safe_listItems hm₃ hlist₃ (some p)).bind hm₃ ?_
      rintro items m₄ hm₄ hlater₄ rfl
      refine (safe_ofOption id (Heap.index? i (m₄.heap.contents list).length)).bind hm₄ ?_
      rintro k m₅ _ _ ⟨hk, rfl⟩
      exact safe_pure ⟨Nat.lt_of_lt_of_le hlist₃ hlater₄.heap_le, Heap.index?_lt hk⟩
  | _ => exact safe_fail id

/-- The call is accepted for as many arguments as its expressions give. -/
theorem call_succ (hm : m.Ready plain scope) (name : String) {arguments : List Expr}
    (he : plain → Expr.AllPlain arguments) (position : Option Position) :
    (Eval.call (n + 1) scope name arguments position).Safe plain m
      fun result m' => ∀ v ∈ result, m'.Has v := by
  refine (safe_step hm (s := .findFunction scope name position) hm.scope_lt
    fun _ => trivial).bind hm ?_
  intro f m₁ hm₁ _ hknown
  split
  next haccepts =>
    refine (ih.evalAll hm₁ he).bind hm₁ ?_
    rintro values m₂ hm₂ _ ⟨hlength, hvalues⟩
    have hf : plain → f.Plain := fun h => (hm₁.plain h).functions f hknown
    have hinner := hm₂.enterCall.pushScope scope
    apply safe_asCall (fun _ _ h => h)
    apply safe_inScope (fun _ _ _ h => h)
    refine (safe_bindArguments hinner f.signature position (hlength ▸ haccepts) hvalues).bind
      hinner ?_
    intro _ m₃ hm₃ _ _
    exact ih.invoke hm₃ hf position
  next => exact safe_fail id

/-- A function gives a value that is there; only code that is not plain calls functions of
the host. -/
theorem invoke_succ (hm : m.Ready plain scope) {f : Callable} (hf : plain → f.Plain)
    (position : Option Position) :
    (Eval.invoke (n + 1) f scope position).Safe plain m
      fun result m' => ∀ v ∈ result, m'.Has v := by
  cases f with
  | builtin f =>
      refine (safe_readVariable hm Builtin.param position).bind hm ?_
      intro v m₁ hm₁ _ hv
      refine (safe_builtinApply hm₁ f hv position).bind hm₁ ?_
      intro result m₂ _ _ hresult
      refine safe_pure ?_
      rintro w ⟨⟩
      exact hresult
  | host f =>
      have hplain : ¬ plain := hf
      apply safe_hostFunctionRun hm hplain
      intro script m' hm'
      exact ih.execute hm' fun h => absurd h hplain
  | script f =>
      refine (ih.exec hm (s := .block f.bodyPosition f.body) hf).bind hm ?_
      intro flow m' _ _ hflow
      exact safe_flowResult hflow

/-- A statement hands on a value that is there, if it hands one on. -/
theorem exec_succ (hm : m.Ready plain scope) {s : Statement} (hs : plain → s.Plain) :
    (Eval.exec (n + 1) scope s).Safe plain m fun flow m' => ∀ v ∈ flow.value?, m'.Has v := by
  have hinner := hm.pushScope scope
  cases s with
  | declare p name value =>
      have hnone : ∀ v ∈ (none : Option Value), m.Has v := nofun
      refine (safe_declareVariable hm name hnone (some p)).bind hm ?_
      intro _ m₁ hm₁ _ hdeclared
      cases value with
      | none => exact safe_pure nofun
      | some e =>
          refine (ih.eval hm₁ hs).bind hm₁ ?_
          intro v m₂ hm₂ hlater hv
          -- the initial value may have run any code, but the variable is still there
          refine (safe_fillVariable hm₂ (hlater.declares hdeclared) hv (some p)).bind hm₂ ?_
          intro _ _ _ _ _
          exact safe_pure nofun
  | evaluate _ e =>
      cases e with
      | call p name arguments =>
          refine (ih.call hm name hs (some p)).bind hm ?_
          intro _ _ _ _ _
          exact safe_pure nofun
      | _ =>
          refine (ih.eval hm hs).bind hm ?_
          intro _ _ _ _ _
          exact safe_pure nofun
  | block p statements =>
      apply safe_inScope (fun _ _ _ h => h)
      exact ih.execAll hinner hs
  | ifElse p condition thenBranch elseBranch =>
      apply safe_inScope (fun _ _ _ h => h)
      cases elseBranch with
      | none =>
          refine (ih.holds hinner fun h => (hs h).1).bind hinner ?_
          intro truth m' hm' _ _
          cases truth with
          | true => exact ih.exec hm' fun h => (hs h).2
          | false => exact safe_pure nofun
      | some s =>
          refine (ih.holds hinner fun h => (hs h).1).bind hinner ?_
          intro truth m' hm' _ _
          cases truth with
          | true => exact ih.exec hm' fun h => (hs h).2.1
          | false => exact ih.exec hm' fun h => (hs h).2.2
  | whileLoop p condition body =>
      apply safe_inScope (fun _ _ _ h => h)
      exact ih.whileRounds hinner condition body hs
  | forLoop p counter start condition step body =>
      have hplain : ¬ plain := hs
      apply safe_inScope (fun _ _ _ h => h)
      refine (ih.eval hinner fun h => absurd h hplain).bind hinner ?_
      intro first m₁ hm₁ _ hfirst
      cases counter with
      | some name =>
          have hvalue : ∀ v ∈ some first, m₁.Has v := by
            rintro v ⟨⟩
            exact hfirst
          refine (safe_declareVariable hm₁ name hvalue (some p)).bind hm₁ ?_
          intro _ m₂ hm₂ _ _
          exact ih.forRounds hm₂ condition step body hplain
      | none => exact ih.forRounds hm₁ condition step body hplain
  | forEach p item collection body =>
      refine (ih.eval hm fun h => (hs h).1).bind hm ?_
      intro v m₁ hm₁ _ hv
      refine (safe_expectList v id).bind hm₁ ?_
      intro list m₂ hm₂ _ hlist
      have hinner₂ := hm₂.pushScope scope
      have hnone : ∀ v ∈ (none : Option Value), (m₂.pushScope scope).Has v := nofun
      apply safe_inScope (fun _ _ _ h => h)
      refine (safe_declareVariable hinner₂ item hnone (some p)).bind hinner₂ ?_
      intro _ m₃ hm₃ hlater₃ hdeclared
      have hlist₃ : list < m₃.heap.size := Nat.lt_of_lt_of_le (hlist hv) hlater₃.heap_le
      exact ih.forEachRounds hm₃ p hdeclared hlist₃ 0 fun h => (hs h).2
  | returns p value =>
      cases value with
      | none => exact safe_pure nofun
      | some e =>
          refine (ih.eval hm hs).bind hm ?_
          intro v m' _ _ hv
          refine safe_pure ?_
          rintro w ⟨⟩
          exact hv
  | breaks p => exact safe_pure nofun
  | continues p => exact safe_pure nofun

theorem execAll_succ (hm : m.Ready plain scope) {ss : List Statement}
    (hss : plain → Statement.AllPlain ss) :
    (Eval.execAll (n + 1) scope ss).Safe plain m fun flow m' => ∀ v ∈ flow.value?, m'.Has v := by
  cases ss with
  | nil => exact safe_pure nofun
  | cons s rest =>
      refine (ih.exec hm fun h => (hss h).1).bind hm ?_
      intro flow m' hm' _ hflow
      cases flow with
      | normal => exact ih.execAll hm' fun h => (hss h).2
      | _ => exact safe_pure hflow

theorem whileRounds_succ (hm : m.Ready plain scope) (condition : Expr) (body : Statement)
    (hplain : ¬ plain) :
    (Eval.whileRounds (n + 1) scope condition body).Safe plain m
      fun flow m' => ∀ v ∈ flow.value?, m'.Has v := by
  refine (ih.holds hm fun h => absurd h hplain).bind hm ?_
  intro truth m₁ hm₁ _ _
  cases truth with
  | true =>
      refine (ih.exec hm₁ fun h => absurd h hplain).bind hm₁ ?_
      intro flow m₂ hm₂ _ hflow
      exact safe_afterRound hflow (ih.whileRounds hm₂ condition body hplain)
  | false => exact safe_pure nofun

theorem forRounds_succ (hm : m.Ready plain scope) (condition step : Expr) (body : Statement)
    (hplain : ¬ plain) :
    (Eval.forRounds (n + 1) scope condition step body).Safe plain m
      fun flow m' => ∀ v ∈ flow.value?, m'.Has v := by
  refine (ih.holds hm fun h => absurd h hplain).bind hm ?_
  intro truth m₁ hm₁ _ _
  cases truth with
  | true =>
      refine (ih.exec hm₁ fun h => absurd h hplain).bind hm₁ ?_
      intro flow m₂ hm₂ _ hflow
      apply safe_afterRound hflow
      refine (ih.eval hm₂ fun h => absurd h hplain).bind hm₂ ?_
      intro _ m₃ hm₃ _ _
      exact ih.forRounds hm₃ condition step body hplain
  | false => exact safe_pure nofun

/-- The list is read anew in every round, and the item is still declared in the scope of
the loop. -/
theorem forEachRounds_succ (hm : m.Ready plain scope) (p : Position) {item : String}
    (hitem : m.Declares scope (Name.fold item)) {id : ListId} (hid : id < m.heap.size)
    (index : Nat) {body : Statement} (hbody : plain → body.Plain) :
    (Eval.forEachRounds (n + 1) scope p item id index body).Safe plain m
      fun flow m' => ∀ v ∈ flow.value?, m'.Has v := by
  refine (safe_listItems hm hid (some p)).bind hm ?_
  rintro items m₁ hm₁ hlater₁ rfl
  split
  next => exact safe_pure nofun
  next v hv =>
    have hhas : m₁.Has v := hm₁.sound.cells id v (List.mem_of_getElem? hv)
    refine (safe_fillVariable hm₁ (hlater₁.declares hitem) hhas (some p)).bind hm₁ ?_
    intro _ m₂ hm₂ hlater₂ _
    refine (ih.exec hm₂ hbody).bind hm₂ ?_
    intro flow m₃ hm₃ hlater₃ hflow
    have hlater := (hlater₁.trans hlater₂).trans hlater₃
    apply safe_afterRound hflow
    exact ih.forEachRounds hm₃ p (hlater.declares hitem)
      (Nat.lt_of_lt_of_le hid hlater.heap_le) (index + 1) hbody

/-- A script gives a value that is there, when its scope is gone too. -/
theorem execute_succ (hm : m.Ready plain scope) {script : Script} (hs : plain → script.Plain) :
    (Eval.execute (n + 1) script).Safe plain m fun result m' => ∀ v ∈ result, m'.Has v := by
  have hinner := hm.pushScope Arena.host
  apply safe_inScope (fun _ _ _ h => h)
  refine (safe_declareBuiltins hinner Builtin.all).bind hinner ?_
  intro _ m₁ hm₁ _ _
  refine (safe_declareFunctions hm₁ fun h => (hs h).2).bind hm₁ ?_
  intro _ m₂ hm₂ _ _
  refine (ih.execAll hm₂ fun h => (hs h).1).bind hm₂ ?_
  intro flow m₃ _ _ hflow
  exact safe_flowResult hflow

end SafeUpTo

/-- **The evaluator is safe.**  By induction on the fuel: each function meets the domain
of the steps that it takes, and hands on a machine that is ready. -/
theorem safeUpTo (plain : Prop) (n : Nat) : SafeUpTo plain n := by
  induction n with
  | zero => constructor <;> intros <;> exact safe_starve
  | succ n ih =>
      exact ⟨ih.eval_succ, ih.evalAll_succ, ih.binary_succ, ih.holds_succ, ih.element_succ,
        ih.call_succ, ih.invoke_succ, ih.exec_succ, ih.execAll_succ, ih.whileRounds_succ,
        ih.forRounds_succ, ih.forEachRounds_succ, ih.execute_succ⟩

end Eval

/-! ## Scripts on a new machine -/

/-- A machine that a host has set up and run nothing on: there is only the host scope,
no call is in progress, and what the host's variables and lists refer to is there. -/
structure Machine.SetUp (m : Machine) : Prop where
  size_eq : m.scopes.size = 1
  orderly : Moment.Orderly ⟨0, m⟩
  sound : m.Sound

namespace Machine.SetUp

variable {m : Machine}

/-- A new machine is set up, whatever its limit. -/
theorem initial (maxCallDepth : Nat) : (Machine.initial maxCallDepth).SetUp where
  size_eq := rfl
  orderly := (Reachable.initial maxCallDepth).orderly
  sound := by
    refine ⟨?_, ?_⟩
    · intro i s hs
      have hempty : s ∈ Arena.initial := Array.mem_of_getElem? hs
      rw [Array.mem_singleton.mp hempty]
      exact Scope.within_empty none _
    · intro id v hv
      exact absurd (Heap.lt_size_of_mem_contents hv) (Nat.not_lt_zero id)

/-- The host defines a variable, a function or a list by a step in its domain. -/
theorem perform {α : Type} (hm : m.SetUp) (s : Step α) (hs : s.InDomain m) :
    (s.perform m).2.SetUp where
  size_eq := (Machine.size_eq_of_frame_eq (s.perform_frame m)).trans hm.size_eq
  orderly := hm.orderly.of_frame_eq (s.perform_frame m)
  sound := (s.perform_change m).sound hm.sound hs

/-- A machine that a host has set up is ready to run code in the host scope. -/
theorem ready (hm : m.SetUp) : m.Ready False Arena.host where
  sound := hm.sound
  plain := False.elim
  scope_lt := hm.orderly.size_pos

end Machine.SetUp

/-- A machine whose host has lent functions is set up. -/
theorem Session.setUp_start (maxCallDepth : Nat) (functions : List HostFunction) :
    (Session.start maxCallDepth functions).SetUp := by
  have hfold : ∀ (fs : List HostFunction) (m : Machine), m.SetUp →
      (fs.foldl (fun m f => (Session.defineFunction (.host f) m).2) m).SetUp := by
    intro fs
    induction fs with
    | nil => exact fun _ hm => hm
    | cons f fs ih =>
        intro m hm
        exact ih _ (hm.perform (.declareFunction Arena.host (.host f) none) hm.orderly.size_pos)
  exact hfold functions _ (.initial maxCallDepth)

/-- **No access of a script fails.**  On a machine that a host has set up, with whatever
variables, functions and limit, no run of a script ends in a broken access.  At each of
its moments the scopes and calls are in order and no variable and no list refers to a
list that is not there; each of its steps is taken in its domain, as is the value that
the script gives; and a variable that is filled after its declaration is found in the
scope that has declared it. -/
theorem Script.every_access_in_domain {m : Machine} (hm : m.SetUp) (script : Script) (fuel : Nat) :
    (∀ access position, ((Eval.execute fuel script).run m).1 ≠
      .failed ⟨.brokenAccess access, position⟩) ∧
    (∀ p ∈ (Eval.execute fuel script).moments 0 m, p.Orderly ∧ p.machine.Sound) ∧
    (∀ t ∈ (Eval.execute fuel script).taken m, t.step.InDomain t.machine) ∧
    (∀ scope name value position m',
      ⟨.fillVariable scope name value position, m'⟩ ∈ (Eval.execute fuel script).taken m →
        m'.scopes.owner? scope name = some scope) ∧
    (∀ v m', (Eval.execute fuel script).run m = (.done (some v), m') → m'.Has v) := by
  have hsafe : (Eval.execute fuel script).Safe False m fun result m' => ∀ v ∈ result, m'.Has v :=
    (Eval.safeUpTo False fuel).execute hm.ready False.elim
  have hlocal := (Eval.localUpTo fuel).execute Arena.host script
  refine ⟨?_, ?_, fun t ht => (hsafe.taken t ht).1, ?_, ?_⟩
  · intro access position hbroken
    have hended := hsafe.ended
    rcases hrun : (Eval.execute fuel script).run m with ⟨outcome, m'⟩
    rw [hrun] at hended hbroken
    cases hbroken
    exact hended trivial
  · intro p hp
    exact ⟨Eval.moments_orderly _ hlocal hm.orderly.size_pos hm.orderly p hp,
      (hsafe.sound hm.sound).2.2 0 p hp⟩
  · intro scope name value position m' ht
    obtain ⟨⟨s, hs, hname⟩, _⟩ := (hsafe.taken _ ht).1
    exact Arena.owner?_eq_self hs hname
  · intro v m' hrun
    exact hsafe.of_run_eq_done hrun v rfl

/-- A script that empties a list while it works out the index of one of its elements:
`var list = [1, 2]; list[clear(list)] = 3;`. -/
def Script.clearedList : Script :=
  ⟨"main",
    [.declare ⟨"main", 1, 1⟩ "list" (some (.list ⟨"main", 1, 12⟩
        [.literal ⟨"main", 1, 13⟩ (.int 1), .literal ⟨"main", 1, 16⟩ (.int 2)])),
      .ofExpr (.assignElement ⟨"main", 1, 20⟩ ⟨"main", 1, 20⟩ "list"
        (.call ⟨"main", 1, 25⟩ "clear" [.var ⟨"main", 1, 31⟩ "list"])
        (.literal ⟨"main", 1, 40⟩ (.int 3)))],
    []⟩

/-- The index was in range when the script named the list and is not when it is used: the
script is refused, and every access is in its domain. -/
theorem Script.every_access_in_domain_clearedList :
    (Session.start 1 [.clear]).SetUp ∧
    ((Eval.execute 20 clearedList).run (Session.start 1 [.clear])).1 =
      .failed ⟨.indexOutOfRange 0, some ⟨"main", 1, 25⟩⟩ ∧
    ∀ t ∈ (Eval.execute 20 clearedList).taken (Session.start 1 [.clear]),
      t.step.InDomain t.machine := by
  have hstart := Session.setUp_start 1 [.clear]
  exact ⟨hstart, by decide +kernel, (every_access_in_domain hstart clearedList 20).2.2.1⟩

end Scriptlet
