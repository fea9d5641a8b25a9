import Scriptlet.Proofs.Activation
import Scriptlet.Proofs.Fuel

/-!
# The course of a call

A call takes one of six courses (`Eval.Course`).  Its function is not known, or does not take
that many arguments; an argument fails; one more call may not be in progress; two of the names
that are to be bound are the same; or the function is run.  Which one it is depends on the
machine and the arguments alone, and the relation `Eval.Called` says it for each course,
together with how the call ends.

The arguments are evaluated in the scope of the caller, each on the machine that the one
before it leaves (`Eval.Evaluated`).  The function is run on a machine that differs from the one
after the last argument in three things: one more call is in progress, there is a new scope
with exactly the arguments in it, and the list of the extra arguments if the function is
variadic (`Machine.activated`).

Fuel plays no part in this: `Eval.EndsWith` says that a computation ends in some way if it
only has the fuel.
-/

namespace Scriptlet.Eval

/-! ## Arguments -/

/-- Expressions have these values, evaluated from left to right, each one once and on the
machine that the one before it leaves. -/
inductive Evaluated (scope : ScopeId) : Machine → List Expr → List Value → Machine → Prop where
  | nil {m : Machine} : Evaluated scope m [] [] m
  | cons {m m₁ m₂ : Machine} {e : Expr} {es : List Expr} {v : Value} {vs : List Value}
      (hfirst : EndsWith (fun n => eval n scope e) m (.done v, m₁))
      (hrest : Evaluated scope m₁ es vs m₂) : Evaluated scope m (e :: es) (v :: vs) m₂

/-- One of the expressions fails after those before it were evaluated.  Those after it are
not. -/
def ArgumentFails (scope : ScopeId) (m : Machine) (es : List Expr) (fault : Fault)
    (m' : Machine) : Prop :=
  ∃ before e after values m₁, es = before ++ e :: after ∧ Evaluated scope m before values m₁ ∧
    EndsWith (fun n => eval n scope e) m₁ (.failed fault, m')

variable {m m' : Machine} {scope : ScopeId} {es : List Expr} {values : List Value}

/-- There is one value for each expression. -/
theorem Evaluated.length_eq (h : Evaluated scope m es values m') :
    values.length = es.length := by
  induction h with
  | nil => rfl
  | cons _ _ ih => rw [List.length_cons, List.length_cons, ih]

/-- Evaluating the arguments leaves all scopes and calls in place. -/
theorem Evaluated.frame_eq (h : Evaluated scope m es values m') : m'.frame = m.frame := by
  induction h with
  | nil => rfl
  | @cons m m₁ m₂ e es v vs hfirst _ ih =>
      obtain ⟨-, n, hn⟩ := hfirst
      have hframe := (eval n scope e).run_frame m
      rw [hn] at hframe
      exact ih.trans hframe

/-- Evaluating arguments leaves as many scopes as there were. -/
theorem Evaluated.scopes_size_eq (h : Evaluated scope m es values m') :
    m'.scopes.size = m.scopes.size :=
  Machine.size_eq_of_frame_eq h.frame_eq

/-- Evaluating arguments leaves the limit on calls. -/
theorem Evaluated.maxCallDepth_eq (h : Evaluated scope m es values m') :
    m'.maxCallDepth = m.maxCallDepth :=
  congrArg Frame.maxCallDepth h.frame_eq

/-- Whether one more call fits is the same before the arguments and after them. -/
theorem Evaluated.depth_lt_iff (h : Evaluated scope m es values m') :
    m'.callDepth < m'.maxCallDepth ↔ m.callDepth < m.maxCallDepth := by
  have hcalls : m'.callDepth = m.callDepth := congrArg Frame.callDepth h.frame_eq
  rw [hcalls, h.maxCallDepth_eq]

/-- Without expressions there are no values, and the machine stays as it is. -/
theorem endsWith_evalAll_nil {r : Outcome Fault (List Value) × Machine} :
    EndsWith (fun n => evalAll n scope []) m r ↔ r = (.done [], m) := by
  rw [← endsWith_pure]
  exact endsWith_iff_of_succ rfl fun _ => rfl

/-- The first expression is evaluated first; if it fails, nothing else is. -/
theorem endsWith_evalAll_cons {e : Expr} {r : Outcome Fault (List Value) × Machine} :
    EndsWith (fun n => evalAll n scope (e :: es)) m r ↔
      (∃ fault m', r = (.failed fault, m') ∧
        EndsWith (fun n => eval n scope e) m (.failed fault, m')) ∨
      ∃ v m₁, EndsWith (fun n => eval n scope e) m (.done v, m₁) ∧
        ((∃ fault m', r = (.failed fault, m') ∧
          EndsWith (fun n => evalAll n scope es) m₁ (.failed fault, m')) ∨
        ∃ vs m', EndsWith (fun n => evalAll n scope es) m₁ (.done vs, m') ∧
          r = (.done (v :: vs), m')) := by
  have hrest : ∀ v : Value, Lasting fun n => evalAll n scope es >>= fun vs => pure (v :: vs) :=
    fun v n => (lasting_evalAll scope es n).bind fun _ => covered_refl _
  have hsucc : EndsWith (fun n => evalAll n scope (e :: es)) m r ↔
      EndsWith (fun n => eval n scope e >>= fun v =>
        evalAll n scope es >>= fun vs => pure (v :: vs)) m r :=
    endsWith_iff_of_succ rfl fun _ => rfl
  rw [hsucc, endsWith_bind_iff (lasting_eval scope e) hrest]
  simp only [endsWith_map_iff (lasting_evalAll scope es)]

/-- Expressions that all have values. -/
theorem endsWith_evalAll_done :
    EndsWith (fun n => evalAll n scope es) m (.done values, m') ↔
      Evaluated scope m es values m' := by
  induction es generalizing m values with
  | nil =>
      rw [endsWith_evalAll_nil]
      constructor
      · intro h
        cases h
        exact .nil
      · intro h
        cases h
        rfl
  | cons e es ih =>
      rw [endsWith_evalAll_cons]
      constructor
      · intro h
        rcases h with ⟨_, _, h, -⟩ | ⟨v, m₁, hfirst, ⟨_, _, h, -⟩ | ⟨vs, _, hrest, h⟩⟩
        · cases h
        · cases h
        · cases h
          exact .cons hfirst (ih.mp hrest)
      · intro h
        cases h with
        | @cons _ m₁ _ _ _ v vs hfirst hrest =>
            exact .inr ⟨v, m₁, hfirst, .inr ⟨vs, m', ih.mpr hrest, rfl⟩⟩

/-- Expressions of which one fails. -/
theorem endsWith_evalAll_failed {fault : Fault} :
    EndsWith (fun n => evalAll n scope es) m (.failed fault, m') ↔
      ArgumentFails scope m es fault m' := by
  induction es generalizing m with
  | nil =>
      rw [endsWith_evalAll_nil]
      constructor
      · intro h
        cases h
      · intro h
        obtain ⟨before, e, after, _, _, hes, _⟩ := h
        simp at hes
  | cons e es ih =>
      rw [endsWith_evalAll_cons]
      constructor
      · intro h
        rcases h with ⟨_, _, h, hfirst⟩ | ⟨v, m₁, hfirst, ⟨_, _, h, hrest⟩ | ⟨_, _, -, h⟩⟩
        · cases h
          exact ⟨[], e, es, [], m, rfl, .nil, hfirst⟩
        · cases h
          obtain ⟨before, e', after, values, m₂, rfl, hbefore, hfails⟩ := ih.mp hrest
          exact ⟨e :: before, e', after, v :: values, m₂, rfl, .cons hfirst hbefore, hfails⟩
        · cases h
      · intro h
        obtain ⟨before, e', after, values, m₂, hes, hbefore, hfails⟩ := h
        cases hbefore with
        | nil =>
            cases hes
            exact .inl ⟨fault, m', rfl, hfails⟩
        | @cons _ m₁ _ _ before v vs hfirst hrest =>
            cases hes
            exact .inr ⟨v, m₁, hfirst,
              .inl ⟨fault, m', rfl, ih.mpr ⟨before, e', after, vs, m₂, rfl, hrest, hfails⟩⟩⟩

/-! ## Courses -/

/-- The courses that a call can take. -/
inductive Course where
  /-- No function of that name is in sight. -/
  | unknown
  /-- The function does not take that many arguments. -/
  | miscounted
  /-- An argument fails. -/
  | argumentFailed
  /-- As many calls are in progress as may be. -/
  | tooDeep
  /-- Two names that are to be bound are the same. -/
  | clashing
  /-- The function is run. -/
  | entered

/-- The name means the function in the scope, and this takes so many arguments. -/
structure Takes (m : Machine) (scope : ScopeId) (name : String) (count : Nat) (f : Callable) :
    Prop where
  found : m.scopes.findFunction? scope name = some f
  accepts : f.signature.accepts count = true

/-- The course that a call takes, and how it ends. -/
inductive Called (scope : ScopeId) (name : String) (arguments : List Expr)
    (position : Option Position) (m : Machine) :
    Course → Outcome Fault (Option Value) × Machine → Prop where
  | unknown (hfound : m.scopes.findFunction? scope name = none) :
      Called scope name arguments position m .unknown
        (.failed ⟨.functionNotDefined name, position⟩, m)
  | miscounted {f : Callable} (hfound : m.scopes.findFunction? scope name = some f)
      (hcount : f.signature.accepts arguments.length = false) :
      Called scope name arguments position m .miscounted
        (.failed ⟨.parameterCountMismatch f.signature.name, position⟩, m)
  | argumentFailed {f : Callable} (hf : Takes m scope name arguments.length f) {fault : Fault}
      {m' : Machine} (hfails : ArgumentFails scope m arguments fault m') :
      Called scope name arguments position m .argumentFailed (.failed fault, m')
  | tooDeep {f : Callable} (hf : Takes m scope name arguments.length f) {values : List Value}
      {m' : Machine} (hvalues : Evaluated scope m arguments values m')
      (hdepth : m.maxCallDepth ≤ m.callDepth) :
      Called scope name arguments position m .tooDeep
        (.failed ⟨.callDepthExceeded m.maxCallDepth, position⟩, m')
  /-- Two parameters are the same. -/
  | clashing {f : Callable} (hf : Takes m scope name arguments.length f) {values : List Value}
      {m' : Machine} (hvalues : Evaluated scope m arguments values m')
      (hdepth : m.callDepth < m.maxCallDepth) {param : String}
      (hrepeated : Name.Repeated f.signature.params param) :
      Called scope name arguments position m .clashing
        (.failed ⟨.variableAlreadyDefined param, position⟩, m')
  /-- A parameter is called `...`, and there are extra arguments to be bound to this name. -/
  | clashingRest {f : Callable} (hf : Takes m scope name arguments.length f)
      {values : List Value} {m' : Machine} (hvalues : Evaluated scope m arguments values m')
      (hdepth : m.callDepth < m.maxCallDepth) (hvariadic : f.signature.variadic = true)
      (hparams : (f.signature.params.map Name.fold).Nodup)
      (hmem : Name.fold Name.variadic ∈ f.signature.params.map Name.fold) :
      Called scope name arguments position m .clashing
        (.failed ⟨.variableAlreadyDefined Name.variadic, position⟩,
          m'.withList (values.drop f.signature.params.length))
  | entered {f : Callable} (hf : Takes m scope name arguments.length f) {values : List Value}
      {m' m'' : Machine} (hvalues : Evaluated scope m arguments values m')
      (hdepth : m.callDepth < m.maxCallDepth)
      (hnames : (f.signature.names.map Name.fold).Nodup) {outcome : Outcome Fault (Option Value)}
      (hbody : EndsWith (fun n => invoke n f m.scopes.size position)
        (m'.activated scope f.signature values) (outcome, m'')) :
      Called scope name arguments position m .entered
        (outcome, (m''.keepScopes m.scopes.size).leaveCall)

variable {name : String} {arguments : List Expr} {position : Option Position} {f : Callable}
  {r : Outcome Fault (Option Value) × Machine}

/-- What is left of a call when its arguments have values. -/
def activation (n : Nat) (scope : ScopeId) (f : Callable) (values : List Value)
    (position : Option Position) : Eval (Option Value) :=
  asCall position (inScope scope fun activation => do
    bindArguments f.signature values activation position
    invoke n f activation position)

/-- With more fuel an activation that has ended ends in the same way. -/
theorem lasting_activation (scope : ScopeId) (f : Callable) (values : List Value)
    (position : Option Position) : Lasting fun n => activation n scope f values position :=
  fun n => covered_asCall (covered_inScope fun _ =>
    covered_bind _ fun _ => lasting_invoke f _ position n)

/-- A call whose function is found is a run of its arguments and then of its function. -/
theorem endsWith_call_iff (hscope : scope < m.scopes.size)
    (hf : Takes m scope name arguments.length f) :
    EndsWith (fun n => call n scope name arguments position) m r ↔
      (∃ fault m', r = (.failed fault, m') ∧ ArgumentFails scope m arguments fault m') ∨
        ∃ values m', Evaluated scope m arguments values m' ∧
          EndsWith (fun n => activation n scope f values position) m' r := by
  have hfound := Step.perform_findFunction_of_some hscope hf.found position
  have hsucc : EndsWith (fun n => call n scope name arguments position) m r ↔
      EndsWith (fun n => evalAll n scope arguments >>= fun values =>
        activation n scope f values position) m r := by
    refine endsWith_iff_of_succ rfl fun n => (Run.bind_done hfound _).trans ?_
    dsimp only
    rw [if_pos hf.accepts]
    rfl
  rw [hsucc, endsWith_bind_iff (lasting_evalAll scope arguments)
    fun values => lasting_activation scope f values position]
  simp only [endsWith_evalAll_failed, endsWith_evalAll_done]

/-- A call of an unknown name ends there, before any argument is evaluated. -/
theorem endsWith_call_unknown (hscope : scope < m.scopes.size)
    (hfound : m.scopes.findFunction? scope name = none) :
    EndsWith (fun n => call n scope name arguments position) m r ↔
      r = (.failed ⟨.functionNotDefined name, position⟩, m) := by
  have hfailed := Step.perform_findFunction_of_none hscope hfound position
  rw [← endsWith_fail]
  exact endsWith_iff_of_succ rfl fun n => Run.bind_failed hfailed _

/-- A call with a wrong number of arguments ends there, before any argument is evaluated. -/
theorem endsWith_call_miscounted (hscope : scope < m.scopes.size)
    (hfound : m.scopes.findFunction? scope name = some f)
    (hcount : f.signature.accepts arguments.length = false) :
    EndsWith (fun n => call n scope name arguments position) m r ↔
      r = (.failed ⟨.parameterCountMismatch f.signature.name, position⟩, m) := by
  have hdone := Step.perform_findFunction_of_some hscope hfound position
  rw [← endsWith_fail]
  refine endsWith_iff_of_succ rfl fun n => (Run.bind_done hdone _).trans ?_
  dsimp only
  rw [if_neg (Bool.eq_false_iff.mp hcount)]

/-! ### After the arguments -/

/-- With as many calls in progress as may be, the call ends before its scope is opened. -/
theorem endsWith_activation_tooDeep (hdepth : ¬ m.callDepth < m.maxCallDepth) :
    EndsWith (fun n => activation n scope f values position) m r ↔
      r = (.failed ⟨.callDepthExceeded m.maxCallDepth, position⟩, m) := by
  apply endsWith_iff_of_run_eq
  · intro n
    simp only [activation, run, if_neg hdepth]
  · simp

/-- A call that may begin opens its scope, binds the arguments there and runs its function. -/
theorem run_activation (hdepth : m.callDepth < m.maxCallDepth) {n : Nat}
    {outcome : Outcome Fault (Option Value)}
    (hbody : (bindArguments f.signature values m.scopes.size position >>= fun _ =>
      invoke n f m.scopes.size position) (m.enterCall.pushScope scope) = (outcome, m')) :
    activation n scope f values position m =
      (outcome, (m'.keepScopes m.scopes.size).leaveCall) := by
  refine (run_asCall position _ hdepth).trans ?_
  have hscoped : (inScope scope fun activation =>
      bindArguments f.signature values activation position >>= fun _ =>
        invoke n f activation position) m.enterCall = (outcome, m'.keepScopes m.scopes.size) :=
    congrArg (fun r => (r.1, r.2.keepScopes m.scopes.size)) hbody
  rw [hscoped]

/-- What has been bound before a clash is gone after the call. -/
theorem endsWith_activation_of_failed (hdepth : m.callDepth < m.maxCallDepth) {fault : Fault}
    {bound : List (String × Value)} (hsize : m'.scopes.size = m.scopes.size)
    (hbind : bindArguments f.signature values m.scopes.size position
      (m.enterCall.pushScope scope) = (.failed fault, m'.enterCall.opened scope bound)) :
    EndsWith (fun n => activation n scope f values position) m r ↔ r = (.failed fault, m') := by
  apply endsWith_iff_of_run_eq
  · intro n
    have hkept : (m'.enterCall.opened scope bound).keepScopes m'.scopes.size = m'.enterCall :=
      m'.enterCall.keepScopes_opened scope bound
    rw [run_activation hdepth (Run.bind_failed hbind _), ← hsize, hkept]
    rfl
  · simp

/-- If a parameter is repeated, the call ends with the first repetition. -/
theorem endsWith_activation_clashing (hdepth : m.callDepth < m.maxCallDepth)
    (hlength : f.signature.params.length ≤ values.length) {param : String}
    (hrepeated : Name.Repeated f.signature.params param) :
    EndsWith (fun n => activation n scope f values position) m r ↔
      r = (.failed ⟨.variableAlreadyDefined param, position⟩, m) := by
  obtain ⟨bound, hbind⟩ := run_bindArguments_of_repeated hlength hrepeated
  exact endsWith_activation_of_failed hdepth rfl hbind

/-- If a variadic function has a parameter `...` besides, the call ends when the extra
arguments are to be bound. -/
theorem endsWith_activation_clashingRest (hdepth : m.callDepth < m.maxCallDepth)
    (hlength : f.signature.params.length ≤ values.length)
    (hvariadic : f.signature.variadic = true)
    (hparams : (f.signature.params.map Name.fold).Nodup)
    (hmem : Name.fold Name.variadic ∈ f.signature.params.map Name.fold) :
    EndsWith (fun n => activation n scope f values position) m r ↔
      r = (.failed ⟨.variableAlreadyDefined Name.variadic, position⟩,
        m.withList (values.drop f.signature.params.length)) :=
  endsWith_activation_of_failed hdepth rfl
    (run_bindArguments_of_mem hlength hvariadic hparams hmem)

/-- Otherwise the function is run in its activation scope, and its ending is that of the
call; the scope and the count of calls are taken back. -/
theorem endsWith_activation_entered (hdepth : m.callDepth < m.maxCallDepth)
    (hlength : f.signature.params.length ≤ values.length)
    (hnames : (f.signature.names.map Name.fold).Nodup) :
    EndsWith (fun n => activation n scope f values position) m r ↔
      ∃ outcome m', r = (outcome, (m'.keepScopes m.scopes.size).leaveCall) ∧
        EndsWith (fun n => invoke n f m.scopes.size position)
          (m.activated scope f.signature values) (outcome, m') := by
  have hrun : ∀ n, activation n scope f values position m =
      ((invoke n f m.scopes.size position (m.activated scope f.signature values)).1,
        ((invoke n f m.scopes.size position
          (m.activated scope f.signature values)).2.keepScopes m.scopes.size).leaveCall) :=
    fun n => run_activation hdepth (Run.bind_done (run_bindArguments hlength hnames) _)
  constructor
  · intro h
    obtain ⟨hended, n, rfl⟩ := h
    rw [hrun n] at hended ⊢
    exact ⟨_, _, rfl, hended, n, rfl⟩
  · intro h
    obtain ⟨outcome, m', rfl, hended, n, hn⟩ := h
    refine ⟨hended, n, ?_⟩
    rw [hrun n, hn]

/-! ### The course of a call -/

/-- A function that takes the arguments has a value for every parameter. -/
theorem Takes.length_le (hf : Takes m scope name arguments.length f)
    (hvalues : Evaluated scope m arguments values m') :
    f.signature.params.length ≤ values.length := by
  rw [hvalues.length_eq]
  exact Signature.length_le_of_accepts hf.accepts

/-- What can happen once the arguments have values. -/
theorem exists_called_of_activation (hf : Takes m scope name arguments.length f)
    (hvalues : Evaluated scope m arguments values m')
    (h : EndsWith (fun n => activation n scope f values position) m' r) :
    ∃ course, Called scope name arguments position m course r := by
  have hlength := hf.length_le hvalues
  by_cases hdepth : m.callDepth < m.maxCallDepth
  · have hdepth' := hvalues.depth_lt_iff.mpr hdepth
    by_cases hparams : (f.signature.params.map Name.fold).Nodup
    · by_cases hrest : f.signature.variadic = true ∧
          Name.fold Name.variadic ∈ f.signature.params.map Name.fold
      · obtain ⟨hvariadic, hmem⟩ := hrest
        rw [endsWith_activation_clashingRest hdepth' hlength hvariadic hparams hmem] at h
        exact ⟨.clashing, h ▸ .clashingRest hf hvalues hdepth hvariadic hparams hmem⟩
      · have hnames := Signature.nodup_names_iff.mpr ⟨hparams, hrest⟩
        obtain ⟨outcome, m'', rfl, hbody⟩ :=
          (endsWith_activation_entered hdepth' hlength hnames).mp h
        rw [hvalues.scopes_size_eq] at hbody ⊢
        exact ⟨.entered, .entered hf hvalues hdepth hnames hbody⟩
    · obtain ⟨param, hrepeated⟩ := Name.exists_repeated hparams
      rw [endsWith_activation_clashing hdepth' hlength hrepeated] at h
      exact ⟨.clashing, h ▸ .clashing hf hvalues hdepth hrepeated⟩
  · have hdeep := hvalues.depth_lt_iff.not.mpr hdepth
    rw [endsWith_activation_tooDeep hdeep, hvalues.maxCallDepth_eq] at h
    exact ⟨.tooDeep, h ▸ .tooDeep hf hvalues (Nat.le_of_not_lt hdepth)⟩

/-- **A call that ends has taken one of the courses.** -/
theorem exists_called (hscope : scope < m.scopes.size)
    (h : EndsWith (fun n => call n scope name arguments position) m r) :
    ∃ course, Called scope name arguments position m course r := by
  cases hfound : m.scopes.findFunction? scope name with
  | none =>
      rw [endsWith_call_unknown hscope hfound] at h
      exact ⟨.unknown, h ▸ .unknown hfound⟩
  | some f =>
      cases hcount : f.signature.accepts arguments.length with
      | false =>
          rw [endsWith_call_miscounted hscope hfound hcount] at h
          exact ⟨.miscounted, h ▸ .miscounted hfound hcount⟩
      | true =>
          have hf : Takes m scope name arguments.length f := ⟨hfound, hcount⟩
          rcases (endsWith_call_iff hscope hf).mp h with
            ⟨fault, m', rfl, hfails⟩ | ⟨values, m', hvalues, hrest⟩
          · exact ⟨.argumentFailed, .argumentFailed hf hfails⟩
          · exact exists_called_of_activation hf hvalues hrest

/-- **Every course is taken.** -/
theorem Called.endsWith (hscope : scope < m.scopes.size) {course : Course}
    (h : Called scope name arguments position m course r) :
    EndsWith (fun n => call n scope name arguments position) m r := by
  cases h with
  | unknown hfound => exact (endsWith_call_unknown hscope hfound).mpr rfl
  | miscounted hfound hcount => exact (endsWith_call_miscounted hscope hfound hcount).mpr rfl
  | argumentFailed hf hfails =>
      exact (endsWith_call_iff hscope hf).mpr (.inl ⟨_, _, rfl, hfails⟩)
  | tooDeep hf hvalues hdepth =>
      have hdeep := hvalues.depth_lt_iff.not.mpr (Nat.not_lt.mpr hdepth)
      refine (endsWith_call_iff hscope hf).mpr (.inr ⟨_, _, hvalues, ?_⟩)
      rw [endsWith_activation_tooDeep hdeep, hvalues.maxCallDepth_eq]
  | clashing hf hvalues hdepth hrepeated =>
      have hdepth' := hvalues.depth_lt_iff.mpr hdepth
      refine (endsWith_call_iff hscope hf).mpr (.inr ⟨_, _, hvalues, ?_⟩)
      exact (endsWith_activation_clashing hdepth' (hf.length_le hvalues) hrepeated).mpr rfl
  | clashingRest hf hvalues hdepth hvariadic hparams hmem =>
      have hdepth' := hvalues.depth_lt_iff.mpr hdepth
      refine (endsWith_call_iff hscope hf).mpr (.inr ⟨_, _, hvalues, ?_⟩)
      exact (endsWith_activation_clashingRest hdepth' (hf.length_le hvalues) hvariadic hparams
        hmem).mpr rfl
  | entered hf hvalues hdepth hnames hbody =>
      have hdepth' := hvalues.depth_lt_iff.mpr hdepth
      refine (endsWith_call_iff hscope hf).mpr (.inr ⟨_, _, hvalues, ?_⟩)
      rw [← hvalues.scopes_size_eq] at hbody ⊢
      exact (endsWith_activation_entered hdepth' (hf.length_le hvalues) hnames).mpr
        ⟨_, _, rfl, hbody⟩

/-- Arguments that all have values do not fail. -/
theorem Evaluated.not_argumentFails (h : Evaluated scope m arguments values m') {fault : Fault}
    {m'' : Machine} : ¬ ArgumentFails scope m arguments fault m'' := by
  intro hfails
  have hsame := (endsWith_evalAll_done.mpr h).unique (lasting_evalAll scope arguments)
    (endsWith_evalAll_failed.mpr hfails)
  cases hsame

/-- A call takes one course only. -/
theorem Called.course_unique {course course' : Course}
    {r' : Outcome Fault (Option Value) × Machine}
    (h : Called scope name arguments position m course r)
    (h' : Called scope name arguments position m course' r') : course = course' := by
  -- each course says that the test of the one before it was passed and its own was not
  cases h <;> cases h' <;> first | rfl | grind [Takes, Evaluated.not_argumentFails,
    Name.Repeated.not_nodup, Signature.nodup_names_iff]

/-- The steps of a sequence after a value are those of both parts. -/
theorem taken_bind_of_done {α β : Type} {x : Eval α} {g : α → Eval β} {a : α}
    (h : x.run m = (.done a, m')) : (x >>= g).taken m = x.taken m ++ (g a).taken m' := by
  simp only [bind, taken, h]

/-- The steps of a sequence that fails in its first part are those of that part. -/
theorem taken_bind_of_failed {α β : Type} {x : Eval α} {g : α → Eval β} {fault : Fault}
    (h : x.run m = (.failed fault, m')) : (x >>= g).taken m = x.taken m := by
  simp only [bind, taken, h, List.append_nil]

/-- A call that is refused before its arguments are evaluated does nothing but look the
function up. -/
theorem Called.taken_eq (hscope : scope < m.scopes.size) {course : Course}
    (h : Called scope name arguments position m course r)
    (hcourse : course = .unknown ∨ course = .miscounted) (n : Nat) :
    (call (n + 1) scope name arguments position).taken m =
      [⟨.findFunction scope name position, m⟩] := by
  cases h with
  | unknown hfound =>
      have hfailed : (findFunction scope name position).run m =
          (.failed ⟨.functionNotDefined name, position⟩, m) :=
        Step.perform_findFunction_of_none hscope hfound position
      rw [call, taken_bind_of_failed hfailed, taken]
  | @miscounted f hfound hcount =>
      have hdone : (findFunction scope name position).run m = (.done f, m) :=
        Step.perform_findFunction_of_some hscope hfound position
      rw [call, taken_bind_of_done hdone, taken, if_neg (Bool.eq_false_iff.mp hcount), taken]
      rfl
  | _ => simp at hcourse

/-- **The course of a call.**  In a scope of the machine, a call ends as the course says that it
takes, and it takes one course only, with one ending.  A call that is refused before its
arguments are evaluated has taken no step but the search for the function.  The scope in which
a function is run holds the arguments and nothing else, and a list of extra arguments that was
not in the heap before. -/
theorem call_course {m : Machine} {scope : ScopeId} (hscope : scope < m.scopes.size)
    (name : String) (arguments : List Expr) (position : Option Position) :
    (∀ r, EndsWith (fun n => call n scope name arguments position) m r ↔
      ∃ course, Called scope name arguments position m course r) ∧
    (∀ course course' r r', Called scope name arguments position m course r →
      Called scope name arguments position m course' r' → course = course' ∧ r = r') ∧
    (∀ course r, Called scope name arguments position m course r →
      course = .unknown ∨ course = .miscounted → ∀ n,
        (call (n + 1) scope name arguments position).taken m =
          [⟨.findFunction scope name position, m⟩]) ∧
    ∀ f values m', Takes m scope name arguments.length f →
      Evaluated scope m arguments values m' → (f.signature.names.map Name.fold).Nodup →
        (m'.activated scope f.signature values).HoldsArguments m.scopes.size f.signature values
          m'.heap.size := by
  refine ⟨fun r => ⟨exists_called hscope, ?_⟩, ?_, ?_, ?_⟩
  · intro h
    obtain ⟨course, h⟩ := h
    exact h.endsWith hscope
  · intro course course' r r' h h'
    exact ⟨h.course_unique h', (h.endsWith hscope).unique
      (lasting_call scope name arguments position) (h'.endsWith hscope)⟩
  · intro course r h hcourse n
    exact h.taken_eq hscope hcourse n
  · intro f values m' hf hvalues hnames
    rw [← hvalues.scopes_size_eq]
    exact m'.holdsArguments_activated scope (hf.length_le hvalues) hnames

/-- The arguments `", "`, `join("-", 1, 2)` and `"c"`. -/
def nestedArguments : List Expr :=
  [.literal ⟨"main", 1, 6⟩ (.str ", "),
    .call ⟨"main", 1, 12⟩ "join"
      [.literal ⟨"main", 1, 17⟩ (.str "-"), .literal ⟨"main", 1, 22⟩ (.int 1),
        .literal ⟨"main", 1, 25⟩ (.int 2)],
    .literal ⟨"main", 1, 29⟩ (.str "c")]

/-- A call with a call among its extra arguments is entered. -/
theorem call_course_nestedArguments :
    0 < (Session.start 1 [.join]).scopes.size ∧
      (call 30 0 "JOIN" nestedArguments none (Session.start 1 [.join])).1 =
        .done (some (.str "1-2, c")) ∧
      Called 0 "JOIN" nestedArguments none (Session.start 1 [.join]) .entered
        (call 30 0 "JOIN" nestedArguments none (Session.start 1 [.join])) := by
  have hscope : 0 < (Session.start 1 [.join]).scopes.size := by decide +kernel
  have hran : (call 30 0 "JOIN" nestedArguments none (Session.start 1 [.join])).1 =
      .done (some (.str "1-2, c")) := by
    decide +kernel
  refine ⟨hscope, hran, ?_⟩
  have hends : EndsWith (fun n => call n 0 "JOIN" nestedArguments none)
      (Session.start 1 [.join])
      (call 30 0 "JOIN" nestedArguments none (Session.start 1 [.join])) :=
    ⟨by rw [hran]; simp, 30, rfl⟩
  obtain ⟨course, hcalled⟩ := ((call_course hscope "JOIN" nestedArguments none).1 _).mp hends
  generalize call 30 0 "JOIN" nestedArguments none (Session.start 1 [.join]) = r at hran hcalled ⊢
  -- only a function that was run gives a value
  cases course with
  | entered => exact hcalled
  | _ => cases hcalled <;> cases hran

end Scriptlet.Eval
