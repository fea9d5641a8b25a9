import Scriptlet.Proofs.Safety

/-!
# Plain scripts end

Plain code has no `while` and no `for`, so what can keep it going is recursion,
`foreach` over a list that grows, and the descent of rendering and comparing into
a list that contains itself.  None of these goes on for ever:

* a call is refused once the limit is reached, so the number of calls that are
  still possible goes down along every chain of calls;
* plain code changes no list (`Machine.Grown`), so a `foreach` makes as many rounds
  as its list has elements at its start;
* the heap stays layered, so every descent into a list ends.

`Eval.Settles` says that a computation ends with enough fuel, and in the same way
with any more.  The proof is an induction on the calls that are still possible, and
within it one on the code.
-/

namespace Scriptlet

/-! ## What needs no fuel -/

/-- A failure is not for want of fuel. -/
theorem Outcome.failed_ne_outOfFuel {ε α : Type} (e : ε) :
    (.failed e : Outcome ε α) ≠ .outOfFuel := by
  intro hend
  cases hend

/-- A step ends by itself. -/
theorem Step.perform_ne_outOfFuel {α : Type} (s : Step α) (m : Machine) :
    (s.perform m).1 ≠ .outOfFuel := by
  have hin : ∀ {scope : ScopeId} {position : Option Position} {body : Run Machine Fault α},
      (body m).1 ≠ .outOfFuel → (inArena scope position body m).1 ≠ .outOfFuel := by
    intro scope position body hbody
    unfold inArena
    split
    · exact hbody
    · exact Outcome.failed_ne_outOfFuel _
  have hon : ∀ {id : ListId} {position : Option Position}
      {body : List Value → Run Machine Fault α},
      (body (m.heap.contents id) m).1 ≠ .outOfFuel →
        (onList id position body m).1 ≠ .outOfFuel := by
    intro id position body hbody
    unfold onList
    split
    · exact hbody
    · exact Outcome.failed_ne_outOfFuel _
  cases s with
  | declareVariable | declareFunction | assignVariable | fillVariable | findFunction
  | extraArguments | readVariable =>
      apply hin
      split <;> (intro hend; cases hend)
  | listItems | appendItem | clearList =>
      apply hon
      intro hend
      cases hend
  | readElement id i position =>
      apply hon
      cases (m.heap.contents id)[i]? <;> (intro hend; cases hend)
  | writeElement =>
      apply hon
      split <;> (intro hend; cases hend)
  | newList | render | printLine =>
      intro hend
      cases hend
  | applyBinary =>
      simp only [perform]
      split <;> (intro hend; cases hend)

namespace Eval

variable {α β : Type}

/-- The computation nowhere ends for want of fuel. -/
def Fuelless {α : Type} : Eval α → Prop
  | .pure _ => True
  | .bind x f => x.Fuelless ∧ ∀ a, (f a).Fuelless
  | .fail _ => True
  | .starve => False
  | .step _ => True
  | .inScope _ body => ∀ inner, (body inner).Fuelless
  | .asCall _ body => body.Fuelless

/-- A computation that nowhere ends for want of fuel does not on any machine. -/
theorem Fuelless.run_ne_outOfFuel {x : Eval α} (hx : x.Fuelless) (m : Machine) :
    (x.run m).1 ≠ .outOfFuel := by
  induction x generalizing m with
  | pure a =>
      intro hend
      cases hend
  | bind x f ihx ihf =>
      have hfirst := ihx hx.1 m
      simp only [run, Run.bind]
      rcases hrun : x.run m with ⟨a | e | _, m'⟩ <;> rw [hrun] at hfirst
      · exact ihf a (hx.2 a) m'
      · exact Outcome.failed_ne_outOfFuel e
      · exact absurd rfl hfirst
  | fail fault => exact Outcome.failed_ne_outOfFuel fault
  | starve => exact hx.elim
  | step s => exact s.perform_ne_outOfFuel m
  | inScope parent body ih => exact ih m.scopes.size (hx _) (m.pushScope parent)
  | asCall position body ih =>
      simp only [run]
      split
      · split
        · exact Outcome.failed_ne_outOfFuel _
        · exact ih hx m.enterCall
      · exact Outcome.failed_ne_outOfFuel _

theorem fuelless_ofOption (fault : Fault) (a? : Option α) : (ofOption fault a?).Fuelless := by
  cases a? <;> trivial

theorem fuelless_applyUnary (op : UnaryOp) (v : Value) (position : Option Position) :
    (applyUnary op v position).Fuelless := by
  unfold applyUnary
  split <;> trivial

theorem fuelless_expectBool (v : Value) (cause : Fault.Cause) (position : Option Position) :
    (expectBool v cause position).Fuelless := by
  unfold expectBool
  split <;> trivial

theorem fuelless_expectList (v : Value) (cause : Fault.Cause) (position : Option Position) :
    (expectList v cause position).Fuelless := by
  unfold expectList
  split <;> trivial

theorem fuelless_flowResult (flow : Flow) : flow.result.Fuelless := by
  cases flow <;> trivial

theorem fuelless_bindParams (scope : ScopeId) (position : Option Position) (params : List String)
    (values : List Value) : (bindParams scope position params values).Fuelless := by
  induction params generalizing values with
  | nil => trivial
  | cons param params ih =>
      cases values with
      | nil => trivial
      | cons value values => exact ⟨trivial, fun _ => ih values⟩

theorem fuelless_bindArguments (s : Signature) (values : List Value) (scope : ScopeId)
    (position : Option Position) : (bindArguments s values scope position).Fuelless := by
  refine ⟨fuelless_bindParams scope position s.params values, fun _ => ?_⟩
  dsimp only
  split
  · exact ⟨trivial, fun _ => trivial⟩
  · trivial

theorem fuelless_declareBuiltins (scope : ScopeId) (fs : List Builtin) :
    (declareBuiltins scope fs).Fuelless := by
  induction fs with
  | nil => trivial
  | cons f fs ih => exact ⟨trivial, fun _ => ih⟩

theorem fuelless_declareFunctions (scope : ScopeId) (fs : List FunctionDef) :
    (declareFunctions scope fs).Fuelless := by
  induction fs with
  | nil => trivial
  | cons f fs ih => exact ⟨trivial, fun _ => ih⟩

theorem fuelless_builtinApply (f : Builtin) (v : Value) (position : Option Position) :
    (f.apply v position).Fuelless := by
  cases f with
  | toText =>
      cases v with
      | str s => trivial
      | _ => exact ⟨trivial, fun _ => trivial⟩
  | toInt =>
      cases v with
      | double x => exact ⟨fuelless_ofOption _ _, fun _ => trivial⟩
      | _ => trivial
  | countOf =>
      exact ⟨fuelless_expectList v _ _, fun id =>
        ⟨trivial, fun items => ⟨fuelless_ofOption _ _, fun _ => trivial⟩⟩⟩

end Eval

/-! ## What plain code keeps -/

/-- The second machine comes after the first in a run of plain code: no list has changed. -/
structure Machine.Grown (m m' : Machine) : Prop extends m.Later m' where
  contents_eq : ∀ {id : ListId}, id < m.heap.size → m'.heap.contents id = m.heap.contents id

/-- A machine that is ready for plain code in a scope, with at most `calls` calls left
until the limit. -/
structure Machine.Poised (calls : Nat) (scope : ScopeId) (m : Machine) : Prop where
  ready : m.Ready True scope
  calls_le : m.maxCallDepth ≤ m.callDepth + calls

namespace Machine

variable {calls : Nat} {scope : ScopeId} {m : Machine}

/-- What has grown twice has grown. -/
theorem Grown.trans {m' m'' : Machine} (h : m.Grown m') (h' : m'.Grown m'') : m.Grown m'' where
  toLater := h.toLater.trans h'.toLater
  contents_eq hid := (h'.contents_eq (Nat.lt_of_lt_of_le hid h.heap_le)).trans (h.contents_eq hid)

/-- That no list of `m₀` has changed does not depend on scopes and calls. -/
theorem steady_contents (m₀ : Machine) : Steady fun m => m₀.heap.size ≤ m.heap.size ∧
    ∀ id < m₀.heap.size, m.heap.contents id = m₀.heap.contents id where
  pushScope _ h := h
  keepScopes _ h := h
  enterCall h := h
  leaveCall h := h

/-- A new scope leaves as many calls as there were. -/
theorem Poised.pushScope (hm : m.Poised calls scope) (parent : ScopeId) :
    (m.pushScope parent).Poised calls m.scopes.size :=
  ⟨hm.ready.pushScope parent, hm.calls_le⟩

/-- A call below the limit leaves one call less. -/
theorem Poised.enterCall (hm : m.Poised (calls + 1) scope) : m.enterCall.Poised calls scope := by
  refine ⟨hm.ready.enterCall, ?_⟩
  have hle := hm.calls_le
  show m.maxCallDepth ≤ m.callDepth + 1 + calls
  omega

end Machine

namespace Eval

variable {α β : Type} {calls : Nat} {scope : ScopeId} {m : Machine}

namespace Safe

variable {x : Eval α} {Q : α → Machine → Prop}

/-- A run of plain code changes no list. -/
theorem grown (hx : x.Safe True m Q) : m.Grown (x.run m).2 where
  toLater := run_later x m
  contents_eq {id} hid := by
    have hkept := steady_of_taken (Machine.steady_contents m) x ⟨Nat.le_refl _, fun _ _ => rfl⟩ ?_
    · exact hkept.1.2 id hid
    · intro t ht hm
      have hchange := t.step.perform_change t.machine
      refine ⟨Nat.le_trans hm.1 hchange.later.heap_le, ?_⟩
      intro id hid
      have hsame := hchange.contents_eq ((hx.taken t ht).2 trivial) (Nat.lt_of_lt_of_le hid hm.1)
      exact hsame.trans (hm.2 id hid)

/-- After a safe computation of plain code as many calls are left as before. -/
theorem poised (hx : x.Safe True m Q) (hm : m.Poised calls scope) :
    (x.run m).2.Poised calls scope := by
  obtain ⟨_, hdepth, hmax⟩ := Frame.mk.inj (run_frame x m)
  refine ⟨hx.ready hm.ready, ?_⟩
  rw [hdepth, hmax]
  exact hm.calls_le

end Safe

/-! ## Computations that end -/

/-- With enough fuel the computation ends, and in the same way with any more. -/
def Settles (x : Nat → Eval α) (m : Machine) : Prop :=
  ∃ fuel outcome m', outcome ≠ .outOfFuel ∧ ∀ n, fuel ≤ n → (x n).run m = (outcome, m')

/-- What needs no fuel settles. -/
theorem settles_of_fuelless {x : Eval α} (hx : x.Fuelless) (m : Machine) :
    Settles (fun _ => x) m :=
  ⟨0, _, _, hx.run_ne_outOfFuel m, fun _ _ => rfl⟩

theorem settles_pure (a : α) (m : Machine) : Settles (fun _ => pure a) m :=
  settles_of_fuelless (x := .pure a) trivial m

/-- A single step settles. -/
theorem settles_step (s : Step α) (m : Machine) : Settles (fun _ => Eval.step s) m :=
  settles_of_fuelless (x := .step s) trivial m

/-- A computation that spends one unit of fuel at its start settles if the rest does. -/
theorem settles_of_succ {x : Nat → Eval α} (hx : Settles (fun n => x (n + 1)) m) :
    Settles x m := by
  obtain ⟨fuel, outcome, m', hne, hrun⟩ := hx
  refine ⟨fuel + 1, outcome, m', hne, ?_⟩
  intro n hn
  obtain ⟨k, rfl⟩ : ∃ k, n = k + 1 := ⟨n - 1, by omega⟩
  exact hrun k (by omega)

/-- The rule for sequences of plain code. -/
theorem Settles.bind {x : Nat → Eval α} {f : Nat → α → Eval β} {P : α → Machine → Prop}
    (hx : Settles x m) (hsafe : ∀ n, (x n).Safe True m P) (hm : m.Poised calls scope)
    (hf : ∀ a m', m'.Poised calls scope → m.Grown m' → P a m' → Settles (fun n => f n a) m') :
    Settles (fun n => x n >>= f n) m := by
  obtain ⟨fuel, outcome, m', hne, hrun⟩ := hx
  cases outcome with
  | done a =>
      have hlast := hrun fuel (Nat.le_refl _)
      have hpoised := (hsafe fuel).poised hm
      have hgrown := (hsafe fuel).grown
      rw [hlast] at hpoised hgrown
      obtain ⟨fuel', outcome, m'', hne', hrun'⟩ :=
        hf a m' hpoised hgrown ((hsafe fuel).of_run_eq_done hlast)
      refine ⟨max fuel fuel', outcome, m'', hne', ?_⟩
      intro n hn
      show Run.bind (x n).run (fun a => (f n a).run) m = _
      unfold Run.bind
      rw [hrun n (by omega)]
      exact hrun' n (by omega)
  | failed fault =>
      refine ⟨fuel, .failed fault, m', Outcome.failed_ne_outOfFuel fault, ?_⟩
      intro n hn
      show Run.bind (x n).run (fun a => (f n a).run) m = _
      unfold Run.bind
      rw [hrun n hn]
  | outOfFuel => exact absurd rfl hne

/-- The rule for scopes. -/
theorem settles_inScope {body : Nat → ScopeId → Eval α} {parent : ScopeId}
    (hbody : Settles (fun n => body n m.scopes.size) (m.pushScope parent)) :
    Settles (fun n => inScope parent (body n)) m := by
  obtain ⟨fuel, outcome, m', hne, hrun⟩ := hbody
  refine ⟨fuel, outcome, m'.keepScopes m.scopes.size, hne, ?_⟩
  intro n hn
  simp only [run, hrun n hn]

/-- The rule for calls: beyond the limit nothing has to end. -/
theorem settles_asCall {body : Nat → Eval α} (position : Option Position)
    (hbody : m.callDepth < m.maxCallDepth → Settles body m.enterCall) :
    Settles (fun n => asCall position (body n)) m := by
  by_cases hlt : m.callDepth < m.maxCallDepth
  · obtain ⟨fuel, outcome, m', hne, hrun⟩ := hbody hlt
    by_cases hzero : m'.callDepth = 0
    · refine ⟨fuel, .failed ⟨.brokenAccess .callDepth, position⟩, m',
        Outcome.failed_ne_outOfFuel _, ?_⟩
      intro n hn
      simp only [run, if_pos hlt, hrun n hn, if_pos hzero]
    · refine ⟨fuel, outcome, m'.leaveCall, hne, ?_⟩
      intro n hn
      simp only [run, if_pos hlt, hrun n hn, if_neg hzero]
  · refine ⟨0, .failed ⟨.callDepthExceeded m.maxCallDepth, position⟩, m,
      Outcome.failed_ne_outOfFuel _, ?_⟩
    intro n _
    simp only [run, if_neg hlt]

/-! ## Expressions -/

/-- Plain functions end on every machine with fewer than `calls` calls left. -/
def CallsEnd (calls : Nat) : Prop :=
  ∀ {left : Nat} {scope : ScopeId} {m : Machine}, left < calls → m.Poised left scope →
    ∀ {f : Callable}, f.Plain → ∀ position : Option Position,
      Settles (fun n => invoke n f scope position) m

/-- The rule for what begins with the value of a plain expression. -/
theorem Settles.bind_eval {e : Expr} {f : Nat → Value → Eval α}
    (he : Settles (fun n => eval n scope e) m) (hplain : e.Plain) (hm : m.Poised calls scope)
    (hf : ∀ v m', m'.Poised calls scope → m.Grown m' → m'.Has v → Settles (fun n => f n v) m') :
    Settles (fun n => eval n scope e >>= f n) m :=
  he.bind (fun n => (safeUpTo True n).eval hm.ready fun _ => hplain) hm hf

/-- A condition settles if its expression does. -/
theorem settles_holds (hm : m.Poised calls scope) {condition : Expr} (hplain : condition.Plain)
    (hcondition : Settles (fun n => eval n scope condition) m) :
    Settles (fun n => holds n scope condition) m := by
  apply settles_of_succ
  refine hcondition.bind_eval hplain hm ?_
  intro v m' _ _ _
  exact settles_of_fuelless (fuelless_expectBool v _ _) m'

/-- An element settles if its index does, on every machine that can come before it. -/
theorem settles_element (hm : m.Poised calls scope) (p : Position) (name : String) {index : Expr}
    (hplain : index.Plain)
    (hindex : ∀ m', m'.Poised calls scope → Settles (fun n => eval n scope index) m') :
    Settles (fun n => element n scope p name index) m := by
  apply settles_of_succ
  refine (settles_step (.readVariable scope name (some p)) m).bind
    (fun _ => safe_readVariable hm.ready name (some p)) hm ?_
  intro v m₁ hm₁ _ _
  refine (settles_of_fuelless (fuelless_expectList v _ _) m₁).bind
    (fun _ => safe_expectList v id) hm₁ ?_
  intro list m₂ hm₂ _ _
  refine (hindex m₂ hm₂).bind_eval hplain hm₂ ?_
  intro i m₃ _ _ _
  apply settles_of_fuelless
  cases i with
  | int i => exact ⟨trivial, fun _ => ⟨fuelless_ofOption _ _, fun _ => trivial⟩⟩
  | _ => trivial

/-- An operation settles if its operands do, the second one on every machine that can come
before it. -/
theorem settles_binary (hm : m.Poised calls scope) (op : BinaryOp) (p : Position)
    {left right : Expr} (hplain : left.Plain ∧ right.Plain)
    (hleft : Settles (fun n => eval n scope left) m)
    (hright : ∀ m', m'.Poised calls scope → Settles (fun n => eval n scope right) m') :
    Settles (fun n => binary n scope op p left right) m := by
  apply settles_of_succ
  refine hleft.bind_eval hplain.1 hm ?_
  intro a m₁ hm₁ _ _
  split
  · refine (hright m₁ hm₁).bind_eval hplain.2 hm₁ ?_
    intro b m₂ _ _ _
    exact settles_step (.applyBinary op a b (some p)) m₂
  · refine (settles_of_fuelless (fuelless_expectBool a _ _) m₁).bind
      (fun _ => safe_expectBool a id) hm₁ ?_
    intro truth m₂ hm₂ _ _
    split
    · exact settles_pure _ m₂
    · refine (hright m₂ hm₂).bind_eval hplain.2 hm₂ ?_
      intro b m₃ _ _ _
      apply settles_of_fuelless
      exact ⟨fuelless_expectBool b _ _, fun _ => trivial⟩

/-- A call ends if its arguments do: below the limit the function runs with one call
less to go. -/
theorem settles_call (hcalls : CallsEnd calls) (hm : m.Poised calls scope) (name : String)
    {arguments : List Expr} (hplain : Expr.AllPlain arguments)
    (harguments : ∀ m', m'.Poised calls scope → Settles (fun n => evalAll n scope arguments) m')
    (position : Option Position) :
    Settles (fun n => call n scope name arguments position) m := by
  apply settles_of_succ
  refine (settles_step (.findFunction scope name position) m).bind
    (fun _ => safe_step hm.ready (s := .findFunction scope name position) hm.ready.scope_lt
      fun _ => trivial) hm ?_
  intro f m₁ hm₁ _ hknown
  split
  next haccepts =>
    refine (harguments m₁ hm₁).bind
      (fun n => (safeUpTo True n).evalAll hm₁.ready fun _ => hplain) hm₁ ?_
    rintro values m₂ hm₂ _ ⟨hlength, hvalues⟩
    have hf : f.Plain := (hm₁.ready.plain trivial).functions f hknown
    apply settles_asCall
    intro hlt
    -- a call is left, since one may still begin
    obtain ⟨left, rfl⟩ : ∃ left, calls = left + 1 :=
      ⟨calls - 1, by have hle := hm₂.calls_le; omega⟩
    have hinner := hm₂.enterCall.pushScope scope
    apply settles_inScope
    refine (settles_of_fuelless (fuelless_bindArguments f.signature values _ position) _).bind
      (fun _ => safe_bindArguments hinner.ready f.signature position (hlength ▸ haccepts) hvalues)
      hinner ?_
    intro _ m₃ hm₃ _ _
    exact hcalls (Nat.lt_succ_self left) hm₃ hf position
  next =>
    apply settles_of_fuelless
    trivial

mutual

/-- A plain expression ends. -/
theorem settles_eval (hcalls : CallsEnd calls) :
    (e : Expr) → e.Plain → ∀ {scope m}, m.Poised calls scope →
      Settles (fun n => eval n scope e) m
  | .literal _ value, _, _, m, _ =>
      settles_of_succ (settles_pure (Value.ofLiteral value) m)
  | .var p name, _, scope, m, _ =>
      settles_of_succ (settles_step (.readVariable scope name (some p)) m)
  | .element p name index, he, scope, m, hm => by
      have hindex : index.Plain := he
      apply settles_of_succ
      have hplace := settles_element hm p name hindex
        fun m' hm' => settles_eval hcalls index hindex hm'
      refine hplace.bind (fun n => (safeUpTo True n).element hm.ready p name fun _ => hindex) hm ?_
      intro place m' _ _ _
      exact settles_step (.readElement place.1 place.2 (some p)) m'
  | .unary p op operand, he, scope, m, hm => by
      apply settles_of_succ
      refine (settles_eval hcalls operand he hm).bind_eval he hm ?_
      intro v m' _ _ _
      exact settles_of_fuelless (fuelless_applyUnary op v (some p)) m'
  | .binary _ op p left right, he, scope, m, hm => by
      apply settles_of_succ
      exact settles_binary hm op p he (settles_eval hcalls left he.1 hm)
        fun m' hm' => settles_eval hcalls right he.2 hm'
  | .assign _ p name value, he, scope, m, hm => by
      apply settles_of_succ
      refine (settles_eval hcalls value he hm).bind_eval he hm ?_
      intro v m' _ _ _
      apply settles_of_fuelless
      exact ⟨trivial, fun _ => trivial⟩
  | .conditional _ condition thenBranch elseBranch, he, scope, m, hm => by
      apply settles_of_succ
      have hcondition := settles_holds hm he.1 (settles_eval hcalls condition he.1 hm)
      refine hcondition.bind (fun n => (safeUpTo True n).holds hm.ready fun _ => he.1) hm ?_
      intro truth m' hm' _ _
      cases truth with
      | true => exact settles_eval hcalls thenBranch he.2.1 hm'
      | false => exact settles_eval hcalls elseBranch he.2.2 hm'
  | .list _ elements, he, scope, m, hm => by
      apply settles_of_succ
      refine (settles_evalAll hcalls elements he hm).bind
        (fun n => (safeUpTo True n).evalAll hm.ready fun _ => he) hm ?_
      intro values m' _ _ _
      exact settles_step (.newList values) m'
  | .call p name arguments, he, scope, m, hm => by
      apply settles_of_succ
      have hcall := settles_call hcalls hm name he
        (fun m' hm' => settles_evalAll hcalls arguments he hm') (some p)
      refine hcall.bind (fun n => (safeUpTo True n).call hm.ready name (fun _ => he) (some p)) hm ?_
      intro result m' _ _ _
      apply settles_of_fuelless
      cases result <;> trivial

/-- Plain expressions end one after the other. -/
theorem settles_evalAll (hcalls : CallsEnd calls) :
    (es : List Expr) → Expr.AllPlain es → ∀ {scope m}, m.Poised calls scope →
      Settles (fun n => evalAll n scope es) m
  | [], _, _, m, _ => settles_of_succ (settles_pure [] m)
  | e :: es, hes, scope, m, hm => by
      apply settles_of_succ
      refine (settles_eval hcalls e hes.1 hm).bind_eval hes.1 hm ?_
      intro v m' hm' _ _
      refine (settles_evalAll hcalls es hes.2 hm').bind
        (fun n => (safeUpTo True n).evalAll hm'.ready fun _ => hes.2) hm' ?_
      intro vs m'' _ _ _
      exact settles_pure (v :: vs) m''

end

/-! ## Statements -/

/-- A loop over a list makes a round for each element that it has.  The induction is on
the elements to come: the rounds leave the list alone. -/
theorem settles_forEachRounds (p : Position) {item : String} {id : ListId} {body : Statement}
    (hplain : body.Plain)
    (hbody : ∀ m', m'.Poised calls scope → Settles (fun n => exec n scope body) m')
    (index : Nat) (hm : m.Poised calls scope) (hitem : m.Declares scope (Name.fold item))
    (hid : id < m.heap.size) :
    Settles (fun n => forEachRounds n scope p item id index body) m := by
  obtain ⟨rounds, hrounds⟩ : ∃ rounds, (m.heap.contents id).length ≤ index + rounds :=
    ⟨_, Nat.le_add_left _ _⟩
  induction rounds generalizing index m with
  | zero =>
      apply settles_of_succ
      refine (settles_step (.listItems id (some p)) m).bind
        (fun _ => safe_listItems hm.ready hid (some p)) hm ?_
      rintro items m₁ _ hgrown rfl
      have hend : (m₁.heap.contents id)[index]? = none := by
        rw [hgrown.contents_eq hid]
        exact List.getElem?_eq_none hrounds
      rw [hend]
      exact settles_pure Flow.normal m₁
  | succ rounds ih =>
      apply settles_of_succ
      refine (settles_step (.listItems id (some p)) m).bind
        (fun _ => safe_listItems hm.ready hid (some p)) hm ?_
      rintro items m₁ hm₁ hgrown₁ rfl
      split
      next => exact settles_pure Flow.normal m₁
      next v hv =>
        have hhas : m₁.Has v := hm₁.ready.sound.cells id v (List.mem_of_getElem? hv)
        refine (settles_step (.fillVariable scope item v (some p)) m₁).bind
          (fun _ => safe_fillVariable hm₁.ready (hgrown₁.declares hitem) hhas (some p)) hm₁ ?_
        intro _ m₂ hm₂ hgrown₂ _
        refine (hbody m₂ hm₂).bind
          (fun n => (safeUpTo True n).exec hm₂.ready fun _ => hplain) hm₂ ?_
        intro flow m₃ hm₃ hgrown₃ _
        split
        next ending _ => exact settles_pure ending m₃
        next =>
          have hgrown := (hgrown₁.trans hgrown₂).trans hgrown₃
          have hrounds₃ : (m₃.heap.contents id).length ≤ index + 1 + rounds := by
            rw [hgrown.contents_eq hid]
            omega
          exact ih (index + 1) hm₃ (hgrown.declares hitem)
            (Nat.lt_of_lt_of_le hid hgrown.heap_le) hrounds₃

mutual

/-- A plain statement ends. -/
theorem settles_exec (hcalls : CallsEnd calls) :
    (s : Statement) → s.Plain → ∀ {scope m}, m.Poised calls scope →
      Settles (fun n => exec n scope s) m
  | .declare p name none, _, scope, m, hm => by
      apply settles_of_succ
      have hnone : ∀ v ∈ (none : Option Value), m.Has v := nofun
      refine (settles_step (.declareVariable scope name none (some p)) m).bind
        (fun _ => safe_declareVariable hm.ready name hnone (some p)) hm ?_
      intro _ m' _ _ _
      exact settles_pure Flow.normal m'
  | .declare p name (some value), hs, scope, m, hm => by
      apply settles_of_succ
      have hnone : ∀ v ∈ (none : Option Value), m.Has v := nofun
      refine (settles_step (.declareVariable scope name none (some p)) m).bind
        (fun _ => safe_declareVariable hm.ready name hnone (some p)) hm ?_
      intro _ m₁ hm₁ _ _
      refine (settles_eval hcalls value hs hm₁).bind_eval hs hm₁ ?_
      intro v m₂ _ _ _
      apply settles_of_fuelless
      exact ⟨trivial, fun _ => trivial⟩
  | .evaluate _ value, hs, scope, m, hm => by
      apply settles_of_succ
      cases value with
      | call p name arguments =>
          have hcall := settles_call hcalls hm name hs
            (fun m' hm' => settles_evalAll hcalls arguments hs hm') (some p)
          refine hcall.bind
            (fun n => (safeUpTo True n).call hm.ready name (fun _ => hs) (some p)) hm ?_
          intro _ m' _ _ _
          exact settles_pure Flow.normal m'
      | _ =>
          refine (settles_eval hcalls _ hs hm).bind_eval hs hm ?_
          intro _ m' _ _ _
          exact settles_pure Flow.normal m'
  | .block _ statements, hs, scope, m, hm => by
      apply settles_of_succ
      apply settles_inScope
      exact settles_execAll hcalls statements hs (hm.pushScope scope)
  | .ifElse _ condition thenBranch none, hs, scope, m, hm => by
      have hinner := hm.pushScope scope
      apply settles_of_succ
      apply settles_inScope
      have hcondition := settles_holds hinner hs.1 (settles_eval hcalls condition hs.1 hinner)
      refine hcondition.bind
        (fun n => (safeUpTo True n).holds hinner.ready fun _ => hs.1) hinner ?_
      intro truth m' hm' _ _
      cases truth with
      | true => exact settles_exec hcalls thenBranch hs.2 hm'
      | false => exact settles_pure Flow.normal m'
  | .ifElse _ condition thenBranch (some elseBranch), hs, scope, m, hm => by
      have hinner := hm.pushScope scope
      apply settles_of_succ
      apply settles_inScope
      have hcondition := settles_holds hinner hs.1 (settles_eval hcalls condition hs.1 hinner)
      refine hcondition.bind
        (fun n => (safeUpTo True n).holds hinner.ready fun _ => hs.1) hinner ?_
      intro truth m' hm' _ _
      cases truth with
      | true => exact settles_exec hcalls thenBranch hs.2.1 hm'
      | false => exact settles_exec hcalls elseBranch hs.2.2 hm'
  | .forEach p item collection body, hs, scope, m, hm => by
      apply settles_of_succ
      refine (settles_eval hcalls collection hs.1 hm).bind_eval hs.1 hm ?_
      intro v m₁ hm₁ _ hv
      refine (settles_of_fuelless (fuelless_expectList v _ _) m₁).bind
        (fun _ => safe_expectList v id) hm₁ ?_
      intro list m₂ hm₂ _ hlist
      have hinner := hm₂.pushScope scope
      have hnone : ∀ v ∈ (none : Option Value), (m₂.pushScope scope).Has v := nofun
      apply settles_inScope
      refine (settles_step (.declareVariable _ item none (some p)) _).bind
        (fun _ => safe_declareVariable hinner.ready item hnone (some p)) hinner ?_
      intro _ m₃ hm₃ hgrown hdeclared
      exact settles_forEachRounds p hs.2 (fun m' hm' => settles_exec hcalls body hs.2 hm') 0 hm₃
        hdeclared (Nat.lt_of_lt_of_le (hlist hv) hgrown.heap_le)
  | .returns p none, _, _, m, _ =>
      settles_of_succ (settles_pure (Flow.returned none p) m)
  | .returns p (some value), hs, scope, m, hm => by
      apply settles_of_succ
      refine (settles_eval hcalls value hs hm).bind_eval hs hm ?_
      intro v m' _ _ _
      exact settles_pure (Flow.returned (some v) p) m'
  | .breaks p, _, _, m, _ =>
      settles_of_succ (settles_pure (Flow.broke p) m)
  | .continues p, _, _, m, _ =>
      settles_of_succ (settles_pure (Flow.continued p) m)

/-- Plain statements end one after the other. -/
theorem settles_execAll (hcalls : CallsEnd calls) :
    (ss : List Statement) → Statement.AllPlain ss → ∀ {scope m}, m.Poised calls scope →
      Settles (fun n => execAll n scope ss) m
  | [], _, _, m, _ => settles_of_succ (settles_pure Flow.normal m)
  | s :: ss, hss, scope, m, hm => by
      apply settles_of_succ
      refine (settles_exec hcalls s hss.1 hm).bind
        (fun n => (safeUpTo True n).exec hm.ready fun _ => hss.1) hm ?_
      intro flow m' hm' _ _
      cases flow with
      | normal => exact settles_execAll hcalls ss hss.2 hm'
      | _ => exact settles_pure _ m'

end

/-! ## Calls and scripts -/

/-- **Plain functions end**, however they call each other.  By induction on the calls
that are left: a body is run with one call less than its caller had. -/
theorem callsEnd (calls : Nat) : CallsEnd calls := by
  induction calls with
  | zero =>
      intro left scope m hleft
      exact absurd hleft (Nat.not_lt_zero left)
  | succ calls ih =>
      intro left scope m hleft hm f hf position
      -- the body may call functions with fewer calls left, and those end already
      have hbelow : CallsEnd left :=
        fun hlt => ih (Nat.lt_of_lt_of_le hlt (Nat.le_of_lt_succ hleft))
      apply settles_of_succ
      cases f with
      | builtin f =>
          refine (settles_step (.readVariable scope Builtin.param position) m).bind
            (fun _ => safe_readVariable hm.ready Builtin.param position) hm ?_
          intro v m' _ _ _
          apply settles_of_fuelless
          exact ⟨fuelless_builtinApply f v position, fun _ => trivial⟩
      | host f => exact hf.elim
      | script f =>
          refine (settles_exec hbelow (.block f.bodyPosition f.body) hf hm).bind
            (fun n => (safeUpTo True n).exec (s := .block f.bodyPosition f.body) hm.ready
              fun _ => hf) hm ?_
          intro flow m' _ _ _
          exact settles_of_fuelless (fuelless_flowResult flow) m'

/-- A plain script ends. -/
theorem settles_execute {script : Script} (hs : script.Plain) (hm : m.Poised calls scope) :
    Settles (fun n => execute n script) m := by
  have hinner := hm.pushScope Arena.host
  apply settles_of_succ
  apply settles_inScope
  refine (settles_of_fuelless (fuelless_declareBuiltins _ Builtin.all) _).bind
    (fun _ => safe_declareBuiltins hinner.ready Builtin.all) hinner ?_
  intro _ m₁ hm₁ _ _
  refine (settles_of_fuelless (fuelless_declareFunctions _ script.functions) _).bind
    (fun _ => safe_declareFunctions hm₁.ready fun _ => hs.2) hm₁ ?_
  intro _ m₂ hm₂ _ _
  refine (settles_execAll (callsEnd calls) script.statements hs.1 hm₂).bind
    (fun n => (safeUpTo True n).execAll hm₂.ready fun _ => hs.1) hm₂ ?_
  intro flow m₃ _ _ _
  exact settles_of_fuelless (fuelless_flowResult flow) m₃

end Eval

/-- A step that goes down into lists comes to an end there, and the depth at which it
would give up is never reached: looking deeper makes no difference. -/
def Step.DescentEnds {α : Type} : Step α → Machine → Prop
  | .render v, m =>
    m.heap.Finite v ∧ ∀ depth, m.heap.size < depth → m.heap.renderWithin depth v = m.heap.render v
  | .applyBinary _ a b _, m =>
    m.heap.Finite a ∧ m.heap.Finite b ∧ ∀ x y, a = .list x → b = .list y →
      ∀ depth, m.heap.size * m.heap.size < depth →
        m.heap.sameContentsWithin depth x y = m.heap.sameContents x y
  | _, _ => True

/-- On a layered heap every descent ends. -/
theorem Step.descentEnds_of_layered {α : Type} {s : Step α} {m : Machine} (hs : s.InDomain m)
    (hlayered : m.heap.Layered) : s.DescentEnds m := by
  cases s with
  | render v =>
      refine ⟨hlayered.finite v, ?_⟩
      intro depth hdepth
      exact hlayered.renderWithin_eq hs (Nat.le_of_lt hdepth) (Nat.le_succ _)
  | applyBinary op a b position =>
      refine ⟨hlayered.finite a, hlayered.finite b, ?_⟩
      rintro x y rfl rfl depth hdepth
      have hx : x < m.heap.size := hs.1
      have hsquare : m.heap.size ≤ m.heap.size * m.heap.size := Nat.le_mul_self _
      have hbound : x < m.heap.size * m.heap.size := Nat.lt_of_lt_of_le hx hsquare
      exact hlayered.sameContentsWithin_eq (Nat.lt_trans hbound hdepth)
        (Nat.lt_succ_of_lt hbound)
  | _ => trivial

/-- On a new machine no function is known and no list is there. -/
theorem Machine.plain_initial (maxCallDepth : Nat) : (Machine.initial maxCallDepth).Plain where
  functions f hf := absurd hf (Machine.not_knows_initial maxCallDepth f)
  layered := Heap.layered_empty

/-- **Plain scripts end.**  A script without `while`, `for` and assignments to elements
comes to an end on every machine that a host has set up and lent no function to, whatever
the limit on calls: from some fuel on it ends in one and the same way, with a value,
without one or with a fault.  The rendering and comparing on the way end as well. -/
theorem Script.ends_of_plain {script : Script} (hscript : script.Plain) {m : Machine}
    (hm : m.SetUp) (hplain : m.Plain) :
    (∃ fuel outcome m', outcome ≠ .outOfFuel ∧
      ∀ n, fuel ≤ n → (Eval.execute n script).run m = (outcome, m')) ∧
    ∀ n, ∀ t ∈ (Eval.execute n script).taken m, t.step.DescentEnds t.machine := by
  have hready : m.Ready True Arena.host := ⟨hm.sound, fun _ => hplain, hm.orderly.size_pos⟩
  have hpoised : m.Poised m.maxCallDepth Arena.host := ⟨hready, Nat.le_add_left _ _⟩
  refine ⟨Eval.settles_execute hscript hpoised, ?_⟩
  intro n t ht
  have hsafe : (Eval.execute n script).Safe True m fun result m' => ∀ v ∈ result, m'.Has v :=
    (Eval.safeUpTo True n).execute hready fun _ => hscript
  have hlayered := ((hsafe.plain_machines trivial hm.sound hplain).2 t ht).layered
  exact Step.descentEnds_of_layered (hsafe.taken t ht).1 hlayered

/-- A script whose only function calls itself for each element of a list that it makes:
`func visit(list) { foreach (item in list + [1]) visit([item]); } visit([2]);`. -/
def Script.deepVisit : Script :=
  ⟨"main",
    [.ofExpr (.call ⟨"main", 1, 66⟩ "visit"
      [.list ⟨"main", 1, 72⟩ [.literal ⟨"main", 1, 73⟩ (.int 2)]])],
    [⟨⟨"main", 1, 1⟩, ⟨"visit", ["list"], false⟩, ⟨"main", 1, 18⟩,
      [.forEach ⟨"main", 1, 20⟩ "item"
        (.binary ⟨"main", 1, 37⟩ .add ⟨"main", 1, 42⟩ (.var ⟨"main", 1, 37⟩ "list")
          (.list ⟨"main", 1, 44⟩ [.literal ⟨"main", 1, 45⟩ (.int 1)]))
        (.ofExpr (.call ⟨"main", 1, 49⟩ "visit"
          [.list ⟨"main", 1, 55⟩ [.var ⟨"main", 1, 56⟩ "item"]]))]⟩]⟩

/-- The recursion has no end of its own; the limit ends it. -/
theorem Script.ends_of_plain_deepVisit :
    deepVisit.Plain ∧
    ((Eval.execute 40 deepVisit).run (Machine.initial 2)).1 =
      .failed ⟨.callDepthExceeded 2, some ⟨"main", 1, 49⟩⟩ ∧
    ∃ fuel outcome m', outcome ≠ .outOfFuel ∧
      ∀ n, fuel ≤ n → (Eval.execute n deepVisit).run (Machine.initial 2) = (outcome, m') := by
  have hplain : deepVisit.Plain := by
    simp [deepVisit, Script.Plain, FunctionDef.Plain, Statement.AllPlain, Statement.Plain,
      Statement.ofExpr, Expr.AllPlain, Expr.Plain]
  exact ⟨hplain, by decide +kernel,
    (ends_of_plain hplain (.initial 2) (Machine.plain_initial 2)).1⟩

end Scriptlet
