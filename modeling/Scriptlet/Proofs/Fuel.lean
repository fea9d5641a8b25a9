import Scriptlet.Proofs.CallLimit

/-!
# More fuel

Fuel decides whether a run comes to its end and nothing else.  A run is
**covered** by another if that ends in the same way wherever the first does not
run out of fuel (`Run.CoveredOn`).  Sequences, scopes and calls are covered part by
part, so every function of the evaluator is covered by itself with one unit of fuel
more (`Eval.coveredUpTo`).

So a computation ends in at most one way, and one can say which without a word about fuel
(`Eval.EndsWith`).
-/

namespace Scriptlet

/-! ## Runs -/

namespace Run

variable {σ ε α β : Type} {P Q : σ → Prop} {x y z : Run σ ε α}

/-- From every state that satisfies `P`, the second run ends as the first one does unless that
runs out of fuel. -/
def CoveredOn (P : σ → Prop) (x y : Run σ ε α) : Prop :=
  ∀ s, P s → (x s).1 ≠ .outOfFuel → y s = x s

/-- A run covers itself. -/
theorem coveredOn_refl (x : Run σ ε α) : CoveredOn P x x := fun _ _ _ => rfl

/-- Every run covers one without fuel. -/
theorem coveredOn_starve (y : Run σ ε α) : CoveredOn P starve y := fun _ _ hend => absurd rfl hend

/-- What covers a covering run covers the first. -/
theorem CoveredOn.trans (hxy : CoveredOn P x y) (hyz : CoveredOn P y z) : CoveredOn P x z := by
  intro s hs hend
  have hy := hxy s hs hend
  have hz := hyz s hs (hy ▸ hend)
  exact hz.trans hy

/-- What covers from many states covers from fewer. -/
theorem CoveredOn.mono (h : CoveredOn P x y) (hQ : ∀ s, Q s → P s) : CoveredOn Q x y :=
  fun s hs => h s (hQ s hs)

/-- A sequence is covered part by part. -/
theorem CoveredOn.bind {f g : α → Run σ ε β} (hx : CoveredOn P x y) (hkept : ∀ s, P s → P (x s).2)
    (hf : ∀ a, CoveredOn P (f a) (g a)) : CoveredOn P (Run.bind x f) (Run.bind y g) := by
  intro s hs hend
  have hafter := hkept s hs
  rcases hrun : x s with ⟨_ | fault | _, s'⟩ <;> simp only [Run.bind, hrun] at hend hafter ⊢
  · rw [hx s hs (by simp [hrun]), hrun]
    exact hf _ s' hafter hend
  · rw [hx s hs (by simp [hrun]), hrun]
  · exact absurd rfl hend

/-- What is covered by itself with one unit more is covered with any more. -/
theorem coveredOn_of_le {x : Nat → Run σ ε α} (h : ∀ n, CoveredOn P (x n) (x (n + 1))) {n k : Nat}
    (hnk : n ≤ k) : CoveredOn P (x n) (x k) := by
  induction hnk with
  | refl => exact coveredOn_refl _
  | step _ ih => exact ih.trans (h _)

end Run

/-! ## Computations on the machine -/

namespace Eval

variable {α β : Type}

/-- On every machine, the second computation ends as the first one does unless that runs out
of fuel. -/
def Covered (x y : Eval α) : Prop :=
  Run.CoveredOn (fun _ => True) x.run y.run

/-- A computation covers itself. -/
theorem covered_refl (x : Eval α) : x.Covered x := Run.coveredOn_refl x.run

/-- Every computation covers one without fuel. -/
theorem covered_starve (y : Eval α) : starve.Covered y := Run.coveredOn_starve y.run

/-- A sequence covers another if its parts cover the parts. -/
theorem Covered.bind {x y : Eval α} {f g : α → Eval β} (hx : x.Covered y)
    (hf : ∀ a, (f a).Covered (g a)) : (x >>= f).Covered (y >>= g) :=
  Run.CoveredOn.bind hx (fun _ _ => trivial) hf

/-- The second part of a sequence is covered after the same first part. -/
theorem covered_bind (x : Eval α) {f g : α → Eval β} (hf : ∀ a, (f a).Covered (g a)) :
    (x >>= f).Covered (x >>= g) :=
  (covered_refl x).bind hf

/-- A computation in a new scope is covered where its body is. -/
theorem coveredOn_inScope {P : Machine → Prop} {parent : ScopeId} {f g : ScopeId → Eval α}
    (h : ∀ m, P m → Run.CoveredOn (· = m.pushScope parent) (f m.scopes.size).run
      (g m.scopes.size).run) :
    Run.CoveredOn P (inScope parent f).run (inScope parent g).run := by
  intro m hm hend
  simp only [run, h m hm _ rfl hend]

/-- Covering is kept by opening a scope around both. -/
theorem covered_inScope {parent : ScopeId} {f g : ScopeId → Eval α}
    (h : ∀ inner, (f inner).Covered (g inner)) : (inScope parent f).Covered (inScope parent g) :=
  coveredOn_inScope fun m _ => (h m.scopes.size).mono fun _ _ => trivial

/-- Covering is kept by making a call of both. -/
theorem covered_asCall {position : Option Position} {x y : Eval α} (h : x.Covered y) :
    (asCall position x).Covered (asCall position y) := by
  intro m _ hend
  by_cases hdepth : m.callDepth < m.maxCallDepth
  · rw [run_asCall position x hdepth] at hend
    rw [run_asCall position x hdepth, run_asCall position y hdepth, h _ trivial hend]
  · simp only [run, if_neg hdepth]

/-- A function of the host is covered if the scripts that it runs are. -/
theorem covered_hostFunctionRun {execute execute' : Script → Eval (Option Value)}
    (h : ∀ script, (execute script).Covered (execute' script)) (activation : ScopeId)
    (position : Option Position) (f : HostFunction) :
    (f.run execute activation position).Covered (f.run execute' activation position) := by
  cases f with
  | runScript =>
      refine covered_bind _ fun text => covered_bind _ fun text => ?_
      split
      next script _ => exact h script
      next => exact covered_refl _
  | _ => exact covered_refl _

/-! ## The evaluator -/

/-- Every function of the evaluator with `n` units of fuel is covered by itself with one
more. -/
structure CoveredUpTo (n : Nat) : Prop where
  eval : ∀ scope e, (eval n scope e).Covered (eval (n + 1) scope e)
  evalAll : ∀ scope es, (evalAll n scope es).Covered (evalAll (n + 1) scope es)
  binary : ∀ scope op p left right,
    (binary n scope op p left right).Covered (binary (n + 1) scope op p left right)
  holds : ∀ scope condition, (holds n scope condition).Covered (holds (n + 1) scope condition)
  element : ∀ scope p name index,
    (element n scope p name index).Covered (element (n + 1) scope p name index)
  call : ∀ scope name arguments position,
    (call n scope name arguments position).Covered (call (n + 1) scope name arguments position)
  invoke : ∀ f activation position,
    (invoke n f activation position).Covered (invoke (n + 1) f activation position)
  exec : ∀ scope s, (exec n scope s).Covered (exec (n + 1) scope s)
  execAll : ∀ scope ss, (execAll n scope ss).Covered (execAll (n + 1) scope ss)
  whileRounds : ∀ scope condition body,
    (whileRounds n scope condition body).Covered (whileRounds (n + 1) scope condition body)
  forRounds : ∀ scope condition step body,
    (forRounds n scope condition step body).Covered (forRounds (n + 1) scope condition step body)
  forEachRounds : ∀ scope p item id index body,
    (forEachRounds n scope p item id index body).Covered
      (forEachRounds (n + 1) scope p item id index body)
  execute : ∀ script, (execute n script).Covered (execute (n + 1) script)

namespace CoveredUpTo

variable {n : Nat} (ih : CoveredUpTo n)

include ih

/-- An expression with one unit more covers itself, if its parts do. -/
theorem eval_succ (scope : ScopeId) (e : Expr) :
    (Eval.eval (n + 1) scope e).Covered (Eval.eval (n + 2) scope e) := by
  cases e with
  | literal p value => exact covered_refl _
  | var p name => exact covered_refl _
  | element p name index => exact (ih.element scope p name index).bind fun _ => covered_refl _
  | unary p op operand => exact (ih.eval scope operand).bind fun _ => covered_refl _
  | binary _ op p left right => exact ih.binary scope op p left right
  | assign _ p name value => exact (ih.eval scope value).bind fun _ => covered_refl _
  | assignElement _ p name index value =>
      refine (ih.eval scope value).bind fun v => ?_
      exact (ih.element scope p name index).bind fun _ => covered_refl _
  | conditional _ condition thenBranch elseBranch =>
      refine (ih.holds scope condition).bind fun truth => ?_
      cases truth with
      | true => exact ih.eval scope thenBranch
      | false => exact ih.eval scope elseBranch
  | list p elements => exact (ih.evalAll scope elements).bind fun _ => covered_refl _
  | call p name arguments =>
      exact (ih.call scope name arguments (some p)).bind fun _ => covered_refl _

theorem evalAll_succ (scope : ScopeId) (es : List Expr) :
    (Eval.evalAll (n + 1) scope es).Covered (Eval.evalAll (n + 2) scope es) := by
  cases es with
  | nil => exact covered_refl _
  | cons e es =>
      exact (ih.eval scope e).bind fun _ => (ih.evalAll scope es).bind fun _ => covered_refl _

theorem binary_succ (scope : ScopeId) (op : BinaryOp) (p : Position) (left right : Expr) :
    (Eval.binary (n + 1) scope op p left right).Covered
      (Eval.binary (n + 2) scope op p left right) := by
  refine (ih.eval scope left).bind fun a => ?_
  split
  · exact (ih.eval scope right).bind fun _ => covered_refl _
  · refine covered_bind _ fun truth => ?_
    split
    · exact covered_refl _
    · exact (ih.eval scope right).bind fun _ => covered_refl _

theorem holds_succ (scope : ScopeId) (condition : Expr) :
    (Eval.holds (n + 1) scope condition).Covered (Eval.holds (n + 2) scope condition) :=
  (ih.eval scope condition).bind fun _ => covered_refl _

theorem element_succ (scope : ScopeId) (p : Position) (name : String) (index : Expr) :
    (Eval.element (n + 1) scope p name index).Covered
      (Eval.element (n + 2) scope p name index) := by
  refine covered_bind _ fun v => covered_bind _ fun id => ?_
  exact (ih.eval scope index).bind fun _ => covered_refl _

/-- A call with one unit more covers itself, if its arguments and its function do. -/
theorem call_succ (scope : ScopeId) (name : String) (arguments : List Expr)
    (position : Option Position) :
    (Eval.call (n + 1) scope name arguments position).Covered
      (Eval.call (n + 2) scope name arguments position) := by
  refine covered_bind _ fun f => ?_
  split
  · refine (ih.evalAll scope arguments).bind fun values => ?_
    refine covered_asCall (covered_inScope fun activation => ?_)
    exact covered_bind _ fun _ => ih.invoke f activation position
  · exact covered_refl _

theorem invoke_succ (f : Callable) (activation : ScopeId) (position : Option Position) :
    (Eval.invoke (n + 1) f activation position).Covered
      (Eval.invoke (n + 2) f activation position) := by
  cases f with
  | builtin f => exact covered_refl _
  | host f => exact covered_hostFunctionRun ih.execute activation position f
  | script f => exact (ih.exec activation _).bind fun _ => covered_refl _

/-- A statement with one unit more covers itself, if its parts do. -/
theorem exec_succ (scope : ScopeId) (s : Statement) :
    (Eval.exec (n + 1) scope s).Covered (Eval.exec (n + 2) scope s) := by
  cases s with
  | declare p name value =>
      refine covered_bind _ fun _ => ?_
      cases value with
      | none => exact covered_refl _
      | some e => exact (ih.eval scope e).bind fun _ => covered_refl _
  | evaluate _ e =>
      cases e with
      | call p name arguments =>
          exact (ih.call scope name arguments (some p)).bind fun _ => covered_refl _
      | _ => exact (ih.eval scope _).bind fun _ => covered_refl _
  | block p statements => exact covered_inScope fun inner => ih.execAll inner statements
  | ifElse p condition thenBranch elseBranch =>
      refine covered_inScope fun inner => (ih.holds inner condition).bind fun truth => ?_
      cases truth with
      | true => exact ih.exec inner thenBranch
      | false =>
          cases elseBranch with
          | some s => exact ih.exec inner s
          | none => exact covered_refl _
  | whileLoop p condition body => exact covered_inScope fun inner => ih.whileRounds inner _ _
  | forLoop p counter start condition step body =>
      refine covered_inScope fun inner => (ih.eval inner start).bind fun first => ?_
      cases counter with
      | some name => exact covered_bind _ fun _ => ih.forRounds inner condition step body
      | none => exact ih.forRounds inner condition step body
  | forEach p item collection body =>
      refine (ih.eval scope collection).bind fun v => covered_bind _ fun id => ?_
      refine covered_inScope fun inner => covered_bind _ fun _ => ?_
      exact ih.forEachRounds inner p item id 0 body
  | returns p value =>
      cases value with
      | none => exact covered_refl _
      | some e => exact (ih.eval scope e).bind fun _ => covered_refl _
  | breaks p => exact covered_refl _
  | continues p => exact covered_refl _

theorem execAll_succ (scope : ScopeId) (ss : List Statement) :
    (Eval.execAll (n + 1) scope ss).Covered (Eval.execAll (n + 2) scope ss) := by
  cases ss with
  | nil => exact covered_refl _
  | cons s rest =>
      refine (ih.exec scope s).bind fun flow => ?_
      cases flow with
      | normal => exact ih.execAll scope rest
      | _ => exact covered_refl _

theorem whileRounds_succ (scope : ScopeId) (condition : Expr) (body : Statement) :
    (Eval.whileRounds (n + 1) scope condition body).Covered
      (Eval.whileRounds (n + 2) scope condition body) := by
  refine (ih.holds scope condition).bind fun truth => ?_
  cases truth with
  | true =>
      refine (ih.exec scope body).bind fun flow => ?_
      split
      · exact covered_refl _
      · exact ih.whileRounds scope condition body
  | false => exact covered_refl _

theorem forRounds_succ (scope : ScopeId) (condition step : Expr) (body : Statement) :
    (Eval.forRounds (n + 1) scope condition step body).Covered
      (Eval.forRounds (n + 2) scope condition step body) := by
  refine (ih.holds scope condition).bind fun truth => ?_
  cases truth with
  | true =>
      refine (ih.exec scope body).bind fun flow => ?_
      split
      · exact covered_refl _
      · exact (ih.eval scope step).bind fun _ => ih.forRounds scope condition step body
  | false => exact covered_refl _

theorem forEachRounds_succ (scope : ScopeId) (p : Position) (item : String) (id : ListId)
    (index : Nat) (body : Statement) :
    (Eval.forEachRounds (n + 1) scope p item id index body).Covered
      (Eval.forEachRounds (n + 2) scope p item id index body) := by
  refine covered_bind _ fun items => ?_
  split
  · exact covered_refl _
  · refine covered_bind _ fun _ => (ih.exec scope body).bind fun flow => ?_
    split
    · exact covered_refl _
    · exact ih.forEachRounds scope p item id (index + 1) body

/-- A script with one unit more covers itself, if its statements do. -/
theorem execute_succ (script : Script) :
    (Eval.execute (n + 1) script).Covered (Eval.execute (n + 2) script) := by
  refine covered_inScope fun scope => covered_bind _ fun _ => covered_bind _ fun _ => ?_
  exact (ih.execAll scope script.statements).bind fun _ => covered_refl _

end CoveredUpTo

/-- **With more fuel a run that has ended ends in the same way.** -/
theorem coveredUpTo (n : Nat) : CoveredUpTo n := by
  induction n with
  | zero => constructor <;> intros <;> exact covered_starve _
  | succ n ih =>
      exact ⟨ih.eval_succ, ih.evalAll_succ, ih.binary_succ, ih.holds_succ, ih.element_succ,
        ih.call_succ, ih.invoke_succ, ih.exec_succ, ih.execAll_succ, ih.whileRounds_succ,
        ih.forRounds_succ, ih.forEachRounds_succ, ih.execute_succ⟩

variable {n k : Nat}

/-- An expression with more fuel covers itself with less. -/
theorem eval_covered (hnk : n ≤ k) (scope : ScopeId) (e : Expr) :
    (eval n scope e).Covered (eval k scope e) :=
  Run.coveredOn_of_le (fun n => (coveredUpTo n).eval scope e) hnk

/-- A condition with more fuel covers itself with less. -/
theorem holds_covered (hnk : n ≤ k) (scope : ScopeId) (condition : Expr) :
    (holds n scope condition).Covered (holds k scope condition) :=
  Run.coveredOn_of_le (fun n => (coveredUpTo n).holds scope condition) hnk

/-- A statement with more fuel covers itself with less. -/
theorem exec_covered (hnk : n ≤ k) (scope : ScopeId) (s : Statement) :
    (exec n scope s).Covered (exec k scope s) :=
  Run.coveredOn_of_le (fun n => (coveredUpTo n).exec scope s) hnk

/-! ## Endings -/

section Endings

variable {α β : Type} {x y : Nat → Eval α} {m m' : Machine} {r r' : Outcome Fault α × Machine}

/-- Given the fuel, the computation ends this way. -/
def EndsWith (x : Nat → Eval α) (m : Machine) (r : Outcome Fault α × Machine) : Prop :=
  r.1 ≠ .outOfFuel ∧ ∃ n, x n m = r

/-- With more fuel the computation ends as it does with less. -/
def Lasting (x : Nat → Eval α) : Prop :=
  ∀ n, (x n).Covered (x (n + 1))

/-- From some amount of fuel on the computation ends this way. -/
theorem EndsWith.exists_le (hx : Lasting x) (h : EndsWith x m r) :
    ∃ n, ∀ k, n ≤ k → x k m = r := by
  obtain ⟨hended, n, rfl⟩ := h
  exact ⟨n, fun k hk => Run.coveredOn_of_le hx hk m trivial hended⟩

/-- A computation ends in one way only. -/
theorem EndsWith.unique (hx : Lasting x) (h : EndsWith x m r) (h' : EndsWith x m r') :
    r = r' := by
  obtain ⟨n, hn⟩ := h.exists_le hx
  obtain ⟨k, hk⟩ := h'.exists_le hx
  rw [← hn (max n k) (Nat.le_max_left n k), hk (max n k) (Nat.le_max_right n k)]

/-- A computation that spends one unit of fuel at its start. -/
theorem endsWith_iff_of_succ (hzero : (x 0 m).1 = .outOfFuel) (hsucc : ∀ n, x (n + 1) m = y n m') :
    EndsWith x m r ↔ EndsWith y m' r := by
  constructor
  · intro h
    obtain ⟨hended, n, hn⟩ := h
    cases n with
    | zero => exact absurd (hn ▸ hzero) hended
    | succ n => exact ⟨hended, n, hsucc n ▸ hn⟩
  · intro h
    obtain ⟨hended, n, hn⟩ := h
    exact ⟨hended, n + 1, (hsucc n).trans hn⟩

/-- A computation that needs no fuel. -/
theorem endsWith_iff_of_run_eq (hrun : ∀ n, x n m = r') (hended : r'.1 ≠ .outOfFuel) :
    EndsWith x m r ↔ r = r' := by
  constructor
  · intro h
    obtain ⟨-, n, hn⟩ := h
    rw [← hn, hrun n]
  · intro h
    exact ⟨h ▸ hended, 0, (hrun 0).trans h.symm⟩

/-- Giving a value ends with that value. -/
theorem endsWith_pure (a : α) : EndsWith (fun _ => pure a) m r ↔ r = (.done a, m) :=
  endsWith_iff_of_run_eq (fun _ => rfl) (by simp)

theorem endsWith_fail (fault : Fault) :
    EndsWith (fun _ => (.fail fault : Eval α)) m r ↔ r = (.failed fault, m) :=
  endsWith_iff_of_run_eq (fun _ => rfl) (by simp)

/-- A sequence ends with its first part if that fails, and otherwise with its second. -/
theorem endsWith_bind_iff {f : Nat → α → Eval β} {r : Outcome Fault β × Machine}
    (hx : Lasting x) (hf : ∀ a, Lasting fun n => f n a) :
    EndsWith (fun n => x n >>= f n) m r ↔
      (∃ fault m', r = (.failed fault, m') ∧ EndsWith x m (.failed fault, m')) ∨
        ∃ a m', EndsWith x m (.done a, m') ∧ EndsWith (fun n => f n a) m' r := by
  constructor
  · intro h
    obtain ⟨hended, n, hn⟩ := h
    rcases hrun : x n m with ⟨a | fault | _, m'⟩
    · have hsecond : f n a m' = r := (Run.bind_done hrun _).symm.trans hn
      exact .inr ⟨a, m', ⟨by simp, n, hrun⟩, hended, n, hsecond⟩
    · have hfailed : (.failed fault, m') = r := (Run.bind_failed hrun _).symm.trans hn
      exact .inl ⟨fault, m', hfailed.symm, by simp, n, hrun⟩
    · have hstarved : (.outOfFuel, m') = r := (Run.bind_outOfFuel hrun _).symm.trans hn
      exact absurd (hstarved ▸ rfl) hended
  · intro h
    rcases h with ⟨fault, m', rfl, -, n, hn⟩ | ⟨a, m', hfirst, hsecond⟩
    · exact ⟨by simp, n, Run.bind_failed hn _⟩
    · obtain ⟨n, hn⟩ := hfirst.exists_le hx
      obtain ⟨k, hk⟩ := hsecond.exists_le (hf a)
      refine ⟨hsecond.1, max n k, ?_⟩
      exact Run.bind_eq_of_done (hn _ (Nat.le_max_left n k)) (hk _ (Nat.le_max_right n k))

/-- A value that is made of the value of a computation. -/
theorem endsWith_map_iff {r : Outcome Fault β × Machine} (hx : Lasting x) (g : α → β) :
    EndsWith (fun n => x n >>= fun a => pure (g a)) m r ↔
      (∃ fault m', r = (.failed fault, m') ∧ EndsWith x m (.failed fault, m')) ∨
        ∃ a m', EndsWith x m (.done a, m') ∧ r = (.done (g a), m') := by
  rw [endsWith_bind_iff (f := fun _ a => pure (g a)) hx fun _ _ => covered_refl _]
  simp only [endsWith_pure]

/-- With more fuel an expression ends as it does with less. -/
theorem lasting_eval (scope : ScopeId) (e : Expr) : Lasting fun n => eval n scope e :=
  fun n => (coveredUpTo n).eval scope e

/-- With more fuel several expressions end as they do with less. -/
theorem lasting_evalAll (scope : ScopeId) (es : List Expr) : Lasting fun n => evalAll n scope es :=
  fun n => (coveredUpTo n).evalAll scope es

/-- With more fuel a call ends as it does with less. -/
theorem lasting_call (scope : ScopeId) (name : String) (arguments : List Expr)
    (position : Option Position) : Lasting fun n => call n scope name arguments position :=
  fun n => (coveredUpTo n).call scope name arguments position

/-- With more fuel a function ends as it does with less. -/
theorem lasting_invoke (f : Callable) (activation : ScopeId) (position : Option Position) :
    Lasting fun n => invoke n f activation position :=
  fun n => (coveredUpTo n).invoke f activation position

end Endings

end Eval

end Scriptlet
