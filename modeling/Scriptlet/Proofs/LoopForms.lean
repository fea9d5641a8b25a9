import Scriptlet.Proofs.EmptyScope
import Scriptlet.Proofs.Fuel
import Scriptlet.Proofs.Jumps
import Scriptlet.Proofs.Safety

/-!
# A `for` loop and its `while` form

A `for` loop does the same as a block with its beginning and a `while` loop that has
the step at the end of each round:

    for (first; condition; step) body
    { first; while (condition) { body step; } }

The `while` form opens two scopes more, one for the `while` loop and one in each round.
Nothing is declared in them, so they make no difference (`Eval.run_inScope_of_undeclaring`), and
then the two forms differ in fuel only.  Each is covered by the other with some more fuel
(`Eval.whileRounds_coveredIn_forRounds`, `Eval.forRounds_coveredIn_whileRounds`), by
induction on the rounds.
-/

namespace Scriptlet

/-! ## Machines with a scope -/

/-- Parents stand before their children, and the scope is there. -/
structure Machine.Fits (scope : ScopeId) (m : Machine) : Prop where
  down : m.scopes.Downward
  lt_size : scope < m.scopes.size

namespace Machine.Fits

variable {scope : ScopeId} {m m' : Machine}

/-- What fits is seen from the parents of the scopes alone. -/
theorem of_frame_eq (hm : m.Fits scope) (hframe : m'.frame = m.frame) : m'.Fits scope :=
  ⟨downward_of_frame_eq hm.down hframe, size_eq_of_frame_eq hframe ▸ hm.lt_size⟩

/-- A new scope under one that fits fits. -/
theorem pushScope (hm : m.Fits scope) : (m.pushScope scope).Fits m.scopes.size where
  down := by
    intro i j hij
    rw [Arena.Parent, getElem?_pushScope] at hij
    split at hij
    next hi =>
      cases hij
      exact hi ▸ hm.lt_size
    next => exact hm.down hij
  lt_size := by simp [Machine.pushScope]

end Machine.Fits

namespace Eval

variable {α β : Type} {s : ScopeId}

/-- On every machine that has the scope, the second computation ends as the first one does
unless that runs out of fuel. -/
def CoveredIn (s : ScopeId) (x y : Eval α) : Prop :=
  Run.CoveredOn (Machine.Fits s) x.run y.run

/-- What covers on every machine covers on those that have the scope. -/
theorem Covered.coveredIn {x y : Eval α} (h : x.Covered y) : x.CoveredIn s y :=
  h.mono fun _ _ => trivial

/-- A computation covers itself. -/
theorem coveredIn_refl (x : Eval α) : x.CoveredIn s x := Run.coveredOn_refl _

/-- What covers a covering computation covers the first. -/
theorem CoveredIn.trans {x y z : Eval α} (hxy : x.CoveredIn s y) (hyz : y.CoveredIn s z) :
    x.CoveredIn s z := Run.CoveredOn.trans hxy hyz

/-- A sequence covers another if its parts cover the parts; the scope is still there after
the first. -/
theorem CoveredIn.bind {x y : Eval α} {f g : α → Eval β} (hx : x.CoveredIn s y)
    (hf : ∀ a, (f a).CoveredIn s (g a)) : (x >>= f).CoveredIn s (y >>= g) :=
  Run.CoveredOn.bind hx (fun m hm => hm.of_frame_eq (run_frame x m)) hf

/-- Computations that do the same cover each other. -/
theorem coveredIn_of_run_eq {x y : Eval α} (h : ∀ m, m.Fits s → x.run m = y.run m) :
    x.CoveredIn s y := fun m hm _ => (h m hm).symm

/-- Covering is kept by opening a scope around both. -/
theorem coveredIn_inScope {f g : ScopeId → Eval α}
    (h : ∀ inner, (f inner).CoveredIn inner (g inner)) :
    (inScope s f).CoveredIn s (inScope s g) :=
  coveredOn_inScope fun _ hm => (h _).mono fun _ heq => heq ▸ hm.pushScope

/-! ## Rounds -/

/-- A statement alone is executed as it is. -/
theorem run_execAll_singleton (n : Nat) (s : ScopeId) (st : Statement) :
    (execAll (n + 2) s [st]).run = (exec (n + 1) s st).run := by
  funext m
  by_cases hnormal : (exec (n + 1) s st m).1 = .done .normal
  · have hrun : exec (n + 1) s st m = (.done .normal, (exec (n + 1) s st m).2) :=
      Prod.ext hnormal rfl
    rw [execAll_cons_of_normal hrun]
    exact hrun.symm
  · exact execAll_cons_of_ne hnormal []

/-- Statements in order of which there is only one are covered by that one. -/
theorem execAll_singleton_covered (n : Nat) (s : ScopeId) (st : Statement) :
    (execAll n s [st]).Covered (exec n s st) := by
  rcases n with _ | _ | n
  · exact covered_starve _
  · exact fun m _ hend => absurd rfl hend
  · intro m _ hend
    rw [run_execAll_singleton] at hend ⊢
    exact exec_covered (Nat.le_succ (n + 1)) s st m trivial hend

end Eval

/-- The expression is a call, which as a statement need not give a value. -/
def Expr.IsCall : Expr → Prop
  | .call _ _ _ => True
  | _ => False

namespace Eval

variable {s : ScopeId} {condition step : Expr} {body : Statement} {n : Nat}

/-- Of the values that a computation gives nothing need be known. -/
theorem yields_true {α : Type} (x : Eval α) : x.Yields fun _ => True := fun _ _ _ _ => trivial

/-- Two sequences agree that agree on what their first part can give. -/
theorem Yields.run_bind_congr {α β : Type} {x : Eval α} {P : α → Prop} (hx : x.Yields P)
    {f g : α → Eval β} (hfg : ∀ a, P a → (f a).run = (g a).run) :
    (x.bind f).run = (x.bind g).run := by
  funext m
  rcases hrun : x.run m with ⟨a | fault | _, m'⟩ <;> simp only [run, Run.bind, hrun]
  rw [hfg a (hx m a m' hrun)]

/-- Two steps and a third do the same however they are put together. -/
theorem run_bind_assoc {α β γ : Type} (x : Eval α) (f : α → Eval β) (g : β → Eval γ) :
    ((x.bind f).bind g).run = (x.bind fun a => (f a).bind g).run :=
  bind_assoc x.run (fun a => (f a).run) fun b => (g b).run

/-- An expression other than a call, as a statement, is evaluated and its value is
dropped. -/
theorem exec_evaluate {e : Expr} (he : ¬ e.IsCall) (n : Nat) (s : ScopeId) (u : Position) :
    exec (n + 1) s (.evaluate u e) = .bind (eval n s e) fun _ => .pure .normal := by
  cases e with
  | call p name arguments => exact absurd trivial he
  | _ => rfl

/-- A round of a `for` loop: the body and, if it ends normally, the step. -/
def forRound (n : Nat) (scope : ScopeId) (step : Expr) (body : Statement) : Eval Flow :=
  .bind (exec n scope body) fun
    | .normal => .bind (eval n scope step) fun _ => .pure .normal
    | flow => .pure flow

/-- Where the condition holds a round is made, after which the loop ends or goes on as
`rest`. -/
def loop (test : Eval Bool) (round rest : Eval Flow) : Eval Flow := do
  if ← test then
    let flow ← round
    match flow.afterRound with
    | some ending => pure ending
    | none => rest
  else pure .normal

/-- The rounds of a `while` loop are a loop of its condition and its body. -/
theorem whileRounds_succ (n : Nat) (s : ScopeId) (condition : Expr) (body : Statement) :
    whileRounds (n + 1) s condition body =
      loop (holds n s condition) (exec n s body) (whileRounds n s condition body) := rfl

/-- Without a stray `continue` the step is made where the body ends normally. -/
theorem run_forRounds_succ (hbody : ∀ p, ¬ body.Stray .continues p) (n : Nat) (s : ScopeId)
    (condition step : Expr) :
    (forRounds (n + 1) s condition step body).run =
      (loop (holds n s condition) (forRound n s step body)
        (forRounds n s condition step body)).run := by
  refine (yields_true _).run_bind_congr fun truth _ => ?_
  cases truth with
  | false => rfl
  | true =>
      refine Eq.trans ((exec_yields n s body).run_bind_congr fun flow hflow => ?_)
        (run_bind_assoc _ _ _).symm
      cases flow with
      | normal =>
          dsimp only
          rw [run_bind_assoc]
          rfl
      | broke p => rfl
      | returned value p => rfl
      | continued p => exact absurd (hflow .continues p rfl) (hbody p)

/-- Loops are covered part by part. -/
theorem CoveredIn.loop {test test' : Eval Bool} {round round' rest rest' : Eval Flow}
    (htest : test.CoveredIn s test') (hround : round.CoveredIn s round')
    (hrest : rest.CoveredIn s rest') :
    (loop test round rest).CoveredIn s (loop test' round' rest') := by
  refine htest.bind fun truth => ?_
  cases truth with
  | true =>
      refine hround.bind fun flow => ?_
      split
      · exact coveredIn_refl _
      · exact hrest
  | false => exact coveredIn_refl _

/-- The scope of a round of the `while` form makes no difference. -/
theorem run_exec_round (hbody : ¬ body.IsDeclaration) (n : Nat) (r u : Position) {m : Machine}
    (hm : m.Fits s) :
    (exec (n + 1) s (.block r [body, .evaluate u step])).run m =
      (execAll n s [body, .evaluate u step]).run m := by
  have hundeclaring : ∀ st ∈ [body, .evaluate u step], ¬ st.IsDeclaration := by
    intro st hst
    rcases List.mem_pair.mp hst with rfl | rfl
    · exact hbody
    · exact id
  exact run_inScope_of_undeclaring ((undeclaringUpTo n).execAll s _ hundeclaring)
    (fun t => (parallelUpTo True n).execAll s t _) hm.down hm.lt_size

/-- Neither does the scope of the `while` loop. -/
theorem run_exec_whileLoop (hbody : ¬ body.IsDeclaration) (n : Nat) (q : Position) {m : Machine}
    (hm : m.Fits s) :
    (exec (n + 1) s (.whileLoop q condition body)).run m =
      (whileRounds n s condition body).run m :=
  run_inScope_of_undeclaring ((undeclaringUpTo n).whileRounds s condition body hbody)
    (fun t => (parallelUpTo True n).whileRounds s t condition body) hm.down hm.lt_size

/-- The block of body and step is covered by a round of the `for` loop, which opens no scope
of its own. -/
theorem exec_round_coveredIn (hbody : ¬ body.IsDeclaration) (hstep : ¬ step.IsCall) (n : Nat)
    (r u : Position) :
    (exec n s (.block r [body, .evaluate u step])).CoveredIn s (forRound n s step body) := by
  have hlast : ∀ k, (execAll k s [.evaluate u step]).Covered
      (.bind (eval (k + 2) s step) fun _ => .pure .normal) := by
    intro k
    rw [← exec_evaluate hstep]
    exact (execAll_singleton_covered k s _).trans (exec_covered (by omega) s _)
  rcases n with _ | _ | n
  · exact (covered_starve _).coveredIn
  · intro m hm hend
    rw [run_exec_round hbody 0 r u hm] at hend
    exact absurd rfl hend
  · refine CoveredIn.trans (coveredIn_of_run_eq fun m hm => run_exec_round hbody (n + 1) r u hm) ?_
    refine Covered.coveredIn ((exec_covered (by omega) s body).bind fun flow => ?_)
    cases flow with
    | normal => exact hlast n
    | _ => exact covered_refl _

/-- A round of the `for` loop is covered by the block of body and step, with a little more
fuel. -/
theorem forRound_coveredIn (hbody : ¬ body.IsDeclaration) (hstep : ¬ step.IsCall) (n : Nat)
    (r u : Position) :
    (forRound n s step body).CoveredIn s (exec (n + 4) s (.block r [body, .evaluate u step])) := by
  have hlast : (.bind (eval n s step) fun _ => .pure .normal : Eval Flow).run =
      (execAll (n + 2) s [.evaluate u step]).run := by
    rw [run_execAll_singleton, exec_evaluate hstep]
  refine CoveredIn.trans ?_
    (coveredIn_of_run_eq fun m hm => (run_exec_round hbody (n + 3) r u hm).symm)
  refine Covered.coveredIn ((exec_covered (by omega) s body).bind fun flow => ?_)
  cases flow with
  | normal => exact fun m _ _ => (congrFun hlast m).symm
  | _ => exact covered_refl _

/-! ## Loops -/

/-- The round of the `while` form is covered by that of the `for` loop, and so the loop. -/
theorem whileRounds_coveredIn_forRounds (hbody : ¬ body.IsDeclaration)
    (hcontinue : ∀ p, ¬ body.Stray .continues p) (hstep : ¬ step.IsCall) (n : Nat)
    (r u : Position) :
    (whileRounds n s condition (.block r [body, .evaluate u step])).CoveredIn s
      (forRounds n s condition step body) := by
  induction n with
  | zero => exact (covered_starve _).coveredIn
  | succ n ih =>
      rw [whileRounds_succ]
      refine CoveredIn.trans ?_
        (coveredIn_of_run_eq fun m _ => (congrFun (run_forRounds_succ hcontinue n s _ _) m).symm)
      exact (coveredIn_refl _).loop (exec_round_coveredIn hbody hstep n r u) ih

/-- With four units of fuel more, one for each statement of a round and its scope, the
`while` form makes the rounds of the `for` loop. -/
theorem forRounds_coveredIn_whileRounds (hbody : ¬ body.IsDeclaration)
    (hcontinue : ∀ p, ¬ body.Stray .continues p) (hstep : ¬ step.IsCall) (n : Nat)
    (r u : Position) :
    (forRounds n s condition step body).CoveredIn s
      (whileRounds (n + 4) s condition (.block r [body, .evaluate u step])) := by
  induction n with
  | zero => exact (covered_starve _).coveredIn
  | succ n ih =>
      rw [whileRounds_succ]
      refine CoveredIn.trans
        (coveredIn_of_run_eq fun m _ => congrFun (run_forRounds_succ hcontinue n s _ _) m) ?_
      exact (holds_covered (by omega) s condition).coveredIn.loop
        (forRound_coveredIn hbody hstep n r u) ih

end Eval

namespace Statement

/-- The `while` loop that makes the rounds of a `for` loop. -/
def whileForm (q r u : Position) (condition step : Expr) (body : Statement) : Statement :=
  .whileLoop q condition (.block r [body, .evaluate u step])

end Statement

namespace Eval

variable {s : ScopeId} {condition step : Expr} {body : Statement} {n : Nat}

/-- The `while` form is covered by the rounds of the `for` loop. -/
theorem execAll_whileForm_coveredIn (hbody : ¬ body.IsDeclaration)
    (hcontinue : ∀ p, ¬ body.Stray .continues p) (hstep : ¬ step.IsCall) (n : Nat)
    (q r u : Position) :
    (execAll n s [.whileForm q r u condition step body]).CoveredIn s
      (forRounds n s condition step body) := by
  refine (execAll_singleton_covered n s _).coveredIn.trans ?_
  cases n with
  | zero => exact (covered_starve _).coveredIn
  | succ n =>
      refine (coveredIn_of_run_eq fun m hm => run_exec_whileLoop id n q hm).trans ?_
      refine (whileRounds_coveredIn_forRounds hbody hcontinue hstep n r u).trans ?_
      exact ((coveredUpTo n).forRounds s condition step body).coveredIn

/-- The rounds of the `for` loop are covered by the `while` form, with a little more
fuel. -/
theorem forRounds_coveredIn_execAll (hbody : ¬ body.IsDeclaration)
    (hcontinue : ∀ p, ¬ body.Stray .continues p) (hstep : ¬ step.IsCall) (n : Nat)
    (q r u : Position) :
    (forRounds n s condition step body).CoveredIn s
      (execAll (n + 6) s [.whileForm q r u condition step body]) := by
  refine (forRounds_coveredIn_whileRounds hbody hcontinue hstep n r u).trans ?_
  refine coveredIn_of_run_eq fun m hm => ?_
  rw [run_execAll_singleton]
  exact (run_exec_whileLoop id (n + 4) q hm).symm

/-! ## The beginning of a loop -/

/-- An expression that stands first is evaluated before the other statements. -/
theorem run_execAll_evaluate_cons {e : Expr} (he : ¬ e.IsCall) (n : Nat) (s : ScopeId)
    (u : Position) (rest : List Statement) :
    (execAll (n + 2) s (.evaluate u e :: rest)).run =
      (.bind (eval n s e) fun _ => execAll (n + 1) s rest : Eval Flow).run := by
  have hcons : execAll (n + 2) s (.evaluate u e :: rest) =
      .bind (exec (n + 1) s (.evaluate u e)) fun
        | .normal => execAll (n + 1) s rest
        | flow => .pure flow := rfl
  rw [hcons, exec_evaluate he, run_bind_assoc]
  rfl

/-- A `for` loop without a counter is covered by its block with the `while` form. -/
theorem exec_forLoop_coveredIn {first : Expr} (hfirst : ¬ first.IsCall)
    (hbody : ¬ body.IsDeclaration) (hcontinue : ∀ p, ¬ body.Stray .continues p)
    (hstep : ¬ step.IsCall) (n : Nat) (p o l q r u : Position) :
    (exec n s (.forLoop p none first condition step body)).CoveredIn s
      (exec (n + 7) s (.block o [.evaluate l first, .whileForm q r u condition step body])) := by
  cases n with
  | zero => exact (covered_starve _).coveredIn
  | succ n =>
      refine coveredIn_inScope fun inner => ?_
      refine CoveredIn.trans ?_ (coveredIn_of_run_eq fun m _ =>
        (congrFun (run_execAll_evaluate_cons hfirst (n + 5) inner l _) m).symm)
      exact (eval_covered (by omega) inner first).coveredIn.bind fun _ =>
        forRounds_coveredIn_execAll hbody hcontinue hstep n q r u

/-- The block with the `while` form is covered by the `for` loop without a counter. -/
theorem exec_block_coveredIn {first : Expr} (hfirst : ¬ first.IsCall)
    (hbody : ¬ body.IsDeclaration) (hcontinue : ∀ p, ¬ body.Stray .continues p)
    (hstep : ¬ step.IsCall) (n : Nat) (p o l q r u : Position) :
    (exec n s (.block o [.evaluate l first, .whileForm q r u condition step body])).CoveredIn s
      (exec n s (.forLoop p none first condition step body)) := by
  rcases n with _ | n
  · exact (covered_starve _).coveredIn
  · refine coveredIn_inScope fun inner => ?_
    rcases n with _ | _ | n
    · exact (covered_starve _).coveredIn
    · exact fun m _ hend => absurd rfl hend
    · refine CoveredIn.trans (coveredIn_of_run_eq fun m _ =>
        congrFun (run_execAll_evaluate_cons hfirst n inner l _) m) ?_
      refine (eval_covered (by omega) inner first).coveredIn.bind fun _ => ?_
      refine (execAll_whileForm_coveredIn hbody hcontinue hstep (n + 1) q r u).trans ?_
      exact ((coveredUpTo (n + 1)).forRounds inner condition step body).coveredIn

end Eval

/-- The expression has the value in every scope and on every machine, with enough fuel, and
evaluating it changes nothing. -/
def Expr.Constant (e : Expr) (value : Value) : Prop :=
  ∃ enough, ∀ n, enough ≤ n → ∀ scope m, Eval.eval n scope e m = (.done value, m)

/-- A literal is constant. -/
theorem Expr.constant_literal (p : Position) (literal : Literal) :
    (Expr.literal p literal).Constant (.ofLiteral literal) := by
  refine ⟨1, fun n hn scope m => ?_⟩
  obtain ⟨n, rfl⟩ : ∃ k, n = k + 1 := ⟨n - 1, by omega⟩
  rfl

namespace Eval

variable {s : ScopeId} {condition step first : Expr} {body : Statement} {n : Nat} {v : String}
  {value : Value} {m : Machine}

/-- Declaring a variable in a new scope and giving it a value is declaring it with the
value. -/
theorem perform_fillVariable_declare (v : String) (value : Value) (position : Option Position)
    (m : Machine) (s : ScopeId) :
    (Step.fillVariable m.scopes.size v value position).perform
        ((m.pushScope s).declare m.scopes.size v none) =
      (.done (), (m.pushScope s).declare m.scopes.size v (some value)) := by
  have hnew := m.getElem?_pushScope_self s
  have hfilled : ((m.pushScope s).declare m.scopes.size v none).scopes.modify m.scopes.size
      (·.setVariable (Name.fold v) value) =
      ((m.pushScope s).declare m.scopes.size v (some value)).scopes := by
    apply Array.ext_getElem?
    intro i
    simp only [Machine.declare, Array.getElem?_modify]
    by_cases hi : m.scopes.size = i
    · subst hi
      simp [hnew, Scope.addVariable, Scope.setVariable, Scope.empty]
    · simp only [if_neg hi]
  rw [Step.perform_fillVariable (Machine.declares_declare hnew v none)]
  simp only [Machine.fill, hfilled]
  rfl

/-- A declaration with a constant, as the first statement in a new scope. -/
theorem run_execAll_declare_cons {enough : Nat}
    (hfirst : ∀ n, enough ≤ n → ∀ scope m, eval n scope first m = (.done value, m))
    (hn : enough ≤ n) (o : Position) (rest : List Statement) :
    (execAll (n + 2) m.scopes.size (.declare o v (some first) :: rest)).run (m.pushScope s) =
      (execAll (n + 1) m.scopes.size rest).run
        ((m.pushScope s).declare m.scopes.size v (some value)) := by
  have hnew := m.getElem?_pushScope_self s
  refine execAll_cons_of_normal ?_ rest
  refine Run.bind_eq_of_done (Step.perform_declareVariable_of_new hnew rfl) ?_
  refine Run.bind_eq_of_done (hfirst n hn _ _) ?_
  exact Run.bind_eq_of_done (perform_fillVariable_declare v value (some o) m s) rfl

/-- The beginning of a `for` loop with a counter and a constant. -/
theorem run_forLoop_counter {enough : Nat}
    (hfirst : ∀ n, enough ≤ n → ∀ scope m, eval n scope first m = (.done value, m))
    (hn : enough ≤ n) (p : Position) (rest : Eval Flow) :
    (.bind (eval n m.scopes.size first) fun x =>
      .bind (declareVariable m.scopes.size v (some x) (some p)) fun _ => rest : Eval Flow).run
        (m.pushScope s) =
      rest.run ((m.pushScope s).declare m.scopes.size v (some value)) := by
  have hnew := m.getElem?_pushScope_self s
  refine Run.bind_eq_of_done (hfirst n hn _ _) ?_
  exact Run.bind_eq_of_done (Step.perform_declareVariable_of_new hnew rfl) rfl

/-- A variable in a new scope changes nothing about where scopes stand. -/
theorem fits_declare (hm : m.Fits s) (v : String) (value : Option Value) :
    ((m.pushScope s).declare m.scopes.size v value).Fits m.scopes.size := by
  have hnew := m.getElem?_pushScope_self s
  have hframe := run_frame (declareVariable m.scopes.size v value none) (m.pushScope s)
  rw [run, Step.perform_declareVariable_of_new hnew rfl] at hframe
  exact hm.pushScope.of_frame_eq hframe

/-- A `for` loop with a counter is covered by the block that declares the counter first. -/
theorem exec_forLoop_counter_coveredIn (hfirst : first.Constant value)
    (hbody : ¬ body.IsDeclaration) (hcontinue : ∀ p, ¬ body.Stray .continues p)
    (hstep : ¬ step.IsCall) (p o l q r u : Position) :
    ∃ more, ∀ n, (exec n s (.forLoop p (some v) first condition step body)).CoveredIn s
      (exec (n + more) s
        (.block o [.declare l v (some first), .whileForm q r u condition step body])) := by
  obtain ⟨enough, hfirst⟩ := hfirst
  refine ⟨enough + 8, fun n => ?_⟩
  refine (exec_covered (by omega : n ≤ n + enough + 1) s _).coveredIn.trans ?_
  refine coveredOn_inScope fun m hm => ?_
  rintro _ rfl hend
  have hfor := run_forLoop_counter (m := m) (s := s) (v := v) hfirst
    (by omega : enough ≤ n + enough) p (forRounds (n + enough) m.scopes.size condition step body)
  have hblock := run_execAll_declare_cons (m := m) (s := s) (v := v) hfirst
    (by omega : enough ≤ n + enough + 5) l [.whileForm q r u condition step body]
  refine hblock.trans (Eq.trans ?_ hfor.symm)
  exact forRounds_coveredIn_execAll hbody hcontinue hstep (n + enough) q r u _
    (fits_declare hm v (some value)) (hfor ▸ hend)

/-- The block that declares the counter first is covered by the `for` loop with a
counter. -/
theorem exec_block_counter_coveredIn (hfirst : first.Constant value)
    (hbody : ¬ body.IsDeclaration) (hcontinue : ∀ p, ¬ body.Stray .continues p)
    (hstep : ¬ step.IsCall) (p o l q r u : Position) :
    ∃ more, ∀ n, (exec n s
        (.block o [.declare l v (some first), .whileForm q r u condition step body])).CoveredIn s
      (exec (n + more) s (.forLoop p (some v) first condition step body)) := by
  obtain ⟨enough, hfirst⟩ := hfirst
  refine ⟨enough + 2, fun n => ?_⟩
  refine (exec_covered (by omega : n ≤ n + enough + 3) s _).coveredIn.trans ?_
  refine coveredOn_inScope fun m hm => ?_
  rintro _ rfl hend
  have hblock := run_execAll_declare_cons (m := m) (s := s) (v := v) hfirst
    (by omega : enough ≤ n + enough) l [.whileForm q r u condition step body]
  have hfor := run_forLoop_counter (m := m) (s := s) (v := v) hfirst
    (by omega : enough ≤ n + enough + 1) p
    (forRounds (n + enough + 1) m.scopes.size condition step body)
  refine hfor.trans (Eq.trans ?_ hblock.symm)
  exact execAll_whileForm_coveredIn hbody hcontinue hstep (n + enough + 1) q r u _
    (fits_declare hm v (some value)) (hblock ▸ hend)

/-- What each of two computations covers of the other, they end alike, given the fuel. -/
theorem exists_run_eq_iff {α : Type} {x y : Nat → Eval α} (hm : m.Fits s)
    (hxy : ∃ more, ∀ n, (x n).CoveredIn s (y (n + more)))
    (hyx : ∃ more, ∀ n, (y n).CoveredIn s (x (n + more))) {r : Outcome Fault α × Machine}
    (hend : r.1 ≠ .outOfFuel) : (∃ n, x n m = r) ↔ ∃ n, y n m = r := by
  obtain ⟨more, hxy⟩ := hxy
  obtain ⟨more', hyx⟩ := hyx
  constructor
  · rintro ⟨n, rfl⟩
    exact ⟨n + more, hxy n m hm hend⟩
  · rintro ⟨n, rfl⟩
    exact ⟨n + more', hyx n m hm hend⟩

/-- **A `for` loop does what its `while` form does.**  In every scope of a machine on which
parents stand before their children, the two end in the same way and on the same machine,
with the same scopes, lists and printed lines, if they end at all: with an expression to
begin with that is no call, and with a counter that begins with a constant.  The step is no
call either, and no `continue` in the body belongs to the loop.  Nothing is asked of the
functions that are called. -/
theorem forLoop_iff_whileForm {scope : ScopeId} (hdown : m.scopes.Downward)
    (hscope : scope < m.scopes.size) {b : Position} {ss : List Statement}
    (hcontinue : ∀ p, ¬ (Statement.block b ss).Stray .continues p) (hstep : ¬ step.IsCall)
    {r : Outcome Fault Flow × Machine} (hend : r.1 ≠ .outOfFuel) (condition : Expr)
    (p o l q t u : Position) :
    (∀ first, ¬ first.IsCall →
      ((∃ n, exec n scope (.forLoop p none first condition step (.block b ss)) m = r) ↔
        ∃ n, exec n scope (.block o [.evaluate l first,
          .whileLoop q condition (.block t [.block b ss, .evaluate u step])]) m = r)) ∧
    ∀ v first value, first.Constant value →
      ((∃ n, exec n scope (.forLoop p (some v) first condition step (.block b ss)) m = r) ↔
        ∃ n, exec n scope (.block o [.declare l v (some first),
          .whileLoop q condition (.block t [.block b ss, .evaluate u step])]) m = r) := by
  have hm : m.Fits scope := ⟨hdown, hscope⟩
  constructor
  · intro first hfirst
    exact exists_run_eq_iff hm
      ⟨7, fun n => exec_forLoop_coveredIn hfirst id hcontinue hstep n p o l q t u⟩
      ⟨0, fun n => exec_block_coveredIn hfirst id hcontinue hstep n p o l q t u⟩ hend
  · intro v first value hfirst
    exact exists_run_eq_iff hm
      (exec_forLoop_counter_coveredIn hfirst id hcontinue hstep p o l q t u)
      (exec_block_counter_coveredIn hfirst id hcontinue hstep p o l q t u) hend

end Eval

/-- The condition `i < 2`. -/
def Expr.belowTwo : Expr :=
  .binary ⟨"main", 1, 17⟩ .less ⟨"main", 1, 19⟩ (.var ⟨"main", 1, 17⟩ "i")
    (.literal ⟨"main", 1, 21⟩ (.int 2))

/-- The step `i = i + 1`. -/
def Expr.nextNumber : Expr :=
  .assign ⟨"main", 1, 24⟩ ⟨"main", 1, 24⟩ "i"
    (.binary ⟨"main", 1, 28⟩ .add ⟨"main", 1, 30⟩ (.var ⟨"main", 1, 28⟩ "i")
      (.literal ⟨"main", 1, 32⟩ (.int 1)))

/-- The block `{ print(i); }`. -/
def Statement.printNumber : Statement :=
  .block ⟨"main", 1, 35⟩
    [.ofExpr (.call ⟨"main", 1, 37⟩ "print" [.var ⟨"main", 1, 43⟩ "i"])]

/-- The loop `for (var i = 0; i < 2; i = i + 1) { print(i); }`. -/
def Statement.countToTwo : Statement :=
  .forLoop ⟨"main", 1, 1⟩ (some "i") (.literal ⟨"main", 1, 14⟩ (.int 0)) .belowTwo .nextNumber
    .printNumber

namespace Eval

/-- The loop prints two numbers, and its `while` form ends on the same machine. -/
theorem forLoop_iff_whileForm_countToTwo :
    ((exec 30 0 .countToTwo (Session.start 8 [.print])).1 = .done .normal ∧
      (exec 30 0 .countToTwo (Session.start 8 [.print])).2.output = #["0", "1"]) ∧
    ∃ n, exec n 0 (.block ⟨"main", 1, 1⟩
      [.declare ⟨"main", 1, 3⟩ "i" (some (.literal ⟨"main", 1, 14⟩ (.int 0))),
        .whileLoop ⟨"main", 1, 17⟩ .belowTwo
          (.block ⟨"main", 1, 23⟩ [.printNumber, .ofExpr .nextNumber])])
      (Session.start 8 [.print]) = exec 30 0 .countToTwo (Session.start 8 [.print]) := by
  have hran : (exec 30 0 .countToTwo (Session.start 8 [.print])).1 = .done .normal := by
    decide +kernel
  have hend : (exec 30 0 .countToTwo (Session.start 8 [.print])).1 ≠ .outOfFuel := by
    rw [hran]
    intro hend
    cases hend
  have hdown : (Session.start 8 [.print]).scopes.Downward :=
    (Session.setUp_start 8 [.print]).orderly.downward
  have hcontinue : ∀ p, ¬ Statement.printNumber.Stray .continues p := by
    intro p hstray
    obtain ⟨s, hs, hstray⟩ := hstray.of_block
    rw [List.mem_singleton] at hs
    cases hstray with
    | here => cases hs
    | _ => cases hs
  refine ⟨⟨hran, by decide +kernel⟩, ?_⟩
  have hscope : 0 < (Session.start 8 [.print]).scopes.size := by decide +kernel
  have hstep : ¬ Expr.nextNumber.IsCall := id
  have hforms := forLoop_iff_whileForm hdown hscope hcontinue hstep hend .belowTwo
    ⟨"main", 1, 1⟩ ⟨"main", 1, 1⟩ ⟨"main", 1, 3⟩ ⟨"main", 1, 17⟩ ⟨"main", 1, 23⟩
    Expr.nextNumber.position
  exact (hforms.2 "i" _ _ (Expr.constant_literal ⟨"main", 1, 14⟩ (.int 0))).mp ⟨30, rfl⟩

end Eval

end Scriptlet
