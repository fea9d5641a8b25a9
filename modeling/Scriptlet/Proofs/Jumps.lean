import Scriptlet.Evaluator

/-!
# Jumps stay in their loops

A `break` or `continue` is stray in a statement if no loop of the statement has it
in its body (`Statement.Stray`).  Only stray jumps leave a statement: a loop ends
the jumps of its body, and every other statement hands on the jumps of its parts
(`Eval.exec_yields`).  This holds on every machine and says nothing of calls, for
the ending of a call is a value or a fault and never a jump.
-/

namespace Scriptlet

/-- The two ways to leave a round of a loop. -/
inductive Jump where
  | breaks
  | continues
  deriving DecidableEq

namespace Jump

/-- The statement that jumps. -/
def statement : Jump → Position → Statement
  | .breaks => .breaks
  | .continues => .continues

/-- How control goes on after the jump. -/
def flow : Jump → Position → Flow
  | .breaks => .broke
  | .continues => .continued

/-- What is wrong if the jump leaves a function or a script. -/
def outside : Jump → Fault.Cause
  | .breaks => .breakOutsideLoop
  | .continues => .continueOutsideLoop

end Jump

/-- There is a jump at the place in the statement, in the body of no loop of it. -/
inductive Statement.Stray (jump : Jump) (p : Position) : Statement → Prop where
  | here : Stray jump p (jump.statement p)
  | inBlock {q : Position} {ss : List Statement} {s : Statement} (hs : s ∈ ss)
      (h : Stray jump p s) : Stray jump p (.block q ss)
  | inThen {q : Position} {condition : Expr} {thenBranch : Statement}
      {elseBranch : Option Statement} (h : Stray jump p thenBranch) :
      Stray jump p (.ifElse q condition thenBranch elseBranch)
  | inElse {q : Position} {condition : Expr} {thenBranch elseBranch : Statement}
      (h : Stray jump p elseBranch) :
      Stray jump p (.ifElse q condition thenBranch (some elseBranch))

/-- There is a jump at the place in one of the statements, in the body of no loop of it. -/
def Statement.StrayAmong (jump : Jump) (p : Position) (ss : List Statement) : Prop :=
  ∃ s ∈ ss, s.Stray jump p

/-- The stray jumps of a block are those of its statements. -/
theorem Statement.Stray.of_block {jump : Jump} {p q : Position} {ss : List Statement}
    (h : (Statement.block q ss).Stray jump p) : Statement.StrayAmong jump p ss := by
  generalize hblock : Statement.block q ss = s at h
  cases h with
  | here => cases jump <;> cases hblock
  | inBlock hs h =>
      cases hblock
      exact ⟨_, hs, h⟩
  | inThen | inElse => cases hblock

/-- There is a jump at the place in the script, in the body of no loop of the same function
or, outside functions, of the script. -/
def Script.Stray (script : Script) (jump : Jump) (p : Position) : Prop :=
  Statement.StrayAmong jump p script.statements ∨
    ∃ f ∈ script.functions, Statement.StrayAmong jump p f.body

namespace Flow

/-- If control jumps, then from a place where `stray` allows it. -/
def Jumps (stray : Jump → Position → Prop) (flow : Flow) : Prop :=
  ∀ jump p, flow = jump.flow p → stray jump p

variable {stray stray' : Jump → Position → Prop} {flow : Flow}

/-- What is allowed from few places is allowed from more. -/
theorem Jumps.mono (h : flow.Jumps stray) (hstray : ∀ jump p, stray jump p → stray' jump p) :
    flow.Jumps stray' := fun jump p heq =>
  hstray jump p (h jump p heq)

/-- A normal ending is no jump. -/
theorem jumps_normal : normal.Jumps stray := by
  intro jump p heq
  cases jump <;> cases heq

/-- A return is no jump. -/
theorem jumps_returned (value : Option Value) (q : Position) : (returned value q).Jumps stray := by
  intro jump p heq
  cases jump <;> cases heq

/-- A jump leaves its own statement, where it is a stray one. -/
theorem jumps_flow (jump : Jump) (p : Position) :
    (jump.flow p).Jumps fun jump' p' => (jump.statement p).Stray jump' p' := by
  intro jump' p' heq
  cases jump <;> cases jump' <;> cases heq
  · exact .here
  · exact .here

/-- A loop does not jump, whatever its rounds do. -/
theorem jumps_afterRound {ending : Flow} (h : flow.afterRound = some ending) :
    ending.Jumps stray := by
  cases flow with
  | normal | continued => cases h
  | broke =>
      cases h
      exact jumps_normal
  | returned value p =>
      cases h
      exact jumps_returned value p

end Flow

namespace Eval

variable {α β : Type}

/-! ## What a computation gives -/

/-- Whatever the machine, the computation gives only values that satisfy `P`. -/
def Yields (x : Eval α) (P : α → Prop) : Prop :=
  ∀ m a m', x.run m = (.done a, m') → P a

/-- Giving a value gives only that. -/
theorem yields_pure {P : α → Prop} {a : α} (h : P a) : (pure a : Eval α).Yields P := by
  intro m b m' hrun
  cases hrun
  exact h

theorem yields_starve {P : α → Prop} : (starve : Eval α).Yields P := by
  intro m a m' hrun
  cases hrun

/-- What is known of the values may be weakened. -/
theorem Yields.mono {P Q : α → Prop} {x : Eval α} (h : x.Yields P) (hPQ : ∀ a, P a → Q a) :
    x.Yields Q := fun m a m' hrun =>
  hPQ a (h m a m' hrun)

/-- The rule for sequences: what is known of the first value goes into the second part. -/
theorem Yields.bind {P : α → Prop} {Q : β → Prop} {x : Eval α} {f : α → Eval β}
    (hx : x.Yields P) (hf : ∀ a, P a → (f a).Yields Q) : (x >>= f).Yields Q := by
  intro m b m' hrun
  obtain ⟨a, m₁, hrunx, hrunf⟩ := Run.bind_eq_done_iff.mp hrun
  exact hf a (hx m a m₁ hrunx) m₁ b m' hrunf

/-- What a sequence gives is given by what comes last. -/
theorem yields_bind {Q : β → Prop} {x : Eval α} {f : α → Eval β} (hf : ∀ a, (f a).Yields Q) :
    (x >>= f).Yields Q := by
  have hx : x.Yields fun _ => True := fun _ _ _ _ => trivial
  exact hx.bind fun a _ => hf a

/-- The rule for scopes: the values are those of the body. -/
theorem yields_inScope {P : α → Prop} {parent : ScopeId} {body : ScopeId → Eval α}
    (h : ∀ scope, (body scope).Yields P) : (inScope parent body).Yields P := by
  intro m a m' hrun
  have hbody : ((body m.scopes.size).run (m.pushScope parent)).1 = .done a :=
    congrArg Prod.fst hrun
  exact h m.scopes.size _ a _ (Prod.ext hbody rfl)

/-! ## The evaluator -/

/-- With `n` units of fuel only stray jumps leave a statement, and none leaves a loop. -/
structure JumpsUpTo (n : Nat) : Prop where
  exec : ∀ scope s, (exec n scope s).Yields (Flow.Jumps fun jump p => s.Stray jump p)
  execAll : ∀ scope ss,
    (execAll n scope ss).Yields (Flow.Jumps fun jump p => Statement.StrayAmong jump p ss)
  whileRounds : ∀ scope condition body,
    (whileRounds n scope condition body).Yields (Flow.Jumps fun _ _ => False)
  forRounds : ∀ scope condition step body,
    (forRounds n scope condition step body).Yields (Flow.Jumps fun _ _ => False)
  forEachRounds : ∀ scope p item id index body,
    (forEachRounds n scope p item id index body).Yields (Flow.Jumps fun _ _ => False)

/-- After a round a loop ends without a jump or goes on. -/
theorem yields_afterRound {stray : Jump → Position → Prop} (flow : Flow) {next : Eval Flow}
    (h : next.Yields (Flow.Jumps stray)) :
    (match flow.afterRound with
      | some ending => pure ending
      | none => next : Eval Flow).Yields (Flow.Jumps stray) := by
  split
  next ending hending => exact yields_pure (Flow.jumps_afterRound hending)
  next => exact h

namespace JumpsUpTo

variable {n : Nat} (ih : JumpsUpTo n)

include ih

/-- A jump out of a statement is at its own place or is one out of a part; none comes out of
a loop. -/
theorem exec_succ (scope : ScopeId) (s : Statement) :
    (Eval.exec (n + 1) scope s).Yields (Flow.Jumps fun jump p => s.Stray jump p) := by
  have hnormal : ∀ {stray}, (pure .normal : Eval Flow).Yields (Flow.Jumps stray) :=
    yields_pure Flow.jumps_normal
  have hrounds : ∀ {rounds : Eval Flow} {stray}, rounds.Yields (Flow.Jumps fun _ _ => False) →
      rounds.Yields (Flow.Jumps stray) := by
    intro rounds stray h
    exact h.mono fun flow hflow => hflow.mono fun _ _ hfalse => hfalse.elim
  cases s with
  | declare p name value =>
      refine yields_bind fun _ => ?_
      cases value with
      | none => exact hnormal
      | some e => exact yields_bind fun _ => yields_bind fun _ => hnormal
  | evaluate _ e =>
      cases e with
      | call p name arguments => exact yields_bind fun _ => hnormal
      | _ => exact yields_bind fun _ => hnormal
  | block p statements =>
      refine yields_inScope fun inner => (ih.execAll inner statements).mono fun flow hflow => ?_
      refine hflow.mono ?_
      rintro jump q ⟨s, hs, hstray⟩
      exact .inBlock hs hstray
  | ifElse p condition thenBranch elseBranch =>
      refine yields_inScope fun inner => yields_bind fun truth => ?_
      cases truth with
      | true =>
          exact (ih.exec inner thenBranch).mono fun flow hflow => hflow.mono fun _ _ => .inThen
      | false =>
          cases elseBranch with
          | none => exact hnormal
          | some s =>
              exact (ih.exec inner s).mono fun flow hflow => hflow.mono fun _ _ => .inElse
  | whileLoop p condition body =>
      exact yields_inScope fun inner => hrounds (ih.whileRounds inner condition body)
  | forLoop p counter start condition step body =>
      refine yields_inScope fun inner => yields_bind fun first => ?_
      have hfor := ih.forRounds inner condition step body
      cases counter with
      | some name => exact yields_bind fun _ => hrounds hfor
      | none => exact hrounds hfor
  | forEach p item collection body =>
      refine yields_bind fun v => yields_bind fun id => yields_inScope fun inner => ?_
      exact yields_bind fun _ => hrounds (ih.forEachRounds inner p item id 0 body)
  | returns p value =>
      cases value with
      | none => exact yields_pure (Flow.jumps_returned none p)
      | some e => exact yields_bind fun v => yields_pure (Flow.jumps_returned (some v) p)
  | breaks p => exact yields_pure (Flow.jumps_flow .breaks p)
  | continues p => exact yields_pure (Flow.jumps_flow .continues p)

/-- A jump out of statements in order is one out of the first statement that does not end
normally. -/
theorem execAll_succ (scope : ScopeId) (ss : List Statement) :
    (Eval.execAll (n + 1) scope ss).Yields
      (Flow.Jumps fun jump p => Statement.StrayAmong jump p ss) := by
  cases ss with
  | nil => exact yields_pure Flow.jumps_normal
  | cons s rest =>
      refine (ih.exec scope s).bind fun flow hflow => ?_
      have hfirst : flow.Jumps fun jump p => Statement.StrayAmong jump p (s :: rest) :=
        hflow.mono fun _ _ hstray => ⟨s, List.mem_cons_self, hstray⟩
      cases flow with
      | normal =>
          refine (ih.execAll scope rest).mono fun flow hflow => hflow.mono ?_
          rintro jump p ⟨s', hs', hstray⟩
          exact ⟨s', List.mem_cons_of_mem s hs', hstray⟩
      | _ => exact yields_pure hfirst

/-- No jump comes out of a `while` loop, since a round takes it. -/
theorem whileRounds_succ (scope : ScopeId) (condition : Expr) (body : Statement) :
    (Eval.whileRounds (n + 1) scope condition body).Yields (Flow.Jumps fun _ _ => False) := by
  refine yields_bind fun truth => ?_
  cases truth with
  | true =>
      exact yields_bind fun flow =>
        yields_afterRound flow (ih.whileRounds scope condition body)
  | false => exact yields_pure Flow.jumps_normal

/-- No jump comes out of a `for` loop, since a round takes it. -/
theorem forRounds_succ (scope : ScopeId) (condition step : Expr) (body : Statement) :
    (Eval.forRounds (n + 1) scope condition step body).Yields (Flow.Jumps fun _ _ => False) := by
  refine yields_bind fun truth => ?_
  cases truth with
  | true =>
      exact yields_bind fun flow => yields_afterRound flow <|
        yields_bind fun _ => ih.forRounds scope condition step body
  | false => exact yields_pure Flow.jumps_normal

/-- No jump comes out of a `foreach` loop, since a round takes it. -/
theorem forEachRounds_succ (scope : ScopeId) (p : Position) (item : String) (id : ListId)
    (index : Nat) (body : Statement) :
    (Eval.forEachRounds (n + 1) scope p item id index body).Yields
      (Flow.Jumps fun _ _ => False) := by
  refine yields_bind fun items => ?_
  split
  next => exact yields_pure Flow.jumps_normal
  next v _ =>
    exact yields_bind fun _ => yields_bind fun flow =>
      yields_afterRound flow (ih.forEachRounds scope p item id (index + 1) body)

end JumpsUpTo

/-- **Only stray jumps leave a statement, and none leaves a loop**, by induction on the
fuel. -/
theorem jumpsUpTo (n : Nat) : JumpsUpTo n := by
  induction n with
  | zero => constructor <;> intros <;> exact yields_starve
  | succ n ih =>
      exact ⟨ih.exec_succ, ih.execAll_succ, ih.whileRounds_succ, ih.forRounds_succ,
        ih.forEachRounds_succ⟩

/-- **Only stray jumps leave a statement.** -/
theorem exec_yields (n : Nat) (scope : ScopeId) (s : Statement) :
    (exec n scope s).Yields (Flow.Jumps fun jump p => s.Stray jump p) :=
  (jumpsUpTo n).exec scope s

/-- A jump out of statements is a stray one among them. -/
theorem execAll_yields (n : Nat) (scope : ScopeId) (ss : List Statement) :
    (execAll n scope ss).Yields (Flow.Jumps fun jump p => Statement.StrayAmong jump p ss) :=
  (jumpsUpTo n).execAll scope ss

end Eval

end Scriptlet
