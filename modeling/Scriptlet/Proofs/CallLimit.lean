import Scriptlet.Proofs.LikeRuns
import Scriptlet.Proofs.Parallel
import Scriptlet.Session

/-!
# The limit on calls

How many calls may be in progress at most is part of the machine, and nothing but the
beginning of a call looks at it.  So the limit decides where a run is cut off and nothing
else: up to there a run under a higher limit does the same, step by step
(`Eval.run_withLimit`, for every computation).

What is left is that no fault speaks of another limit than that of the machine.  That is no
matter of computations, which may fail as they like, but of the evaluator; it comes out of
running a script beside itself, since two machines correspond only under one limit and
only faults that name this limit correspond.
-/

namespace Scriptlet

/-- The machine with another limit on calls. -/
def Machine.withLimit (m : Machine) (limit : Nat) : Machine :=
  { m with maxCallDepth := limit }

/-- Another limit leaves the output as it is. -/
theorem Machine.output_withLimit (m : Machine) (limit : Nat) :
    (m.withLimit limit).output = m.output := rfl

namespace Step

variable {α : Type}

/-- The run does the same under every limit on calls. -/
def LimitFree (x : Run Machine Fault α) : Prop :=
  ∀ (m : Machine) (limit : Nat), x (m.withLimit limit) = ((x m).1, (x m).2.withLimit limit)

/-- What depends on the lists alone does not depend on the limit. -/
theorem HeapOnly.limitFree {x : Run Machine Fault α} (h : HeapOnly x) : LimitFree x := by
  intro m limit
  rw [h m, h (m.withLimit limit)]
  rfl

/-- What is done in a scope does not depend on the limit if the step behind the guard does
not. -/
theorem limitFree_inArena (scope : ScopeId) (position : Option Position)
    {body : Run Machine Fault α} (hbody : LimitFree body) :
    LimitFree (inArena scope position body) := by
  intro m limit
  unfold inArena
  by_cases hscope : scope < m.scopes.size
  · have hscope' : scope < (m.withLimit limit).scopes.size := hscope
    rw [if_pos hscope, if_pos hscope']
    exact hbody m limit
  · have hscope' : ¬ scope < (m.withLimit limit).scopes.size := hscope
    rw [if_neg hscope, if_neg hscope']

/-- **No step looks at the limit on calls.** -/
theorem perform_limitFree (s : Step α) : LimitFree s.perform := by
  by_cases hs : s.Scopeless
  · exact (perform_heapOnly hs).limitFree
  cases s with
  | declareVariable scope | declareFunction scope | readVariable scope | assignVariable scope
  | fillVariable scope | findFunction scope | extraArguments scope =>
      apply limitFree_inArena
      intro m limit
      simp only [Machine.withLimit]
      split <;> rfl
  | _ => exact absurd trivial hs

end Step

namespace Eval

variable {α : Type}

/-- A call that may begin ends as its body does, and is counted no more. -/
theorem run_asCall (position : Option Position) (body : Eval α) {m : Machine}
    (h : m.callDepth < m.maxCallDepth) :
    (asCall position body).run m =
      ((body.run m.enterCall).1, (body.run m.enterCall).2.leaveCall) := by
  have hdepth : (body.run m.enterCall).2.callDepth = m.callDepth + 1 :=
    congrArg Frame.callDepth (body.run_frame m.enterCall)
  simp only [run, if_pos h]
  rw [if_neg (by omega)]

/-- The run has been cut off at the limit on calls. -/
def CutOff (limit : Nat) (outcome : Outcome Fault α) : Prop :=
  ∃ position, outcome = .failed ⟨.callDepthExceeded limit, position⟩

/-- **The limit on calls is only a cut-off.**  A computation that is not cut off at the limit
does the same under every higher one.  By induction on the computation: the number of calls
in progress is the same in both runs, and a call that may begin under the limit may begin
under the higher one. -/
theorem run_withLimit (x : Eval α) {m : Machine} {limit : Nat} (hle : m.maxCallDepth ≤ limit) :
    CutOff m.maxCallDepth (x.run m).1 ∨
      x.run (m.withLimit limit) = ((x.run m).1, (x.run m).2.withLimit limit) := by
  induction x generalizing m with
  | pure a => exact .inr rfl
  | fail fault => exact .inr rfl
  | starve => exact .inr rfl
  | step s => exact .inr (s.perform_limitFree m limit)
  | bind x f ihx ihf =>
      have hmax : (x.run m).2.maxCallDepth = m.maxCallDepth :=
        congrArg Frame.maxCallDepth (x.run_frame m)
      have hfirst := ihx hle
      simp only [run, Run.bind]
      rcases hx : x.run m with ⟨outcome, m'⟩
      rw [hx] at hfirst hmax
      rcases hfirst with ⟨position, rfl⟩ | hsame
      · exact .inl ⟨position, rfl⟩
      · rw [hsame]
        cases outcome with
        | done a =>
            have hsecond := ihf a (m := m') (hmax.symm ▸ hle)
            rwa [hmax] at hsecond
        | failed fault => exact .inr rfl
        | outOfFuel => exact .inr rfl
  | inScope parent body ih =>
      rcases ih m.scopes.size (m := m.pushScope parent) hle with hcut | hsame
      · exact .inl hcut
      · exact .inr (congrArg (fun r => (r.1, r.2.keepScopes m.scopes.size)) hsame)
  | asCall position body ih =>
      by_cases hcalls : m.callDepth < m.maxCallDepth
      · have hcalls' : (m.withLimit limit).callDepth < (m.withLimit limit).maxCallDepth :=
          Nat.lt_of_lt_of_le hcalls hle
        rw [run_asCall position body hcalls, run_asCall position body hcalls']
        rcases ih (m := m.enterCall) hle with hcut | hsame
        · exact .inl hcut
        · exact .inr (congrArg (fun r => (r.1, r.2.leaveCall)) hsame)
      · refine .inl ⟨position, ?_⟩
        simp only [run, if_neg hcalls]

end Eval

/-! ## Scripts -/

/-- Every name, place and function of the host corresponds to itself. -/
def Correspondence.identical (limit : Nat) : Correspondence :=
  .sameNames Eq (fun _ => rfl) (fun _ => True) (fun _ => id) limit

/-- Every name and every place corresponds to itself. -/
theorem Correspondence.reflexive_identical (limit : Nat) :
    (Correspondence.identical limit).toLikeness.Reflexive :=
  ⟨fun _ => rfl, fun _ => rfl⟩

/-- A machine corresponds to itself. -/
theorem Machine.corresponds_identical (m : Machine) :
    m.Corresponds (.identical m.maxCallDepth) m :=
  Machine.corresponds_refl (Correspondence.reflexive_identical _) .rfl (fun _ _ => trivial) rfl

namespace Script

open Eval

/-- A script that is cut off says what the limit is. -/
theorem eq_maxCallDepth_of_cutOff {fuel : Nat} {script : Script} {m : Machine} {limit : Nat}
    (h : CutOff limit (execute fuel script m).1) : limit = m.maxCallDepth := by
  obtain ⟨position, hcut⟩ := h
  have hrefl := Correspondence.reflexive_identical m.maxCallDepth
  have hends := (alikeUpTo (.identical m.maxCallDepth) fuel).execute
    (Script.alike_refl hrefl script) m.corresponds_identical
  generalize (execute fuel script).run m = r at hcut hends
  cases hends with
  | failed hfault hm' =>
      cases hcut
      cases hfault.cause with
      | callDepthExceeded => rfl
      | unnamed h => exact h.elim
  | done => cases hcut
  | outOfFuel => cases hcut

/-- **For scripts the limit on calls is only a cut-off, and it says so.**  A script that is not
cut off under a limit ends in the same way under every higher one, and leaves the same
machine but for the limit: the same lines, lists, variables and functions.  One that is cut
off stops with a fault that names the limit. -/
theorem limit_only_cuts_off (fuel : Nat) (script : Script) (m : Machine) {limit higher : Nat}
    (hle : limit ≤ higher) :
    ((∀ named, ¬ CutOff named (execute fuel script (m.withLimit limit)).1) →
      execute fuel script (m.withLimit higher) =
        ((execute fuel script (m.withLimit limit)).1,
          (execute fuel script (m.withLimit limit)).2.withLimit higher)) ∧
    ∀ named, CutOff named (execute fuel script (m.withLimit limit)).1 → named = limit := by
  refine ⟨fun hcut => ?_, fun named hcut => eq_maxCallDepth_of_cutOff hcut⟩
  exact ((execute fuel script).run_withLimit (m := m.withLimit limit) hle).resolve_left
    (hcut limit)

/-- `func down(n) { if (n > 0) print(n, down(n - 1)); return n; } return down(2);`, where
`print` is a function of the host. -/
def countdown : Script :=
  ⟨"main",
    [.returns ⟨"main", 2, 1⟩ (some (.call ⟨"main", 2, 8⟩ "down"
      [.literal ⟨"main", 2, 13⟩ (.int 2)]))],
    [⟨⟨"main", 1, 1⟩, ⟨"down", ["n"], false⟩, ⟨"main", 1, 18⟩,
      [.ifElse ⟨"main", 1, 20⟩
          (.binary ⟨"main", 1, 24⟩ .greater ⟨"main", 1, 26⟩ (.var ⟨"main", 1, 24⟩ "n")
            (.literal ⟨"main", 1, 28⟩ (.int 0)))
          (.ofExpr (.call ⟨"main", 1, 31⟩ "print" [.var ⟨"main", 1, 37⟩ "n",
            .call ⟨"main", 1, 40⟩ "down" [.binary ⟨"main", 1, 45⟩ .sub ⟨"main", 1, 47⟩
              (.var ⟨"main", 1, 45⟩ "n") (.literal ⟨"main", 1, 49⟩ (.int 1))]]))
          none,
        .returns ⟨"main", 1, 54⟩ (some (.var ⟨"main", 1, 61⟩ "n"))]⟩]⟩

/-- Three calls at once are enough for it, so it does the same under the usual limit; with two
it is cut off, though the usual limit is higher. -/
theorem limit_only_cuts_off_countdown :
    (execute 60 countdown ((Session.start 0 [.print]).withLimit 128)).1 = .done (some (.int 2)) ∧
    (execute 60 countdown ((Session.start 0 [.print]).withLimit 128)).2.output =
      #["1 0", "2 1"] ∧
    ∃ named, CutOff named (execute 60 countdown ((Session.start 0 [.print]).withLimit 2)).1 ∧
      named = 2 := by
  have hdone : (execute 60 countdown ((Session.start 0 [.print]).withLimit 3)).1 =
      .done (some (.int 2)) := by decide +kernel
  have houtput : (execute 60 countdown ((Session.start 0 [.print]).withLimit 3)).2.output =
      #["1 0", "2 1"] := by decide +kernel
  have hcut : (execute 60 countdown ((Session.start 0 [.print]).withLimit 2)).1 =
      .failed ⟨.callDepthExceeded 2, some ⟨"main", 1, 40⟩⟩ := by decide +kernel
  have hsame := (limit_only_cuts_off 60 countdown (Session.start 0 [.print])
    (show 3 ≤ 128 by decide)).1 (by
      rintro named ⟨position, hfailed⟩
      rw [hdone] at hfailed
      cases hfailed)
  refine ⟨?_, ?_, 2, ⟨_, hcut⟩, ?_⟩
  · rw [hsame, hdone]
  · rw [hsame, Machine.output_withLimit, houtput]
  · exact (limit_only_cuts_off 60 countdown (Session.start 0 [.print])
      (show 2 ≤ 128 by decide)).2 2 ⟨_, hcut⟩

end Script

end Scriptlet
