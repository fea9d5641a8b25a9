import Scriptlet.Proofs.Locality
import Scriptlet.Proofs.Moment
import Scriptlet.Session

/-!
# The discipline of scopes and calls

A machine is **orderly** when its scopes form a tree that only points down, from
every scope to an earlier one and at last to the host scope, and when it counts
the calls in progress correctly and within the limit.

Three facts carry the main result.  Opening a scope under a scope that is there
and opening a call below the limit keep order (`Moment.Orderly.pushScope`,
`Moment.Orderly.enterCall`); the steps of a run do not touch the frame at all
(`Eval.run_frame`); and running code opens scopes only under the scope it runs
in or the host scope (`Eval.localUpTo`).  So every moment of every run is
orderly, also in the middle of a call, and so is every machine that a host can
come to see.
-/

namespace Scriptlet

/-- The order that scopes and calls are in: the host scope has no parent, every
other scope has an earlier one for a parent, and the calls in progress are
counted and not too many. -/
structure Moment.Orderly (p : Moment) : Prop where
  host_parent : p.machine.scopes[0]?.map Scope.parent = some none
  parent_lt : ∀ i : Nat, 0 < i → i < p.machine.scopes.size →
    ∃ j : Nat, j < i ∧ p.machine.scopes[i]?.map Scope.parent = some (some j)
  depth_eq : p.machine.callDepth = p.calls
  depth_le : p.machine.callDepth ≤ p.machine.maxCallDepth

namespace Moment.Orderly

variable {calls : Nat} {m m' : Machine}

/-- The host scope is always there. -/
theorem size_pos (h : Orderly ⟨calls, m⟩) : 0 < m.scopes.size := by
  obtain ⟨host, hhost, _⟩ := Option.map_eq_some_iff.mp h.host_parent
  exact (Array.getElem?_eq_some_iff.mp hhost).1

/-- Order is a matter of the frame alone. -/
theorem of_frame_eq (h : Orderly ⟨calls, m⟩) (hframe : m'.frame = m.frame) :
    Orderly ⟨calls, m'⟩ := by
  have hsize := Machine.size_eq_of_frame_eq hframe
  have hparent := Machine.parent_eq_of_frame_eq hframe
  obtain ⟨_, hdepth, hmax⟩ := Frame.mk.inj hframe
  refine ⟨(hparent _).trans h.host_parent, ?_, hdepth.trans h.depth_eq, ?_⟩
  · intro i hpos hi
    obtain ⟨j, hj, hij⟩ := h.parent_lt i hpos (hsize ▸ hi)
    exact ⟨j, hj, (hparent i).trans hij⟩
  · show m'.callDepth ≤ m'.maxCallDepth
    rw [hdepth, hmax]
    exact h.depth_le

/-- A new scope under a scope that is there keeps order: it stands after it. -/
theorem pushScope (h : Orderly ⟨calls, m⟩) {parent : Nat} (hparent : parent < m.scopes.size) :
    Orderly ⟨calls, m.pushScope parent⟩ := by
  have hpos := h.size_pos
  refine ⟨?_, ?_, h.depth_eq, h.depth_le⟩
  · show (m.scopes.push (Scope.empty (some parent)))[0]?.map Scope.parent = some none
    rw [Array.getElem?_push, if_neg (by omega)]
    exact h.host_parent
  · intro i hi hlt
    show ∃ j : Nat, j < i ∧
      (m.scopes.push (Scope.empty (some parent)))[i]?.map Scope.parent = some (some j)
    rw [Array.getElem?_push]
    have hle : i ≤ m.scopes.size := by
      simpa [Machine.pushScope, Nat.lt_succ_iff] using hlt
    by_cases hnew : i = m.scopes.size
    · exact ⟨parent, by omega, by simp [hnew, Scope.empty]⟩
    · rw [if_neg hnew]
      exact h.parent_lt i hi (Nat.lt_of_le_of_ne hle hnew)

/-- A call below the limit keeps order: one call more is in progress and counted. -/
theorem enterCall (h : Orderly ⟨calls, m⟩) (hlt : m.callDepth < m.maxCallDepth) :
    Orderly ⟨calls + 1, m.enterCall⟩ :=
  ⟨h.host_parent, h.parent_lt, congrArg (· + 1) h.depth_eq, hlt⟩

end Moment.Orderly

namespace Eval

variable {α : Type}

/-- **Every moment of local code is orderly.**  By induction on the computation:
what is opened is opened under a scope that is there, and what runs next finds
the frame that was there before. -/
theorem moments_orderly (x : Eval α) {scope : ScopeId} (hx : x.LocalTo scope)
    {calls : Nat} {m : Machine} (hscope : scope < m.scopes.size)
    (hm : Moment.Orderly ⟨calls, m⟩) :
    ∀ p ∈ x.moments calls m, p.Orderly := by
  induction x generalizing scope calls m with
  | pure a => simpa [moments] using hm
  | bind x f ihx ihf =>
      intro p hp
      simp only [moments, List.mem_append] at hp
      rcases hp with hp | hp
      · exact ihx hx.1 hscope hm p hp
      · have hframe := run_frame x m
        split at hp
        next a m' h =>
          rw [h] at hframe
          have hscope' : scope < m'.scopes.size := by
            rw [Machine.size_eq_of_frame_eq hframe]
            exact hscope
          exact ihf a (hx.2 a) hscope' (hm.of_frame_eq hframe) p hp
        next => cases hp
  | fail fault => simpa [moments] using hm
  | starve => simpa [moments] using hm
  | step s => simpa [moments] using ⟨hm, hm.of_frame_eq (s.perform_frame m)⟩
  | inScope parent body ih =>
      have hparent : parent < m.scopes.size := by
        rcases hx.1 with rfl | rfl
        · exact hscope
        · exact hm.size_pos
      have hinner : m.scopes.size < (m.pushScope parent).scopes.size := by
        simp [Machine.pushScope]
      have hbody := ih m.scopes.size (hx.2 m.scopes.size) hinner (hm.pushScope hparent)
      have hafter := hm.of_frame_eq (run_frame (inScope parent body) m)
      intro p hp
      simp only [moments, List.cons_append, List.mem_cons, List.mem_append,
        List.not_mem_nil, or_false] at hp
      rcases hp with rfl | hp | rfl
      · exact hm
      · exact hbody p hp
      · exact hafter
  | asCall position body ih =>
      have hafter := hm.of_frame_eq (run_frame (asCall position body) m)
      intro p hp
      simp only [moments, List.cons_append, List.mem_cons, List.mem_append,
        List.not_mem_nil, or_false] at hp
      rcases hp with rfl | hp | rfl
      · exact hm
      · split at hp
        next hlt => exact ih hx (m := m.enterCall) hscope (hm.enterCall hlt) p hp
        next => cases hp
      · exact hafter

end Eval

/-! ## What a host can do and see -/

/-- What a host can have a machine do. -/
inductive Task : Type → Type where
  | eval (scope : ScopeId) (e : Expr) : Task Value
  | exec (scope : ScopeId) (s : Statement) : Task Flow
  | execAll (scope : ScopeId) (statements : List Statement) : Task Flow
  | call (scope : ScopeId) (name : String) (arguments : List Expr)
      (position : Option Position) : Task (Option Value)
  | execute (script : Script) : Task (Option Value)

namespace Task

variable {α : Type}

/-- The scope in which a task is to be done; for a script the host scope. -/
def scope : Task α → ScopeId
  | .eval scope _ => scope
  | .exec scope _ => scope
  | .execAll scope _ => scope
  | .call scope _ _ _ => scope
  | .execute _ => Arena.host

/-- The computation that does a task. -/
def toEval (fuel : Nat) : Task α → Eval α
  | .eval scope e => Eval.eval fuel scope e
  | .exec scope s => Eval.exec fuel scope s
  | .execAll scope statements => Eval.execAll fuel scope statements
  | .call scope name arguments position => Eval.call fuel scope name arguments position
  | .execute script => Eval.execute fuel script

/-- Every task works in its scope. -/
theorem localTo_toEval (task : Task α) (fuel : Nat) : (task.toEval fuel).LocalTo task.scope := by
  have hlocal := Eval.localUpTo fuel
  cases task with
  | eval scope e => exact hlocal.eval scope e
  | exec scope s => exact hlocal.exec scope s
  | execAll scope statements => exact hlocal.execAll scope statements
  | call scope name arguments position => exact hlocal.call scope name arguments position
  | execute script => exact hlocal.execute Arena.host script

end Task

/-- The moments that a host can come to see, beginning with a new machine.  The
host defines what it likes, makes and changes lists, reads what was printed,
chooses a limit while no call is in progress, and has tasks done.  Since its own
functions are called in the middle of a run, every moment of a task counts, and
from there the host can go on. -/
inductive Reachable : Moment → Prop where
  | initial (maxCallDepth : Nat) : Reachable ⟨0, Machine.initial maxCallDepth⟩
  | limited {m : Machine} (h : Reachable ⟨0, m⟩) (maxCallDepth : Nat) :
      Reachable ⟨0, { m with maxCallDepth := maxCallDepth }⟩
  | handled {calls : Nat} {m : Machine} (h : Reachable ⟨calls, m⟩) (heap : Heap)
      (output : Array String) : Reachable ⟨calls, { m with heap := heap, output := output }⟩
  | definedVariable {calls : Nat} {m : Machine} (h : Reachable ⟨calls, m⟩) (name : String)
      (value : Value) : Reachable ⟨calls, (Session.defineVariable name value m).2⟩
  | definedFunction {calls : Nat} {m : Machine} (h : Reachable ⟨calls, m⟩) (f : Callable) :
      Reachable ⟨calls, (Session.defineFunction f m).2⟩
  | definedBuiltins {calls : Nat} {m : Machine} (h : Reachable ⟨calls, m⟩) :
      Reachable ⟨calls, (Session.defineBuiltins m).2⟩
  | during {α : Type} {calls : Nat} {m : Machine} (h : Reachable ⟨calls, m⟩) (task : Task α)
      (hscope : task.scope < m.scopes.size) (fuel : Nat) {p : Moment}
      (hp : p ∈ (task.toEval fuel).moments calls m) : Reachable p

/-- Whatever a host comes to see is orderly. -/
theorem Reachable.orderly {p : Moment} (h : Reachable p) : p.Orderly := by
  induction h with
  | initial maxCallDepth =>
      refine ⟨rfl, ?_, rfl, Nat.zero_le _⟩
      intro i hpos hi
      have hone : i < 1 := hi
      omega
  | limited h maxCallDepth ih =>
      refine ⟨ih.host_parent, ih.parent_lt, ih.depth_eq, ?_⟩
      have hzero := ih.depth_eq
      exact hzero ▸ Nat.zero_le _
  | handled h heap output ih => exact ih.of_frame_eq rfl
  | definedVariable h name value ih => exact ih.of_frame_eq (Eval.run_frame _ _)
  | definedFunction h f ih => exact ih.of_frame_eq (Eval.run_frame _ _)
  | definedBuiltins h ih => exact ih.of_frame_eq (Eval.run_frame _ _)
  | during h task hscope fuel hp ih =>
      exact Eval.moments_orderly _ (task.localTo_toEval fuel) hscope ih _ hp

/-- **The discipline of scopes and calls.**  A task that is begun at a moment
that a host can see, in a scope that is there, leaves the number of scopes, the
parents of the scopes, the count of calls and its limit as they were, whatever
it does and however it ends.  At every moment on the way the host scope has no
parent, every other scope has an earlier one, and the count of calls is the
number of calls in progress and within the limit. -/
theorem Task.scopes_and_calls_disciplined {α : Type} {calls : Nat} {m : Machine}
    (hm : Reachable ⟨calls, m⟩) (task : Task α) (hscope : task.scope < m.scopes.size)
    (fuel : Nat) :
    ((task.toEval fuel).run m).2.scopes.size = m.scopes.size ∧
    (∀ i, i < m.scopes.size → ((task.toEval fuel).run m).2.scopes[i]?.map Scope.parent =
      m.scopes[i]?.map Scope.parent) ∧
    ((task.toEval fuel).run m).2.callDepth = m.callDepth ∧
    ((task.toEval fuel).run m).2.maxCallDepth = m.maxCallDepth ∧
    ∀ p ∈ (task.toEval fuel).moments calls m, p.Orderly := by
  have hframe := Eval.run_frame (task.toEval fuel) m
  obtain ⟨_, hdepth, hmax⟩ := Frame.mk.inj hframe
  refine ⟨Machine.size_eq_of_frame_eq hframe, fun i _ => Machine.parent_eq_of_frame_eq hframe i,
    hdepth, hmax, ?_⟩
  exact Eval.moments_orderly _ (task.localTo_toEval fuel) hscope hm.orderly

/-- A script that has the host run another one, which leaves a loop that it is
not in. -/
def Task.strayBreak : Task (Option Value) :=
  .execute ⟨"outer", [.ofExpr (.call ⟨"outer", 1, 1⟩ "run_script"
    [.literal ⟨"outer", 1, 12⟩ (.str "\x7b break; \x7d")])], []⟩

/-- The fault in the script inside ends the call and both scripts, and the only
scope that is left is that of the host. -/
theorem Task.scopes_and_calls_disciplined_strayBreak :
    ((strayBreak.toEval 30).run (Session.start 1 [.runScript])).1 =
      .failed ⟨.breakOutsideLoop, some ⟨"nested", 1, 3⟩⟩ ∧
    ((strayBreak.toEval 30).run (Session.start 1 [.runScript])).2.scopes.size = 1 ∧
    ∀ p ∈ (strayBreak.toEval 30).moments 0 (Session.start 1 [.runScript]), p.Orderly := by
  have hstart : Reachable ⟨0, Session.start 1 [.runScript]⟩ :=
    .definedFunction (.initial 1) (.host .runScript)
  have h := scopes_and_calls_disciplined hstart strayBreak (by decide +kernel) 30
  exact ⟨by decide +kernel, h.1, h.2.2.2.2⟩

end Scriptlet
