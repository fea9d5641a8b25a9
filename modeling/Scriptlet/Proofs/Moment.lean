import Scriptlet.Eval

/-!
# The moments of a run

A computation is a tree of steps, so a run of it passes through definite
machines: before and after each step, around each scope and around each call.
`Eval.moments` lists them all, each with the number of calls that are in
progress there.

The second half is about what no computation can change.  `Eval.run_frame`
says that scopes and calls are opened and closed in pairs: whatever a
computation does and however it ends, it leaves as many scopes as it found, with
the same parents, and the same count of calls with the same limit.  The only
local fact behind it is `Step.perform_frame`; nothing is assumed of the script.
-/

namespace Scriptlet

/-- A moment of a run: how many calls are in progress, and on which machine. -/
structure Moment where
  calls : Nat
  machine : Machine

/-- The moments that a run of a computation passes through, in order, if it
begins with `calls` calls in progress. -/
def Eval.moments {α : Type} : Eval α → (calls : Nat) → Machine → List Moment
  | .pure _, calls, m => [⟨calls, m⟩]
  | .bind x f, calls, m =>
    x.moments calls m ++
      match x.run m with
      | (.done a, m') => (f a).moments calls m'
      | _ => []
  | .fail _, calls, m => [⟨calls, m⟩]
  | .starve, calls, m => [⟨calls, m⟩]
  | .step s, calls, m => [⟨calls, m⟩, ⟨calls, (s.perform m).2⟩]
  | .inScope parent body, calls, m =>
    ⟨calls, m⟩ :: (body m.scopes.size).moments calls (m.pushScope parent)
      ++ [⟨calls, ((Eval.inScope parent body).run m).2⟩]
  | .asCall position body, calls, m =>
    ⟨calls, m⟩ ::
      (if m.callDepth < m.maxCallDepth then body.moments (calls + 1) m.enterCall else [])
      ++ [⟨calls, ((Eval.asCall position body).run m).2⟩]

/-- What opening and closing scopes and calls is about: the parents of the
scopes, in order, and the count of calls with its limit. -/
@[ext]
structure Frame where
  parents : List (Option ScopeId)
  callDepth : Nat
  maxCallDepth : Nat
  deriving DecidableEq

/-- The frame of a machine. -/
def Machine.frame (m : Machine) : Frame :=
  ⟨m.scopes.toList.map Scope.parent, m.callDepth, m.maxCallDepth⟩

namespace Machine

variable {m m' : Machine}

/-- Machines with one frame have equally many scopes. -/
theorem size_eq_of_frame_eq (h : m'.frame = m.frame) :
    m'.scopes.size = m.scopes.size := by
  have hparents : m'.frame.parents.length = m.frame.parents.length := by rw [h]
  simpa [frame] using hparents

/-- In machines with one frame a scope has one parent. -/
theorem parent_eq_of_frame_eq (h : m'.frame = m.frame) (i : ScopeId) :
    m'.scopes[i]?.map Scope.parent = m.scopes[i]?.map Scope.parent := by
  have hparents : m'.frame.parents[i]? = m.frame.parents[i]? := by rw [h]
  simpa [frame] using hparents

/-- A new scope comes after the others. -/
theorem getElem?_pushScope (m : Machine) (parent i : ScopeId) :
    (m.pushScope parent).scopes[i]? =
      if i = m.scopes.size then some (Scope.empty (some parent)) else m.scopes[i]? :=
  Array.getElem?_push

/-- The new scope is empty. -/
theorem getElem?_pushScope_self (m : Machine) (parent : ScopeId) :
    (m.pushScope parent).scopes[m.scopes.size]? = some (Scope.empty (some parent)) :=
  Array.getElem?_push_size

/-- The scopes that are kept are what they were. -/
theorem getElem?_keepScopes (m : Machine) (count i : Nat) :
    (m.keepScopes count).scopes[i]? = if i < count then m.scopes[i]? else none := by
  have hextract : (m.keepScopes count).scopes = m.scopes.extract 0 count := by simp [keepScopes]
  rw [hextract, Array.getElem?_extract, Nat.zero_add]
  by_cases hsize : i < m.scopes.size
  · have hboth : i < min count m.scopes.size - 0 ↔ i < count := by omega
    simp only [hboth]
  · rw [Array.getElem?_eq_none (Nat.le_of_not_lt hsize)]
    simp only [ite_self]

/-- A change of scopes that keeps their parents keeps the frame. -/
theorem frame_with_scopes {scopes : Arena}
    (h : scopes.toList.map Scope.parent = m.scopes.toList.map Scope.parent) :
    { m with scopes := scopes }.frame = m.frame := by
  simp [frame, h]

end Machine

namespace Arena

variable {arena arena' : Arena}

/-- Changing what a scope declares keeps all parents. -/
theorem parents_modify (arena : Arena) (scope : ScopeId) {f : Scope → Scope}
    (hf : ∀ s, (f s).parent = s.parent) :
    (arena.modify scope f).toList.map Scope.parent = arena.toList.map Scope.parent := by
  apply List.ext_getElem?
  intro i
  by_cases hi : scope = i
  · subst hi
    cases hs : arena[scope]? <;> simp [hs, hf]
  · simp [hi]

/-- Declaring a variable leaves the parents as they are. -/
theorem parents_of_declareVariable? {scope : ScopeId} {name : String} {value : Option Value}
    (h : arena.declareVariable? scope name value = some arena') :
    arena'.toList.map Scope.parent = arena.toList.map Scope.parent := by
  obtain ⟨_, _, _, rfl⟩ := declareVariable?_eq_some_iff.mp h
  exact parents_modify arena scope fun _ => rfl

/-- Declaring a function leaves the parents as they are. -/
theorem parents_of_declareFunction? {scope : ScopeId} {f : Callable}
    (h : arena.declareFunction? scope f = some arena') :
    arena'.toList.map Scope.parent = arena.toList.map Scope.parent := by
  obtain ⟨_, _, _, rfl⟩ := declareFunction?_eq_some_iff.mp h
  exact parents_modify arena scope fun _ => rfl

/-- Assigning a variable leaves the parents as they are. -/
theorem parents_of_assign? {scope : ScopeId} {name : String} {value : Value}
    (h : arena.assign? scope name value = some arena') :
    arena'.toList.map Scope.parent = arena.toList.map Scope.parent := by
  obtain ⟨owner, _, rfl⟩ := assign?_eq_some_iff.mp h
  exact parents_modify arena owner fun _ => rfl

end Arena

namespace Step

variable {α : Type}

/-- The guard of a step on scopes leaves the frame as it is. -/
theorem inArena_frame (scope : ScopeId) (position : Option Position)
    {body : Run Machine Fault α} (m : Machine) (h : (body m).2.frame = m.frame) :
    (inArena scope position body m).2.frame = m.frame := by
  unfold inArena
  split
  · exact h
  · rfl

/-- The guard of a step on lists leaves the frame as it is. -/
theorem onList_frame (id : ListId) (position : Option Position)
    {body : List Value → Run Machine Fault α} (m : Machine)
    (h : ∀ items, (body items m).2.frame = m.frame) :
    (onList id position body m).2.frame = m.frame := by
  unfold onList
  split
  · exact h _
  · rfl

/-- **One step keeps the frame.**  A step declares, reads and writes, but only
whole computations open or close a scope or a call. -/
theorem perform_frame (s : Step α) (m : Machine) : (s.perform m).2.frame = m.frame := by
  cases s with
  | declareVariable scope name value position =>
      apply inArena_frame
      split
      next arena h => exact Machine.frame_with_scopes (Arena.parents_of_declareVariable? h)
      next => rfl
  | declareFunction scope f position =>
      apply inArena_frame
      split
      next arena h => exact Machine.frame_with_scopes (Arena.parents_of_declareFunction? h)
      next => rfl
  | readVariable scope name position =>
      apply inArena_frame
      split <;> rfl
  | assignVariable scope name value position =>
      apply inArena_frame
      split
      next arena h => exact Machine.frame_with_scopes (Arena.parents_of_assign? h)
      next => rfl
  | fillVariable scope name value position =>
      apply inArena_frame
      split
      next arena h => exact Machine.frame_with_scopes (Arena.parents_of_assign? h)
      next => rfl
  | findFunction scope name position =>
      apply inArena_frame
      split <;> rfl
  | extraArguments scope position =>
      apply inArena_frame
      split <;> rfl
  | newList items => rfl
  | listItems id position => exact onList_frame id position m fun _ => rfl
  | readElement id i position =>
      apply onList_frame
      intro items
      cases items[i]? <;> rfl
  | writeElement id i v position =>
      apply onList_frame
      intro items
      split <;> rfl
  | appendItem id v position => exact onList_frame id position m fun _ => rfl
  | clearList id position => exact onList_frame id position m fun _ => rfl
  | render v => rfl
  | printLine line => rfl
  | applyBinary op a b position =>
      simp only [perform]
      split <;> rfl

end Step

namespace Eval

variable {α : Type}

/-- Scopes that were there keep their parents when the others are taken away. -/
theorem frame_keepScopes {m m' : Machine} {parent : ScopeId}
    (h : m'.frame = (m.pushScope parent).frame) :
    (m'.keepScopes m.scopes.size).frame = m.frame := by
  obtain ⟨hparents, hdepth, hmax⟩ := Frame.mk.inj h
  simp only [Machine.pushScope, Array.toList_push, List.map_append] at hparents
  have hkept : (m'.scopes.toList.map Scope.parent).take m.scopes.size =
      m.scopes.toList.map Scope.parent := by
    rw [hparents, List.take_left' (by simp)]
  refine Frame.ext ?_ hdepth hmax
  simpa [Machine.frame, Machine.keepScopes] using hkept

/-- **Scopes and calls are opened and closed in pairs.**  Whatever a computation
does and however it ends, it leaves the frame as it was. -/
theorem run_frame (x : Eval α) (m : Machine) : (x.run m).2.frame = m.frame := by
  induction x generalizing m with
  | pure a => rfl
  | bind x f ihx ihf =>
      have hx := ihx m
      simp only [run, Run.bind]
      split
      next a m' h => exact (ihf a m').trans (by simpa [h] using hx)
      next e m' h => simpa [h] using hx
      next m' h => simpa [h] using hx
  | fail fault => rfl
  | starve => rfl
  | step s => exact s.perform_frame m
  | inScope parent body ih =>
      exact frame_keepScopes (ih m.scopes.size (m.pushScope parent))
  | asCall position body ih =>
      obtain ⟨hparents, hdepth, hmax⟩ := Frame.mk.inj (ih m.enterCall)
      simp only [run]
      split
      · -- the body has left the count at one more than it was, so closing the call is possible
        have hpos : (body.run m.enterCall).2.callDepth = m.callDepth + 1 := hdepth
        rw [if_neg (by omega)]
        refine Frame.ext hparents ?_ hmax
        simp [Machine.frame, Machine.leaveCall, hpos]
      · rfl

end Eval

end Scriptlet
