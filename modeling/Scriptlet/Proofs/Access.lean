import Scriptlet.Proofs.Change
import Scriptlet.Proofs.Discipline

/-!
# Steps and their domains

A machine guards its accesses, but whether a guard can fail is a question about
the whole run.  This file says what each step needs of the machine it is taken on
(`Step.InDomain`) and what it gives there (`Step.Gives`); what it may do to the
machine is known from `Step.Change`.

`Eval.taken` lists the steps that a run takes.  If each of them is taken in its
domain, then every machine on the way is **sound**: no variable and no list
refers to a list that is not there (`Machine.Sound`).  `Eval.Safe` puts this
together with what a computation gives, and has one rule for each way to build
a computation; an evaluator is shown to be safe by these rules alone.

Every rule carries a proposition `plain` along.  Where it holds, the code and
all functions in sight are plain, so the heap stays layered and no list changes.
-/

namespace Scriptlet

/-! ## The steps that a run takes -/

/-- A step that a run takes, and the machine that it is taken on. -/
structure Taken where
  {α : Type}
  step : Step α
  machine : Machine

/-- The steps that a run of a computation takes, in order. -/
def Eval.taken {α : Type} : Eval α → Machine → List Taken
  | .pure _, _ => []
  | .bind x f, m =>
    x.taken m ++
      match x.run m with
      | (.done a, m') => (f a).taken m'
      | _ => []
  | .fail _, _ => []
  | .starve, _ => []
  | .step s, m => [⟨s, m⟩]
  | .inScope parent body, m => (body m.scopes.size).taken (m.pushScope parent)
  | .asCall _ body, m => if m.callDepth < m.maxCallDepth then body.taken m.enterCall else []

namespace Eval

variable {α β : Type}

/-- A sequence takes the steps of its first part, and after a value those of its second. -/
theorem mem_taken_bind {x : Eval α} {f : α → Eval β} {m : Machine} {t : Taken} :
    t ∈ (Eval.bind x f).taken m ↔
      t ∈ x.taken m ∨ ∃ a m', x.run m = (.done a, m') ∧ t ∈ (f a).taken m' := by
  rcases hrun : x.run m with ⟨a | e | _, m'⟩ <;> simp [taken, hrun, and_assoc]

/-- A sequence passes through the moments of its first part, and after a value through
those of its second. -/
theorem mem_moments_bind {x : Eval α} {f : α → Eval β} {calls : Nat} {m : Machine} {p : Moment} :
    p ∈ (Eval.bind x f).moments calls m ↔
      p ∈ x.moments calls m ∨ ∃ a m', x.run m = (.done a, m') ∧ p ∈ (f a).moments calls m' := by
  rcases hrun : x.run m with ⟨a | e | _, m'⟩ <;> simp [moments, hrun, and_assoc]

end Eval

/-! ## What a machine holds -/

namespace Machine

/-- The list that the value names, if it names one, is in the heap. -/
def Has (m : Machine) (v : Value) : Prop :=
  v.Within m.heap.size

end Machine

/-- No variable of the scope holds a list beyond the first `size`. -/
def Scope.Within (s : Scope) (size : Nat) : Prop :=
  ∀ key name v, s.getVariable? key = some ⟨name, some v⟩ → v.Within size

/-- Every list that a variable or a list refers to is in the heap. -/
structure Machine.Sound (m : Machine) : Prop where
  vars : ∀ (i : ScopeId) (s : Scope), m.scopes[i]? = some s → s.Within m.heap.size
  cells : ∀ id, ∀ v ∈ m.heap.contents id, m.Has v

/-- Only plain functions are in sight, and every list holds only lists that were
made before it. -/
structure Machine.Plain (m : Machine) : Prop where
  functions : ∀ f, m.Knows f → f.Plain
  layered : m.heap.Layered

/-- A machine that is ready to run code in a scope. -/
structure Machine.Ready (plain : Prop) (scope : ScopeId) (m : Machine) : Prop where
  sound : m.Sound
  plain : plain → m.Plain
  scope_lt : scope < m.scopes.size

namespace Scope

variable {s : Scope} {size : Nat}

/-- A new scope holds no list at all. -/
theorem within_empty (parent : Option ScopeId) (size : Nat) : (empty parent).Within size := by
  intro key name v h
  simp [empty, getVariable?] at h

/-- A scope that refers to lists of a heap refers to lists of a larger one. -/
theorem Within.mono {size' : Nat} (h : s.Within size) (hle : size ≤ size') : s.Within size' :=
  fun key name v hv => (h key name v hv).mono hle

/-- A variable may be added if the list it holds is there. -/
theorem Within.addVariable (h : s.Within size) (key name : String) {value : Option Value}
    (hvalue : ∀ v ∈ value, v.Within size) : (s.addVariable key ⟨name, value⟩).Within size := by
  intro other name' v hget
  by_cases hkey : other = key
  · subst hkey
    rw [getVariable?_addVariable_self] at hget
    cases hget
    exact hvalue v rfl
  · rw [getVariable?_addVariable_of_ne s _ hkey] at hget
    exact h other name' v hget

/-- A variable may be set if the list it then holds is there. -/
theorem Within.setVariable (h : s.Within size) (key : String) {value : Value}
    (hvalue : value.Within size) : (s.setVariable key value).Within size := by
  intro other name v hget
  rw [getVariable?_setVariable] at hget
  by_cases hkey : other = key
  · rw [if_pos hkey, Option.map_eq_some_iff] at hget
    obtain ⟨_, _, hsame⟩ := hget
    cases hsame
    exact hvalue
  · rw [if_neg hkey] at hget
    exact h other name v hget

end Scope

/-! ## What a step needs and what it gives -/

namespace Step

variable {α : Type}

/-- The domain of a step: the scopes and lists that it names are there, an index is
within its list, and the values that it hands on name lists that are there.  A
variable that is filled was declared in that very scope. -/
def InDomain : Step α → Machine → Prop
  | .declareVariable scope _ value _, m => scope < m.scopes.size ∧ ∀ v ∈ value, m.Has v
  | .declareFunction scope _ _, m => scope < m.scopes.size
  | .readVariable scope _ _, m => scope < m.scopes.size
  | .assignVariable scope _ value _, m => scope < m.scopes.size ∧ m.Has value
  | .fillVariable scope name value _, m => m.Declares scope (Name.fold name) ∧ m.Has value
  | .findFunction scope _ _, m => scope < m.scopes.size
  | .extraArguments scope _, m => scope < m.scopes.size
  | .newList items, m => ∀ v ∈ items, m.Has v
  | .listItems id _, m => id < m.heap.size
  | .readElement id i _, m => id < m.heap.size ∧ i < (m.heap.contents id).length
  | .writeElement id i v _, m =>
    id < m.heap.size ∧ i < (m.heap.contents id).length ∧ m.Has v
  | .appendItem id v _, m => id < m.heap.size ∧ m.Has v
  | .clearList id _, m => id < m.heap.size
  | .render v, m => m.Has v
  | .printLine _, _ => True
  | .applyBinary _ a b _, m => m.Has a ∧ m.Has b

/-- A step that plain code can take: it changes no list and declares only plain
functions. -/
def Plain : Step α → Prop
  | .declareFunction _ f _ => f.Plain
  | .writeElement _ _ _ _ => False
  | .appendItem _ _ _ => False
  | .clearList _ _ => False
  | _ => True

/-- What is known of the value that a step gives, on the machine after it. -/
def Gives : Step α → α → Machine → Prop
  | .declareVariable scope name _ _, _, m => m.Declares scope (Name.fold name)
  | .readVariable _ _ _, v, m => m.Has v
  | .findFunction _ _ _, f, m => m.Knows f
  | .extraArguments _ _, items, m => ∀ v ∈ items, m.Has v
  | .newList _, v, m => m.Has v
  | .listItems id _, items, m => items = m.heap.contents id
  | .readElement _ _ _, v, m => m.Has v
  | .applyBinary _ _ _ _, v, m => m.Has v
  | _, _, _ => True

end Step

namespace Machine

variable {m m' : Machine} {plain : Prop}

/-- A value that is there stays there. -/
theorem Later.has {v : Value} (h : m.Later m') (hv : m.Has v) : m'.Has v :=
  Value.Within.mono hv h.heap_le

/-- The elements of two lists of a sound machine are there. -/
theorem Sound.has_of_mem_append (hm : m.Sound) {a b : ListId} {v : Value}
    (hv : v ∈ m.heap.contents a ++ m.heap.contents b) : m.Has v := by
  rcases List.mem_append.mp hv with hmem | hmem
  · exact hm.cells a v hmem
  · exact hm.cells b v hmem

/-- A change to one scope that puts only lists of the heap there keeps a machine sound. -/
theorem Sound.modify (hm : m.Sound) (scope : ScopeId) {f : Scope → Scope}
    (hf : ∀ s, s.Within m.heap.size → (f s).Within m.heap.size) :
    { m with scopes := m.scopes.modify scope f }.Sound := by
  refine ⟨?_, hm.cells⟩
  intro i s hs
  rcases Arena.exists_or_of_modify hs with ⟨_, old, hold, rfl⟩ | ⟨_, hold⟩
  · exact hf old (hm.vars i old hold)
  · exact hm.vars i s hold

/-- A new list of values that are there keeps a machine sound. -/
theorem Sound.alloc (hm : m.Sound) {items : List Value} (hitems : ∀ v ∈ items, m.Has v) :
    { m with heap := (m.heap.alloc items).2 }.Sound := by
  have hle : m.heap.size ≤ (m.heap.alloc items).2.size := by
    rw [Heap.size_alloc]
    exact Nat.le_succ _
  refine ⟨fun i s hs => (hm.vars i s hs).mono hle, ?_⟩
  intro id v hv
  rcases Heap.mem_contents_alloc hv with ⟨_, hmem⟩ | ⟨_, hmem⟩
  · exact (hitems v hmem).mono hle
  · exact (hm.cells id v hmem).mono hle

/-- Other elements that are there keep a machine sound. -/
theorem Sound.replace (hm : m.Sound) (id : ListId) {items : List Value}
    (hitems : ∀ v ∈ items, m.Has v) :
    { m with heap := m.heap.modify id fun _ => items }.Sound := by
  have hsize : (m.heap.modify id fun _ => items).size = m.heap.size := Heap.size_modify _ _ _
  refine ⟨fun i s hs => (hm.vars i s hs).mono (Nat.le_of_eq hsize.symm), ?_⟩
  intro other v hv
  rcases Heap.mem_contents_modify hv with hmem | hmem
  · exact (hitems v hmem).mono (Nat.le_of_eq hsize.symm)
  · exact (hm.cells other v hmem).mono (Nat.le_of_eq hsize.symm)

end Machine

namespace Step

variable {α : Type} {s : Step α} {m m' : Machine}

/-- **A step in its domain keeps a machine sound.** -/
theorem Change.sound (h : s.Change m m') (hm : m.Sound) (hs : s.InDomain m) : m'.Sound := by
  cases h with
  | unchanged => exact hm
  | declaredVariable => exact hm.modify _ fun s hwithin => hwithin.addVariable _ _ hs.2
  | declaredFunction => exact hm.modify _ fun s hwithin => hwithin
  | assigned => exact hm.modify _ fun s hwithin => hwithin.setVariable _ hs.2
  | filled => exact hm.modify _ fun s hwithin => hwithin.setVariable _ hs.2
  | made => exact hm.alloc hs
  | written =>
      apply hm.replace
      intro v hv
      rcases List.mem_or_eq_of_mem_set hv with hold | rfl
      · exact hm.cells _ v hold
      · exact hs.2.2
  | appended =>
      apply hm.replace
      intro v hv
      rcases List.mem_append.mp hv with hold | hnew
      · exact hm.cells _ v hold
      · rw [List.mem_singleton.mp hnew]
        exact hs.2
  | cleared => exact hm.replace _ nofun
  | printed => exact ⟨hm.vars, hm.cells⟩
  | joined => exact hm.alloc fun v hv => hm.has_of_mem_append hv

/-- A plain step declares only plain functions. -/
theorem Plain.of_brings (hs : s.Plain) {f : Callable} (hf : s.Brings f) : f.Plain := by
  cases s with
  | declareFunction scope g position =>
      cases hf
      exact hs
  | _ => cases hf

/-- A plain step in its domain keeps a machine plain. -/
theorem Change.plain (h : s.Change m m') (hm : m.Sound) (hplain : m.Plain) (hs : s.InDomain m)
    (hsteps : s.Plain) : m'.Plain where
  functions f hf := by
    rcases h.knows hf with hknown | hbrought
    · exact hplain.functions f hknown
    · exact hsteps.of_brings hbrought
  layered := by
    cases h with
    | made => exact hplain.layered.alloc hs
    | joined => exact hplain.layered.alloc fun v hv => hm.has_of_mem_append hv
    | written => cases hsteps
    | appended => cases hsteps
    | cleared => cases hsteps
    | _ => exact hplain.layered

/-- A plain step changes no list. -/
theorem Change.contents_eq (h : s.Change m m') (hsteps : s.Plain) {id : ListId}
    (hid : id < m.heap.size) : m'.heap.contents id = m.heap.contents id := by
  cases h with
  | made => exact Heap.contents_alloc_of_lt _ _ hid
  | joined => exact Heap.contents_alloc_of_lt _ _ hid
  | written => cases hsteps
  | appended => cases hsteps
  | cleared => cases hsteps
  | _ => rfl

end Step

/-! ## How runs end -/

/-- The fault says that the machine would have read something that is not there. -/
def Fault.Broken (fault : Fault) : Prop :=
  match fault.cause with
  | .brokenAccess _ => True
  | _ => False

/-- A run has ended, as far as its fuel went, and no access was at fault; a value
that it gave satisfies `Q`. -/
def Eval.Ended {α : Type} (Q : α → Machine → Prop) : Outcome Fault α × Machine → Prop
  | (.done a, m) => Q a m
  | (.failed fault, _) => ¬ fault.Broken
  | (.outOfFuel, _) => True

namespace Step

variable {α : Type} {m : Machine}

/-- Where a scope is there, the guard of a step lets it through. -/
theorem inArena_ended {Q : α → Machine → Prop} {scope : ScopeId} (hscope : scope < m.scopes.size)
    (position : Option Position) {body : Run Machine Fault α} (h : Eval.Ended Q (body m)) :
    Eval.Ended Q (inArena scope position body m) := by
  unfold inArena
  rwa [if_pos hscope]

/-- Where a list is there, the guard of a step lets it through, and the elements are those
of the heap. -/
theorem onList_ended {Q : α → Machine → Prop} {id : ListId} (hid : id < m.heap.size)
    (position : Option Position) {body : List Value → Run Machine Fault α}
    (h : Eval.Ended Q (body (m.heap.contents id) m)) :
    Eval.Ended Q (onList id position body m) := by
  unfold onList
  rwa [if_pos hid]

/-- **In its domain no step makes a broken access**, and what it gives is sound. -/
theorem perform_ended (s : Step α) (hm : m.Sound) (hs : s.InDomain m) :
    Eval.Ended s.Gives (s.perform m) := by
  cases s with
  | declareVariable scope name value position =>
      apply inArena_ended hs.1
      split
      next scopes h =>
        obtain ⟨s, hscope, _, rfl⟩ := Arena.declareVariable?_eq_some_iff.mp h
        refine ⟨s.addVariable (Name.fold name) ⟨name, value⟩, ?_, ?_⟩
        · simp [Array.getElem?_modify, hscope]
        · rw [Scope.getVariable?_addVariable_self]
          rfl
      next => exact id
  | declareFunction scope f position =>
      apply inArena_ended hs
      split
      · trivial
      · exact id
  | readVariable scope name position =>
      apply inArena_ended hs
      split
      next name' value h =>
        obtain ⟨i, s, hi, hget⟩ := Arena.exists_of_findOutward h
        exact hm.vars i s hi _ _ _ hget
      next => exact id
      next => exact id
  | assignVariable scope name value position =>
      apply inArena_ended hs.1
      split
      · trivial
      · exact id
  | fillVariable scope name value position =>
      apply inArena_ended hs.1.lt_size
      split
      · trivial
      · exact id
  | findFunction scope name position =>
      apply inArena_ended hs
      split
      next f h => exact Machine.knows_of_findFunction? h
      next => exact id
  | extraArguments scope position =>
      apply inArena_ended hs
      split
      next id h => exact hm.cells id
      next => exact nofun
  | newList items =>
      show m.heap.size < (m.heap.alloc items).2.size
      rw [Heap.size_alloc]
      exact Nat.lt_succ_self _
  | listItems id position =>
      apply onList_ended hs
      rfl
  | readElement id i position =>
      obtain ⟨hid, hi⟩ := hs
      have hget : (m.heap.contents id)[i]? = some (m.heap.contents id)[i] :=
        List.getElem?_eq_getElem hi
      show Eval.Ended _ (onList id position
        (fun items => Run.ofOption ⟨.brokenAccess .element, position⟩ items[i]?) m)
      apply onList_ended hid
      rw [hget]
      exact hm.cells id _ (List.getElem_mem hi)
  | writeElement id i v position =>
      obtain ⟨hid, hi, _⟩ := hs
      show Eval.Ended _ (onList id position (fun items =>
        if i < items.length then replaceItems id (items.set i v)
        else Run.fail ⟨.brokenAccess .element, position⟩) m)
      apply onList_ended hid
      rw [if_pos hi]
      trivial
  | appendItem id v position =>
      show Eval.Ended _ (onList id position (fun items => replaceItems id (items ++ [v])) m)
      apply onList_ended hs.1
      trivial
  | clearList id position =>
      show Eval.Ended _ (onList id position (fun _ => replaceItems id []) m)
      apply onList_ended hs
      trivial
  | render v => trivial
  | printLine line => trivial
  | applyBinary op a b position =>
      simp only [perform]
      split
      next result heap h =>
        rcases BinaryOp.apply_eq_ok h with ⟨rfl, hresult⟩ | ⟨x, y, _, _, _, rfl, rfl⟩
        · exact hresult _
        · show m.heap.size < (m.heap.alloc _).2.size
          rw [Heap.size_alloc]
          exact Nat.lt_succ_self _
      next => exact id

end Step

/-! ## What a run keeps -/

/-- A property of machines that opening and closing scopes and calls cannot break. -/
structure Machine.Steady (I : Machine → Prop) : Prop where
  pushScope : ∀ {m} parent, I m → I (m.pushScope parent)
  keepScopes : ∀ {m} count, I m → I (m.keepScopes count)
  enterCall : ∀ {m}, I m → I m.enterCall
  leaveCall : ∀ {m}, I m → I m.leaveCall

namespace Eval

variable {α β : Type}

/-- **A steady property that every step of a run keeps holds all along the run**: at
its end, wherever a step is taken, and at every moment. -/
theorem steady_of_taken {I : Machine → Prop} (hI : Machine.Steady I) (x : Eval α) {m : Machine}
    (hm : I m) (hstep : ∀ t ∈ x.taken m, I t.machine → I (t.step.perform t.machine).2) :
    I (x.run m).2 ∧ (∀ t ∈ x.taken m, I t.machine) ∧
      ∀ calls, ∀ p ∈ x.moments calls m, I p.machine := by
  induction x generalizing m with
  | pure a => exact ⟨hm, by simp [taken], by simp [moments, hm]⟩
  | bind x f ihx ihf =>
      obtain ⟨hend, htaken, hmoments⟩ :=
        ihx hm fun t ht => hstep t (mem_taken_bind.mpr (.inl ht))
      have hrest : ∀ a m', x.run m = (.done a, m') → I ((f a).run m').2 ∧
          (∀ t ∈ (f a).taken m', I t.machine) ∧
            ∀ calls, ∀ p ∈ (f a).moments calls m', I p.machine := by
        intro a m' hrun
        rw [hrun] at hend
        exact ihf a hend fun t ht => hstep t (mem_taken_bind.mpr (.inr ⟨a, m', hrun, ht⟩))
      refine ⟨?_, ?_, ?_⟩
      · simp only [run, Run.bind]
        rcases hrun : x.run m with ⟨a | e | _, m'⟩
        · exact (hrest a m' hrun).1
        · rwa [hrun] at hend
        · rwa [hrun] at hend
      · intro t ht
        rcases mem_taken_bind.mp ht with ht | ⟨a, m', hrun, ht⟩
        · exact htaken t ht
        · exact (hrest a m' hrun).2.1 t ht
      · intro calls p hp
        rcases mem_moments_bind.mp hp with hp | ⟨a, m', hrun, hp⟩
        · exact hmoments calls p hp
        · exact (hrest a m' hrun).2.2 calls p hp
  | fail fault => exact ⟨hm, by simp [taken], by simp [moments, hm]⟩
  | starve => exact ⟨hm, by simp [taken], by simp [moments, hm]⟩
  | step s =>
      have hafter : I (s.perform m).2 := hstep ⟨s, m⟩ (by simp [taken]) hm
      refine ⟨hafter, by simpa [taken] using hm, ?_⟩
      intro calls p hp
      simp only [moments, List.mem_cons, List.not_mem_nil, or_false] at hp
      rcases hp with rfl | rfl
      · exact hm
      · exact hafter
  | inScope parent body ih =>
      obtain ⟨hend, htaken, hmoments⟩ := ih m.scopes.size (hI.pushScope parent hm) hstep
      have hafter : I ((inScope parent body).run m).2 := hI.keepScopes _ hend
      refine ⟨hafter, htaken, ?_⟩
      intro calls p hp
      simp only [moments, List.cons_append, List.mem_cons, List.mem_append,
        List.not_mem_nil, or_false] at hp
      rcases hp with rfl | hp | rfl
      · exact hm
      · exact hmoments calls p hp
      · exact hafter
  | asCall position body ih =>
      by_cases hlt : m.callDepth < m.maxCallDepth
      · simp only [taken, if_pos hlt] at hstep ⊢
        obtain ⟨hend, htaken, hmoments⟩ := ih (hI.enterCall hm) hstep
        have hafter : I ((asCall position body).run m).2 := by
          simp only [run, if_pos hlt]
          split
          · exact hend
          · exact hI.leaveCall hend
        refine ⟨hafter, htaken, ?_⟩
        intro calls p hp
        simp only [moments, if_pos hlt, List.cons_append, List.mem_cons, List.mem_append,
          List.not_mem_nil, or_false] at hp
        rcases hp with rfl | hp | rfl
        · exact hm
        · exact hmoments (calls + 1) p hp
        · exact hafter
      · simp [taken, moments, run, if_neg hlt, hm]

end Eval

namespace Machine

variable {m : Machine} {plain : Prop}

/-- Soundness is about variables and lists, so scopes and calls that come and go cannot
break it. -/
theorem steady_sound : Steady Machine.Sound where
  pushScope parent h := by
    refine ⟨?_, h.cells⟩
    intro i s hs
    rcases eq_empty_or_of_pushScope hs with rfl | hs
    · exact Scope.within_empty _ _
    · exact h.vars i s hs
  keepScopes count h := ⟨fun i s hs => h.vars i s (getElem?_of_keepScopes hs), h.cells⟩
  enterCall h := ⟨h.vars, h.cells⟩
  leaveCall h := ⟨h.vars, h.cells⟩

/-- Plainness is about functions and lists, and a new scope has no functions. -/
theorem steady_plain : Steady Machine.Plain where
  pushScope _ h := ⟨fun f hf => h.functions f (knows_of_pushScope hf), h.layered⟩
  keepScopes _ h := ⟨fun f hf => h.functions f (knows_of_keepScopes hf), h.layered⟩
  enterCall h := ⟨h.functions, h.layered⟩
  leaveCall h := ⟨h.functions, h.layered⟩

namespace Ready

variable {scope : ScopeId}

/-- A new scope is one that code can run in. -/
theorem pushScope (hm : m.Ready plain scope) (parent : ScopeId) :
    (m.pushScope parent).Ready plain m.scopes.size where
  sound := steady_sound.pushScope parent hm.sound
  plain h := steady_plain.pushScope parent (hm.plain h)
  scope_lt := by simp [Machine.pushScope]

/-- A call leaves the machine ready. -/
theorem enterCall (hm : m.Ready plain scope) : m.enterCall.Ready plain scope where
  sound := steady_sound.enterCall hm.sound
  plain h := steady_plain.enterCall (hm.plain h)
  scope_lt := hm.scope_lt

end Ready

end Machine

/-! ## Safe computations -/

namespace Eval

variable {α β : Type} {plain : Prop} {scope : ScopeId} {m : Machine}

/-- Run on the machine, the computation takes every step in its domain, makes no broken
access, and gives only values with `Q`.  Where `plain` holds it takes plain steps only. -/
structure Safe (plain : Prop) (x : Eval α) (m : Machine) (Q : α → Machine → Prop) : Prop where
  taken : ∀ t ∈ x.taken m, t.step.InDomain t.machine ∧ (plain → t.step.Plain)
  ended : Ended Q (x.run m)

namespace Safe

variable {x : Eval α} {P Q : α → Machine → Prop}

/-- What a safe computation promises of its value holds of the value that it gives. -/
theorem of_run_eq_done (hx : x.Safe plain m Q) {a : α} {m' : Machine}
    (hrun : x.run m = (.done a, m')) : Q a m' := by
  have hended := hx.ended
  rwa [hrun] at hended

/-- A promise may be weakened. -/
theorem imp (hx : x.Safe plain m P) (h : ∀ a m', P a m' → Q a m') : x.Safe plain m Q := by
  refine ⟨hx.taken, ?_⟩
  have hended := hx.ended
  rcases hrun : x.run m with ⟨a | e | _, m'⟩ <;> rw [hrun] at hended
  · exact h a m' hended
  · exact hended
  · trivial

/-- A safe computation keeps a machine sound, at its end, at each of its steps and at every
moment. -/
theorem sound (hx : x.Safe plain m Q) (hm : m.Sound) :
    (x.run m).2.Sound ∧ (∀ t ∈ x.taken m, t.machine.Sound) ∧
      ∀ calls, ∀ p ∈ x.moments calls m, p.machine.Sound := by
  apply steady_of_taken Machine.steady_sound x hm
  intro t ht hsound
  exact (t.step.perform_change t.machine).sound hsound (hx.taken t ht).1

/-- A safe computation of plain code keeps a machine plain, at its end and at each of its
steps. -/
theorem plain_machines (hx : x.Safe plain m Q) (hplain : plain) (hm : m.Sound)
    (hm' : m.Plain) : (x.run m).2.Plain ∧ ∀ t ∈ x.taken m, t.machine.Plain := by
  have hsound := (hx.sound hm).2.1
  have hsteady := steady_of_taken Machine.steady_plain x hm' fun t ht hp =>
    (t.step.perform_change t.machine).plain (hsound t ht) hp (hx.taken t ht).1
      ((hx.taken t ht).2 hplain)
  exact ⟨hsteady.1, hsteady.2.1⟩

/-- After a safe computation the machine is ready again. -/
theorem ready (hx : x.Safe plain m Q) (hm : m.Ready plain scope) :
    (x.run m).2.Ready plain scope where
  sound := (hx.sound hm.sound).1
  plain h := (hx.plain_machines h hm.sound (hm.plain h)).1
  scope_lt := by
    rw [(run_later x m).size_eq]
    exact hm.scope_lt

/-- What a safe computation that gives a value leaves to the next one. -/
theorem of_done (hx : x.Safe plain m Q) (hm : m.Ready plain scope) {a : α} {m' : Machine}
    (hrun : x.run m = (.done a, m')) : m'.Ready plain scope ∧ m.Later m' ∧ Q a m' := by
  have hready := hx.ready hm
  have hlater := run_later x m
  rw [hrun] at hready hlater
  exact ⟨hready, hlater, hx.of_run_eq_done hrun⟩

/-- The rule for sequences: the second part is run on a later machine, which is ready
again. -/
theorem bind {P : α → Machine → Prop} {Q : β → Machine → Prop} {f : α → Eval β}
    (hx : x.Safe plain m P) (hm : m.Ready plain scope)
    (hf : ∀ a m', m'.Ready plain scope → m.Later m' → P a m' → (f a).Safe plain m' Q) :
    (x >>= f).Safe plain m Q := by
  have hrest : ∀ a m', x.run m = (.done a, m') → (f a).Safe plain m' Q := by
    intro a m' hrun
    obtain ⟨hready, hlater, ha⟩ := hx.of_done hm hrun
    exact hf a m' hready hlater ha
  constructor
  · intro t ht
    rcases mem_taken_bind.mp ht with ht | ⟨a, m', hrun, ht⟩
    · exact hx.taken t ht
    · exact (hrest a m' hrun).taken t ht
  · have hended := hx.ended
    show Ended Q (Run.bind x.run (fun a => (f a).run) m)
    unfold Run.bind
    rcases hrun : x.run m with ⟨a | e | _, m'⟩ <;> rw [hrun] at hended
    · exact (hrest a m' hrun).ended
    · exact hended
    · trivial

end Safe

theorem safe_pure {Q : α → Machine → Prop} {a : α} (h : Q a m) :
    (pure a : Eval α).Safe plain m Q :=
  ⟨fun _ ht => absurd ht List.not_mem_nil, h⟩

/-- A fault is safe unless it tells of a broken access. -/
theorem safe_fail {Q : α → Machine → Prop} {fault : Fault} (h : ¬ fault.Broken) :
    (fail fault : Eval α).Safe plain m Q :=
  ⟨fun _ ht => absurd ht List.not_mem_nil, h⟩

theorem safe_starve {Q : α → Machine → Prop} : (starve : Eval α).Safe plain m Q :=
  ⟨fun _ ht => absurd ht List.not_mem_nil, trivial⟩

/-- The rule for single steps. -/
theorem safe_step (hm : m.Ready plain scope) {s : Step α} (hs : s.InDomain m)
    (hplain : plain → s.Plain) : (Eval.step s).Safe plain m s.Gives := by
  refine ⟨?_, s.perform_ended hm.sound hs⟩
  intro t ht
  rw [List.mem_singleton.mp ht]
  exact ⟨hs, hplain⟩

/-! The rule for single steps, read for those that code takes in several places. -/

/-- A variable that is read holds a value that is there. -/
theorem safe_readVariable (hm : m.Ready plain scope) (name : String)
    (position : Option Position) :
    (readVariable scope name position).Safe plain m fun v m' => m'.Has v :=
  safe_step hm hm.scope_lt fun _ => trivial

/-- A declaration is safe if the value it gives is there, and the variable is declared
then. -/
theorem safe_declareVariable (hm : m.Ready plain scope) (name : String) {value : Option Value}
    (hvalue : ∀ v ∈ value, m.Has v) (position : Option Position) :
    (declareVariable scope name value position).Safe plain m
      fun _ m' => m'.Declares scope (Name.fold name) :=
  safe_step hm ⟨hm.scope_lt, hvalue⟩ fun _ => trivial

/-- A variable can be filled once it is declared. -/
theorem safe_fillVariable (hm : m.Ready plain scope) {name : String} {v : Value}
    (hname : m.Declares scope (Name.fold name)) (hv : m.Has v) (position : Option Position) :
    (fillVariable scope name v position).Safe plain m fun _ _ => True :=
  safe_step hm ⟨hname, hv⟩ fun _ => trivial

/-- The extra arguments are values that are there. -/
theorem safe_extraArguments (hm : m.Ready plain scope) (position : Option Position) :
    (extraArguments scope position).Safe plain m fun items m' => ∀ v ∈ items, m'.Has v :=
  safe_step hm hm.scope_lt fun _ => trivial

/-- A new list of values that are there is there itself. -/
theorem safe_newList (hm : m.Ready plain scope) {items : List Value}
    (hitems : ∀ v ∈ items, m.Has v) :
    (newList items).Safe plain m fun v m' => m'.Has v :=
  safe_step hm hitems fun _ => trivial

/-- The elements of a list that is there are those that the heap has for it. -/
theorem safe_listItems (hm : m.Ready plain scope) {id : ListId} (hid : id < m.heap.size)
    (position : Option Position) :
    (listItems id position).Safe plain m fun items m' => items = m'.heap.contents id :=
  safe_step hm hid fun _ => trivial

/-- A value that is there can be written as text. -/
theorem safe_render (hm : m.Ready plain scope) {v : Value} (hv : m.Has v) :
    (render v).Safe plain m fun _ _ => True :=
  safe_step hm hv fun _ => trivial

/-- The rule for scopes: what holds of a value may not depend on the new scope. -/
theorem safe_inScope {Q : α → Machine → Prop} {parent : ScopeId} {body : ScopeId → Eval α}
    (hQ : ∀ a m' count, Q a m' → Q a (m'.keepScopes count))
    (hbody : (body m.scopes.size).Safe plain (m.pushScope parent) Q) :
    (inScope parent body).Safe plain m Q := by
  refine ⟨hbody.taken, ?_⟩
  have hended := hbody.ended
  simp only [run]
  rcases hrun : (body m.scopes.size).run (m.pushScope parent) with ⟨a | e | _, m'⟩ <;>
    rw [hrun] at hended
  · exact hQ a m' _ hended
  · exact hended
  · trivial

/-- The rule for calls: a call that was counted can be closed. -/
theorem safe_asCall {Q : α → Machine → Prop} {position : Option Position} {body : Eval α}
    (hQ : ∀ a m', Q a m' → Q a m'.leaveCall) (hbody : body.Safe plain m.enterCall Q) :
    (asCall position body).Safe plain m Q := by
  constructor
  · intro t ht
    simp only [Eval.taken] at ht
    split at ht
    · exact hbody.taken t ht
    · cases ht
  · have hended := hbody.ended
    have hdepth : (body.run m.enterCall).2.callDepth = m.callDepth + 1 :=
      congrArg Frame.callDepth (run_frame body m.enterCall)
    simp only [run]
    split
    · rcases hrun : body.run m.enterCall with ⟨a | e | _, m'⟩ <;> rw [hrun] at hended hdepth
      -- the call itself is still counted, however the body has ended
      · rw [if_neg (by omega)]
        exact hQ a m' hended
      · rw [if_neg (by omega)]
        exact hended
      · rw [if_neg (by omega)]
        trivial
    · exact id

end Eval

end Scriptlet
