import Scriptlet.Proofs.Moment
import Scriptlet.Proofs.Plain

/-!
# What a step can change

`Step.Change` lists what each step may do to a machine: the change that it is meant
for, or none (`Step.perform_change`).  What a single step keeps is then a matter of a
short case analysis, and what a run keeps follows by induction.  Here this is done for
two facts.  A run takes no scope, no variable and no list away (`Eval.run_later`), and
the only functions that a step makes known are those that it declares
(`Step.Change.knows`).
-/

namespace Scriptlet

namespace Machine

/-- The scope itself declares a variable with the folded name. -/
def Declares (m : Machine) (scope : ScopeId) (key : String) : Prop :=
  ∃ s, m.scopes[scope]? = some s ∧ (s.getVariable? key).isSome

/-- Some scope declares the function. -/
def Knows (m : Machine) (f : Callable) : Prop :=
  ∃ (i : ScopeId) (s : Scope) (key : String), m.scopes[i]? = some s ∧ s.getFunction? key = some f

end Machine

/-- The second machine can come after the first in a run: the scopes are still
there with what they declare, and so are the lists. -/
structure Machine.Later (m m' : Machine) : Prop where
  size_eq : m'.scopes.size = m.scopes.size
  heap_le : m.heap.size ≤ m'.heap.size
  declares : ∀ {i key}, m.Declares i key → m'.Declares i key

namespace Scope

variable {s : Scope}

/-- A variable stays declared when another is added. -/
theorem isSome_addVariable {key : String} (hs : (s.getVariable? key).isSome) (other : String)
    (v : Variable) : ((s.addVariable other v).getVariable? key).isSome := by
  by_cases hkey : key = other
  · subst hkey
    rw [getVariable?_addVariable_self]
    rfl
  · rwa [getVariable?_addVariable_of_ne s _ hkey]

/-- A variable stays declared when one is set. -/
theorem isSome_setVariable {key : String} (hs : (s.getVariable? key).isSome) (other : String)
    (v : Value) : ((s.setVariable other v).getVariable? key).isSome := by
  rw [getVariable?_setVariable]
  split
  · simpa using hs
  · exact hs

end Scope

namespace Arena

variable {arena : Arena}

/-- A scope after one was changed: the changed one, or one that was there. -/
theorem exists_or_of_modify {scope i : ScopeId} {f : Scope → Scope} {s : Scope}
    (hs : (arena.modify scope f)[i]? = some s) :
    (scope = i ∧ ∃ old, arena[i]? = some old ∧ f old = s) ∨ (scope ≠ i ∧ arena[i]? = some s) := by
  rw [Array.getElem?_modify] at hs
  split at hs
  next hi => exact .inl ⟨hi, Option.map_eq_some_iff.mp hs⟩
  next hi => exact .inr ⟨hi, hs⟩

/-- What a search outward finds, a scope gave that is on its way: one of a set that the
search does not leave before it has an answer. -/
theorem exists_on_way_of_findOutward {α : Type} {pick : ScopeId → Scope → Option α}
    {steps : Nat} {id : ScopeId} {a : α} (h : arena.findOutward pick steps id = some a)
    {way : ScopeId → Prop} (hid : way id)
    (hway : ∀ {i s j}, way i → arena[i]? = some s → pick i s = none → s.parent = some j → way j) :
    ∃ i s, way i ∧ arena[i]? = some s ∧ pick i s = some a := by
  induction steps generalizing id with
  | zero => cases h
  | succ steps ih =>
      unfold findOutward at h
      split at h
      next => cases h
      next s hs =>
        split at h
        next b hb =>
          cases h
          exact ⟨id, s, hid, hs, hb⟩
        next hnone =>
          split at h
          next parent hparent => exact ih h (hway hid hs hnone hparent)
          next => cases h

/-- What a search outward finds, some scope gave. -/
theorem exists_of_findOutward {α : Type} {pick : ScopeId → Scope → Option α} {steps : Nat}
    {id : ScopeId} {a : α} (h : arena.findOutward pick steps id = some a) :
    ∃ i s, arena[i]? = some s ∧ pick i s = some a := by
  obtain ⟨i, s, _, hs, ha⟩ :=
    exists_on_way_of_findOutward h (trivial : (fun _ => True) id) fun _ _ _ _ => trivial
  exact ⟨i, s, hs, ha⟩

/-- A scope that declares the variable is where the search for it ends. -/
theorem owner?_eq_self {scope : ScopeId} {s : Scope} {name : String} (hs : arena[scope]? = some s)
    (hname : (s.getVariable? (Name.fold name)).isSome) : arena.owner? scope name = some scope := by
  simp [owner?, findOutward, hs, hname]

/-- A variable that the scope itself declares is what its name means there. -/
theorem findVariable?_eq_self {scope : ScopeId} {s : Scope} {name : String} {v : Variable}
    (hs : arena[scope]? = some s) (hv : s.getVariable? (Name.fold name) = some v) :
    arena.findVariable? scope name = some v := by
  simp [findVariable?, findOutward, hs, hv]

end Arena

namespace BinaryOp

variable {op : BinaryOp}

/-- Operators on integers give no lists. -/
theorem within_of_onInts? {f : Int32 → Int32 → Except OperandFault Value} {a b : Int32}
    {result : Value} (hop : op.onInts? = some f) (h : f a b = .ok result) (size : Nat) :
    result.Within size := by
  cases op with
  | div | mod =>
      cases hop
      dsimp only at h
      split at h <;> cases h
      trivial
  | and | or => cases hop
  | _ =>
      cases hop
      cases h
      trivial

/-- Operators on doubles give no lists. -/
theorem within_of_applyToNumbers {a b result : Value} (h : op.applyToNumbers a b = .ok result)
    (size : Nat) : result.Within size := by
  unfold applyToNumbers at h
  split at h
  next f x y hop _ _ =>
    cases h
    cases op <;> cases hop <;> trivial
  next => cases h

/-- A binary operator leaves the heap alone and gives no list, or it joins two lists
to a new one. -/
theorem apply_eq_ok {h h' : Heap} {a b result : Value} (hok : op.apply h a b = .ok (result, h')) :
    (h' = h ∧ ∀ size, result.Within size) ∨
      ∃ x y, op = .add ∧ a = .list x ∧ b = .list y ∧ result = .list h.size ∧
        h' = (h.alloc (h.contents x ++ h.contents y)).2 := by
  unfold apply at hok
  split at hok
  next x y =>
    cases op with
    | add =>
        cases hok
        exact .inr ⟨x, y, rfl, rfl, rfl, rfl, rfl⟩
    | equal | notEqual =>
        cases hok
        exact .inl ⟨rfl, fun _ => trivial⟩
    | _ => cases hok
  next x y =>
    split at hok
    next f hop =>
      cases hf : f x y with
      | ok r =>
          rw [hf] at hok
          cases hok
          exact .inl ⟨rfl, within_of_onInts? hop hf⟩
      | error reason =>
          rw [hf] at hok
          cases hok
    next => cases hok
  next x y =>
    split at hok
    next f hop =>
      cases hok
      refine .inl ⟨rfl, fun size => ?_⟩
      cases op <;> cases hop <;> trivial
    next => cases hok
  next x y =>
    split at hok
    next f hop =>
      cases hok
      refine .inl ⟨rfl, fun size => ?_⟩
      cases op <;> cases hop <;> trivial
    next => cases hok
  next =>
    cases hnum : op.applyToNumbers a b with
    | ok r =>
        rw [hnum] at hok
        cases hok
        exact .inl ⟨rfl, within_of_applyToNumbers hnum⟩
    | error reason =>
        rw [hnum] at hok
        cases hok

end BinaryOp

/-! ## Changes -/

namespace Step

variable {α : Type}

/-- What a step may do to a machine.  Whatever else it does, it fails or looks only. -/
inductive Change : {α : Type} → Step α → Machine → Machine → Prop where
  | unchanged {α : Type} {s : Step α} {m : Machine} : Change s m m
  | declaredVariable {scope : ScopeId} {name : String} {value : Option Value}
      {position : Option Position} {m : Machine} (hnew : ¬ m.Declares scope (Name.fold name)) :
      Change (.declareVariable scope name value position) m
        { m with scopes := m.scopes.modify scope (·.addVariable (Name.fold name) ⟨name, value⟩) }
  | declaredFunction {scope : ScopeId} {f : Callable} {position : Option Position} {m : Machine} :
      Change (.declareFunction scope f position) m
        { m with scopes := m.scopes.modify scope (·.addFunction (Name.fold f.signature.name) f) }
  | assigned {scope owner : ScopeId} {name : String} {value : Value}
      {position : Option Position} {m : Machine}
      (howner : m.scopes.owner? scope name = some owner) :
      Change (.assignVariable scope name value position) m
        { m with scopes := m.scopes.modify owner (·.setVariable (Name.fold name) value) }
  | filled {scope owner : ScopeId} {name : String} {value : Value}
      {position : Option Position} {m : Machine}
      (howner : m.scopes.owner? scope name = some owner) :
      Change (.fillVariable scope name value position) m
        { m with scopes := m.scopes.modify owner (·.setVariable (Name.fold name) value) }
  | made {items : List Value} {m : Machine} :
      Change (.newList items) m { m with heap := (m.heap.alloc items).2 }
  | written {id : ListId} {i : Nat} {v : Value} {position : Option Position} {m : Machine} :
      Change (.writeElement id i v position) m
        { m with heap := m.heap.modify id fun _ => (m.heap.contents id).set i v }
  | appended {id : ListId} {v : Value} {position : Option Position} {m : Machine} :
      Change (.appendItem id v position) m
        { m with heap := m.heap.modify id fun _ => m.heap.contents id ++ [v] }
  | cleared {id : ListId} {position : Option Position} {m : Machine} :
      Change (.clearList id position) m { m with heap := m.heap.modify id fun _ => [] }
  | printed {line : String} {m : Machine} :
      Change (.printLine line) m { m with output := m.output.push line }
  | joined {a b : ListId} {position : Option Position} {m : Machine} :
      Change (.applyBinary .add (.list a) (.list b) position) m
        { m with heap := (m.heap.alloc (m.heap.contents a ++ m.heap.contents b)).2 }

/-- The step declares the function. -/
def Brings : Step α → Callable → Prop
  | .declareFunction _ f _, g => f = g
  | _, _ => False

/-- A step in a scope does what is behind its guard, or only fails. -/
theorem inArena_change {s : Step α} {m : Machine} (scope : ScopeId)
    (position : Option Position) {body : Run Machine Fault α} (h : s.Change m (body m).2) :
    s.Change m (inArena scope position body m).2 := by
  unfold inArena
  split
  · exact h
  · exact .unchanged

/-- A step on a list does what is behind its guard, or only fails. -/
theorem onList_change {s : Step α} {m : Machine} (id : ListId) (position : Option Position)
    {body : List Value → Run Machine Fault α}
    (h : s.Change m (body (m.heap.contents id) m).2) :
    s.Change m (onList id position body m).2 := by
  unfold onList
  split
  · exact h
  · exact .unchanged

/-- **Each step makes the change it is meant for, or none.** -/
theorem perform_change (s : Step α) (m : Machine) : s.Change m (s.perform m).2 := by
  cases s with
  | declareVariable scope name value position =>
      apply inArena_change
      split
      next scopes h =>
        obtain ⟨s, hs, hnone, rfl⟩ := Arena.declareVariable?_eq_some_iff.mp h
        refine .declaredVariable ?_
        rintro ⟨_, hsame, hsome⟩
        cases hs.symm.trans hsame
        rw [hnone] at hsome
        cases hsome
      next => exact .unchanged
  | declareFunction scope f position =>
      apply inArena_change
      split
      next scopes h =>
        obtain ⟨_, _, _, rfl⟩ := Arena.declareFunction?_eq_some_iff.mp h
        exact .declaredFunction
      next => exact .unchanged
  | readVariable scope name position =>
      apply inArena_change
      split <;> exact .unchanged
  | assignVariable scope name value position =>
      apply inArena_change
      split
      next scopes h =>
        obtain ⟨owner, howner, rfl⟩ := Arena.assign?_eq_some_iff.mp h
        exact .assigned howner
      next => exact .unchanged
  | fillVariable scope name value position =>
      apply inArena_change
      split
      next scopes h =>
        obtain ⟨owner, howner, rfl⟩ := Arena.assign?_eq_some_iff.mp h
        exact .filled howner
      next => exact .unchanged
  | findFunction scope name position =>
      apply inArena_change
      split <;> exact .unchanged
  | extraArguments scope position =>
      apply inArena_change
      split <;> exact .unchanged
  | newList items => exact .made
  | listItems id position => exact onList_change id position .unchanged
  | readElement id i position =>
      apply onList_change
      cases (m.heap.contents id)[i]? <;> exact .unchanged
  | writeElement id i v position =>
      apply onList_change
      split
      · exact .written
      · exact .unchanged
  | appendItem id v position => exact onList_change id position .appended
  | clearList id position => exact onList_change id position .cleared
  | render v => exact .unchanged
  | printLine line => exact .printed
  | applyBinary op a b position =>
      simp only [perform]
      split
      next result heap h =>
        rcases BinaryOp.apply_eq_ok h with ⟨rfl, _⟩ | ⟨x, y, rfl, rfl, rfl, _, rfl⟩
        · exact .unchanged
        · exact .joined
      next => exact .unchanged

end Step

namespace Machine

variable {m m' : Machine}

/-- A scope that declares something is there. -/
theorem Declares.lt_size {scope : ScopeId} {key : String} (h : m.Declares scope key) :
    scope < m.scopes.size := by
  obtain ⟨s, hs, _⟩ := h
  exact (Array.getElem?_eq_some_iff.mp hs).1

/-- A declaration stays when a scope is opened. -/
theorem Declares.pushScope {scope : ScopeId} {key : String} (h : m.Declares scope key)
    (parent : ScopeId) : (m.pushScope parent).Declares scope key := by
  have hlt := h.lt_size
  obtain ⟨s, hs, hkey⟩ := h
  refine ⟨s, ?_, hkey⟩
  rw [getElem?_pushScope, if_neg (Nat.ne_of_lt hlt)]
  exact hs

/-- A declaration stays when the scopes behind its own are taken away. -/
theorem Declares.keepScopes {scope : ScopeId} {key : String} (h : m.Declares scope key)
    {count : Nat} (hcount : scope < count) : (m.keepScopes count).Declares scope key := by
  obtain ⟨s, hs, hkey⟩ := h
  refine ⟨s, ?_, hkey⟩
  rw [getElem?_keepScopes, if_pos hcount]
  exact hs

/-- A machine comes after itself. -/
theorem Later.refl (m : Machine) : m.Later m :=
  ⟨rfl, Nat.le_refl _, id⟩

/-- What comes after a later machine comes after the first. -/
theorem Later.trans {m'' : Machine} (h : m.Later m') (h' : m'.Later m'') : m.Later m'' :=
  ⟨h'.size_eq.trans h.size_eq, Nat.le_trans h.heap_le h'.heap_le,
    fun hd => h'.declares (h.declares hd)⟩

/-- A change to one scope that takes no variable from it leads to a later machine. -/
theorem later_modify (scope : ScopeId) {f : Scope → Scope}
    (hf : ∀ s key, (s.getVariable? key).isSome → ((f s).getVariable? key).isSome) :
    m.Later { m with scopes := m.scopes.modify scope f } := by
  refine ⟨Array.size_modify, Nat.le_refl _, ?_⟩
  rintro i key ⟨s, hs, hkey⟩
  by_cases hi : scope = i
  · subst hi
    exact ⟨f s, by simp [Array.getElem?_modify, hs], hf s key hkey⟩
  · exact ⟨s, by simp [Array.getElem?_modify, hi, hs], hkey⟩

/-- More lists make a later machine. -/
theorem later_with_heap {heap : Heap} (hheap : m.heap.size ≤ heap.size) :
    m.Later { m with heap := heap } :=
  ⟨rfl, hheap, id⟩

/-- A scope after one was opened: an empty one, or one that was there. -/
theorem eq_empty_or_of_pushScope {parent i : ScopeId} {s : Scope}
    (hs : (m.pushScope parent).scopes[i]? = some s) :
    s = Scope.empty (some parent) ∨ m.scopes[i]? = some s := by
  rw [getElem?_pushScope] at hs
  split at hs
  · exact .inl (Option.some.inj hs).symm
  · exact .inr hs

/-- A scope that was kept was there. -/
theorem getElem?_of_keepScopes {count i : Nat} {s : Scope}
    (hs : (m.keepScopes count).scopes[i]? = some s) : m.scopes[i]? = some s := by
  rw [getElem?_keepScopes] at hs
  split at hs
  · exact hs
  · cases hs

/-- A change to one scope makes a function known if it brings it there. -/
theorem knows_of_modify {scope : ScopeId} {f : Scope → Scope} {g : Callable} {brought : Prop}
    (h : { m with scopes := m.scopes.modify scope f }.Knows g)
    (hf : ∀ s key, (f s).getFunction? key = some g → s.getFunction? key = some g ∨ brought) :
    m.Knows g ∨ brought := by
  obtain ⟨i, s, key, hs, hg⟩ := h
  rcases Arena.exists_or_of_modify hs with ⟨_, old, hold, rfl⟩ | ⟨_, hold⟩
  · rcases hf old key hg with hg | hbrought
    · exact .inl ⟨i, old, key, hold, hg⟩
    · exact .inr hbrought
  · exact .inl ⟨i, s, key, hold, hg⟩

/-- A function that is found is known. -/
theorem knows_of_findFunction? {scope : ScopeId} {name : String} {f : Callable}
    (h : m.scopes.findFunction? scope name = some f) : m.Knows f := by
  obtain ⟨i, s, hs, hf⟩ := Arena.exists_of_findOutward h
  exact ⟨i, s, _, hs, hf⟩

/-- A new machine knows no function. -/
theorem not_knows_initial (maxCallDepth : Nat) (f : Callable) :
    ¬ (Machine.initial maxCallDepth).Knows f := by
  rintro ⟨i, s, key, hs, hf⟩
  have hempty : s ∈ Arena.initial := Array.mem_of_getElem? hs
  rw [Array.mem_singleton.mp hempty] at hf
  cases hf

/-- A new scope knows no function. -/
theorem knows_of_pushScope {parent : ScopeId} {f : Callable}
    (h : (m.pushScope parent).Knows f) : m.Knows f := by
  obtain ⟨i, s, key, hs, hf⟩ := h
  rcases eq_empty_or_of_pushScope hs with rfl | hs
  · simp [Scope.empty, Scope.getFunction?] at hf
  · exact ⟨i, s, key, hs, hf⟩

/-- A function that is known with fewer scopes is known with all. -/
theorem knows_of_keepScopes {count : Nat} {f : Callable} (h : (m.keepScopes count).Knows f) :
    m.Knows f := by
  obtain ⟨i, s, key, hs, hf⟩ := h
  exact ⟨i, s, key, getElem?_of_keepScopes hs, hf⟩

end Machine

namespace Step

variable {α : Type} {s : Step α} {m m' : Machine}

/-- No step takes a scope, a variable or a list away. -/
theorem Change.later (h : s.Change m m') : m.Later m' := by
  cases h with
  | unchanged => exact .refl m
  | declaredVariable => exact Machine.later_modify _ fun s key hs => Scope.isSome_addVariable hs _ _
  | declaredFunction => exact Machine.later_modify _ fun s key hs => hs
  | assigned => exact Machine.later_modify _ fun s key hs => Scope.isSome_setVariable hs _ _
  | filled => exact Machine.later_modify _ fun s key hs => Scope.isSome_setVariable hs _ _
  | made => exact Machine.later_with_heap (by simp [Heap.size_alloc])
  | written => exact Machine.later_with_heap (by simp [Heap.size_modify])
  | appended => exact Machine.later_with_heap (by simp [Heap.size_modify])
  | cleared => exact Machine.later_with_heap (by simp [Heap.size_modify])
  | printed => exact ⟨rfl, Nat.le_refl _, id⟩
  | joined => exact Machine.later_with_heap (by simp [Heap.size_alloc])

/-- A function that is known after a step was known before, or the step has declared it. -/
theorem Change.knows (h : s.Change m m') {g : Callable} (hg : m'.Knows g) :
    m.Knows g ∨ s.Brings g := by
  cases h with
  | declaredFunction =>
      apply Machine.knows_of_modify hg
      intro s key hkey
      simp only [Scope.getFunction?, Scope.addFunction, List.lookup_cons] at hkey
      split at hkey
      · exact .inr (Option.some.inj hkey)
      · exact .inl hkey
  | declaredVariable => exact Machine.knows_of_modify hg fun s key hkey => .inl hkey
  | assigned => exact Machine.knows_of_modify hg fun s key hkey => .inl hkey
  | filled => exact Machine.knows_of_modify hg fun s key hkey => .inl hkey
  | _ => exact .inl hg

end Step

/-! ## Runs -/

/-- What a computation does to a machine, another computation can find undone only by
its own doing: scopes, variables and lists stay. -/
theorem Eval.run_later {α : Type} (x : Eval α) (m : Machine) : m.Later (x.run m).2 := by
  induction x generalizing m with
  | pure a => exact .refl m
  | bind x f ihx ihf =>
      have hx := ihx m
      simp only [run, Run.bind]
      rcases hrun : x.run m with ⟨a | e | _, m'⟩ <;> rw [hrun] at hx
      · exact hx.trans (ihf a m')
      · exact hx
      · exact hx
  | fail fault => exact .refl m
  | starve => exact .refl m
  | step s => exact (s.perform_change m).later
  | inScope parent body ih =>
      obtain ⟨hsize, hheap, hdeclares⟩ := ih m.scopes.size (m.pushScope parent)
      refine ⟨Machine.size_eq_of_frame_eq (run_frame _ m), hheap, ?_⟩
      intro i key hd
      exact (hdeclares (hd.pushScope parent)).keepScopes hd.lt_size
  | asCall position body ih =>
      have hbody := ih m.enterCall
      simp only [run]
      split
      · split
        · exact ⟨hbody.size_eq, hbody.heap_le, hbody.declares⟩
        · exact ⟨hbody.size_eq, hbody.heap_le, hbody.declares⟩
      · exact .refl m

end Scriptlet
