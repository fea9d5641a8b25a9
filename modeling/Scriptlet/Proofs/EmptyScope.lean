import Scriptlet.Proofs.CallLimit
import Scriptlet.Proofs.Resolution

/-!
# Empty scopes

Code that declares nothing in its own scope does not need one: it may as well run in
the scope outside (`Eval.run_inScope_of_undeclaring`).

The run inside the new scope is put beside the run outside of it.  Its arena has one
scope more, the empty one, at a place `gap`, and later scopes stand one place further on
(`Arena.shift`).  On the way outward a search inside may pass the empty scope and goes on from
its parent, so it takes a **detour** on which it finds nothing.  In all scopes that are
opened later, code declares what it likes and the two runs go in step; this is a
simulation.  Only in the empty scope itself nothing may be declared.
-/

namespace Scriptlet

namespace Arena

/-- Where the scope at `i` stands after one was put in at `gap`. -/
def shift (gap i : Nat) : Nat :=
  if i < gap then i else i + 1

variable {gap i j : Nat}

/-- Scopes before the gap stay where they are. -/
theorem shift_of_lt (h : i < gap) : shift gap i = i := if_pos h

/-- Scopes from the gap on move by one place. -/
theorem shift_of_le (h : gap ≤ i) : shift gap i = i + 1 := if_neg (Nat.not_lt.mpr h)

/-- Different scopes stand at different places afterwards. -/
theorem shift_eq_shift_iff : shift gap i = shift gap j ↔ i = j := by
  unfold shift
  split <;> split <;> omega

/-- No scope stands in the gap. -/
theorem shift_ne_gap : shift gap i ≠ gap := by
  unfold shift
  split <;> omega

/-- The second scope stands for the first: it is the same one at its new place, or the
empty scope, which stands for its parent `base`. -/
def Beside (gap base s t : Nat) : Prop :=
  t = shift gap s ∨ s = base ∧ t = gap

end Arena

/-- The scopes declare the same, and their parents are earlier and stand for each other. -/
structure Scope.Detour (gap base i : Nat) (a b : Scope) : Prop where
  vars_eq : a.vars = b.vars
  functions_eq : a.functions = b.functions
  parents : Option.Rel (fun s t => Arena.Beside gap base s t ∧ s < i ∧ t < Arena.shift gap i)
    a.parent b.parent

/-- The second arena has one scope more, an empty one under `base`. -/
structure Arena.Detour (gap base : Nat) (arena arena' : Arena) : Prop where
  base_lt : base < gap
  gap_le : gap ≤ arena.size
  size_eq : arena'.size = arena.size + 1
  empty : arena'[gap]? = some (Scope.empty (some base))
  scopes : ∀ i, Option.Rel (Scope.Detour gap base i) arena[i]? arena'[Arena.shift gap i]?

namespace Scope.Detour

variable {gap base i : Nat} {a b : Scope}

/-- The same variable may be added to both scopes. -/
theorem addVariable (h : Scope.Detour gap base i a b) (key : String) (v : Variable) :
    Scope.Detour gap base i (a.addVariable key v) (b.addVariable key v) :=
  ⟨congrArg (List.cons (key, v)) h.vars_eq, h.functions_eq, h.parents⟩

/-- The same function may be added to both scopes. -/
theorem addFunction (h : Scope.Detour gap base i a b) (key : String) (f : Callable) :
    Scope.Detour gap base i (a.addFunction key f) (b.addFunction key f) :=
  ⟨h.vars_eq, congrArg (List.cons (key, f)) h.functions_eq, h.parents⟩

/-- The same variable may be set in both scopes. -/
theorem setVariable (h : Scope.Detour gap base i a b) (key : String) (v : Value) :
    Scope.Detour gap base i (a.setVariable key v) (b.setVariable key v) :=
  ⟨congrArg (List.map _) h.vars_eq, h.functions_eq, h.parents⟩

/-- Both scopes have the same variables. -/
theorem getVariable?_eq (h : Scope.Detour gap base i a b) (key : String) :
    a.getVariable? key = b.getVariable? key :=
  congrArg (List.lookup key) h.vars_eq

/-- Both scopes have the same functions. -/
theorem getFunction?_eq (h : Scope.Detour gap base i a b) (key : String) :
    a.getFunction? key = b.getFunction? key :=
  congrArg (List.lookup key) h.functions_eq

end Scope.Detour

namespace Arena.Detour

variable {α β : Type} {gap base s t : Nat} {arena arena' : Arena}

/-- A scope is there if the one that stands for it is. -/
theorem lt_size_iff (h : Arena.Detour gap base arena arena') (hst : Beside gap base s t) :
    s < arena.size ↔ t < arena'.size := by
  have hbase := h.base_lt
  have hgap := h.gap_le
  rw [h.size_eq]
  rcases hst with rfl | ⟨rfl, rfl⟩
  · unfold shift
    split <;> omega
  · omega

/-- A search that comes to the empty scope goes on from its parent. -/
theorem exists_findOutward_shift (h : Arena.Detour gap base arena arena')
    {pick : ScopeId → Scope → Option β} (hempty : pick gap (Scope.empty (some base)) = none)
    (hst : Beside gap base s t) {steps : Nat} (ht : t < steps) :
    ∃ rest, shift gap s < rest ∧
      arena'.findOutward pick steps t = arena'.findOutward pick rest (shift gap s) := by
  rcases hst with rfl | ⟨rfl, rfl⟩
  · exact ⟨steps, ht, rfl⟩
  · obtain ⟨rest, rfl⟩ : ∃ rest, steps = rest + 1 := ⟨steps - 1, by omega⟩
    have hbase := h.base_lt
    rw [shift_of_lt hbase]
    refine ⟨rest, by omega, ?_⟩
    simp only [Arena.findOutward, h.empty, hempty]
    rfl

/-- **A detour finds nothing.**  Searches outward from scopes that stand for each other
go in step, but for the empty scope.  The induction is on the steps of the search without a
detour; both have enough, since parents come before their children. -/
theorem findOutward (h : Arena.Detour gap base arena arena') {ρ : α → β → Prop}
    {pick : ScopeId → Scope → Option α} {pick' : ScopeId → Scope → Option β}
    (hempty : pick' gap (Scope.empty (some base)) = none)
    (hpick : ∀ {i a b}, Scope.Detour gap base i a b →
      Option.Rel ρ (pick i a) (pick' (shift gap i) b))
    {steps steps' : Nat} (hst : Beside gap base s t) (hs : s < steps) (ht : t < steps') :
    Option.Rel ρ (arena.findOutward pick steps s) (arena'.findOutward pick' steps' t) := by
  induction steps generalizing s t steps' with
  | zero => exact absurd hs (Nat.not_lt_zero s)
  | succ steps ih =>
      obtain ⟨rest, hrest, heq⟩ := h.exists_findOutward_shift hempty hst ht
      obtain ⟨rest, rfl⟩ : ∃ k, rest = k + 1 := ⟨rest - 1, by omega⟩
      have hscopes := h.scopes s
      rw [heq]
      simp only [Arena.findOutward]
      generalize arena[s]? = a?, arena'[shift gap s]? = b? at hscopes
      cases hscopes with
      | none => exact .none
      | @some a b hab =>
          have hpicked := hpick hab
          have hparents := hab.parents
          dsimp only
          generalize pick s a = x?, pick' (shift gap s) b = y? at hpicked
          generalize a.parent = s?, b.parent = t? at hparents
          cases hpicked with
          | some hxy => exact .some hxy
          | none =>
              cases hparents with
              | none => exact .none
              | some hbefore =>
                  obtain ⟨hst', hs', ht'⟩ := hbefore
                  exact ih hst' (by omega) (by omega)

/-- An answer that scopes give alike is found alike. -/
theorem findOutward_eq (h : Arena.Detour gap base arena arena') (hst : Beside gap base s t)
    {pick : Scope → Option α} (hempty : pick (Scope.empty (some base)) = none)
    (hpick : ∀ {i a b}, Scope.Detour gap base i a b → pick a = pick b) :
    arena.findOutward (fun _ => pick) (s + 1) s =
      arena'.findOutward (fun _ => pick) (t + 1) t := by
  have hfound : Option.Rel Eq (arena.findOutward (fun _ => pick) (s + 1) s)
      (arena'.findOutward (fun _ => pick) (t + 1) t) := by
    refine h.findOutward hempty ?_ hst (Nat.lt_succ_self s) (Nat.lt_succ_self t)
    intro i a b hab
    rw [hpick hab]
    cases pick b with
    | none => exact .none
    | some x => exact .some rfl
  generalize arena.findOutward _ (s + 1) s = x?, arena'.findOutward _ (t + 1) t = y? at hfound
  cases hfound with
  | none => rfl
  | some hxy => rw [hxy]

/-- A name means the same variable from both scopes, since the empty one has none. -/
theorem findVariable?_eq (h : Arena.Detour gap base arena arena') (hst : Beside gap base s t)
    (name : String) : arena.findVariable? s name = arena'.findVariable? t name :=
  h.findOutward_eq hst rfl fun hab => hab.getVariable?_eq (Name.fold name)

/-- A name means the same function from both scopes. -/
theorem findFunction?_eq (h : Arena.Detour gap base arena arena') (hst : Beside gap base s t)
    (name : String) : arena.findFunction? s name = arena'.findFunction? t name :=
  h.findOutward_eq hst rfl fun hab => hab.getFunction?_eq (Name.fold name)

/-- What declares a variable is never the empty scope. -/
theorem owner? (h : Arena.Detour gap base arena arena') (hst : Beside gap base s t)
    (name : String) : Option.Rel (fun i j => j = shift gap i) (arena.owner? s name)
      (arena'.owner? t name) := by
  refine h.findOutward rfl ?_ hst (Nat.lt_succ_self s) (Nat.lt_succ_self t)
  intro i a b hab
  rw [hab.getVariable?_eq]
  split
  · exact .some rfl
  · exact .none

/-- The same change to a scope on both sides, of what it declares. -/
theorem modify (h : Arena.Detour gap base arena arena') (s : Nat) {f : Scope → Scope}
    (hf : ∀ {i a b}, Scope.Detour gap base i a b → Scope.Detour gap base i (f a) (f b)) :
    Arena.Detour gap base (arena.modify s f) (arena'.modify (shift gap s) f) where
  base_lt := h.base_lt
  gap_le := by simpa using h.gap_le
  size_eq := by simpa using h.size_eq
  empty := by
    rw [Array.getElem?_modify, if_neg shift_ne_gap]
    exact h.empty
  scopes i := by
    have hscopes := h.scopes i
    rw [Array.getElem?_modify, Array.getElem?_modify]
    generalize arena[i]? = a?, arena'[shift gap i]? = b? at hscopes
    by_cases hi : s = i
    · rw [if_pos hi, if_pos (shift_eq_shift_iff.mpr hi)]
      cases hscopes with
      | none => exact .none
      | some hab => exact .some (hf hab)
    · rw [if_neg hi, if_neg (mt shift_eq_shift_iff.mp hi)]
      exact hscopes

/-- A declaration, of a variable or of a function, fails on both sides or on none. -/
theorem declare (h : Arena.Detour gap base arena arena') (s : Nat)
    {taken : Scope → Bool} {add : Scope → Scope}
    (htaken : ∀ {i a b}, Scope.Detour gap base i a b → taken a = taken b)
    (hadd : ∀ {i a b}, Scope.Detour gap base i a b → Scope.Detour gap base i (add a) (add b)) :
    Option.Rel (Arena.Detour gap base)
      (match arena[s]? with
        | none => none
        | some a => if taken a then none else some (arena.modify s add))
      (match arena'[shift gap s]? with
        | none => none
        | some b => if taken b then none else some (arena'.modify (shift gap s) add)) := by
  have hscopes := h.scopes s
  have hmodified := h.modify s hadd
  generalize arena[s]? = a?, arena'[shift gap s]? = b? at hscopes
  cases hscopes with
  | none => exact .none
  | some hab =>
      dsimp only
      rw [htaken hab]
      split
      · exact .none
      · exact .some hmodified

/-- A variable is declared in a scope and at its new place, or in neither. -/
theorem declareVariable? (h : Arena.Detour gap base arena arena') (s : Nat)
    (name : String) (value : Option Value) :
    Option.Rel (Arena.Detour gap base) (arena.declareVariable? s name value)
      (arena'.declareVariable? (shift gap s) name value) :=
  h.declare s (fun hab => congrArg Option.isSome (hab.getVariable?_eq (Name.fold name)))
    fun hab => hab.addVariable (Name.fold name) ⟨name, value⟩

/-- A function is declared in a scope and at its new place, or in neither. -/
theorem declareFunction? (h : Arena.Detour gap base arena arena') (s : Nat)
    (f : Callable) :
    Option.Rel (Arena.Detour gap base) (arena.declareFunction? s f)
      (arena'.declareFunction? (shift gap s) f) :=
  h.declare s
    (fun hab => congrArg Option.isSome (hab.getFunction?_eq (Name.fold f.signature.name)))
    fun hab => hab.addFunction (Name.fold f.signature.name) f

/-- A variable is assigned in both arenas or in neither. -/
theorem assign? (h : Arena.Detour gap base arena arena') (hst : Beside gap base s t)
    (name : String) (v : Value) :
    Option.Rel (Arena.Detour gap base) (arena.assign? s name v) (arena'.assign? t name v) := by
  have howner := h.owner? hst name
  unfold Arena.assign?
  generalize arena.owner? s name = i?, arena'.owner? t name = j? at howner
  cases howner with
  | none => exact .none
  | some hij =>
      subst hij
      exact .some (h.modify _ fun hab => hab.setVariable (Name.fold name) v)

/-- The next scope to be opened stands for the next one of the other side. -/
theorem shift_size (h : Arena.Detour gap base arena arena') :
    arena'.size = shift gap arena.size := by
  rw [shift_of_le h.gap_le, h.size_eq]

/-- New scopes under scopes that stand for each other. -/
theorem push (h : Arena.Detour gap base arena arena') (hst : Beside gap base s t)
    (hs : s < arena.size) :
    Arena.Detour gap base (arena.push (Scope.empty (some s)))
      (arena'.push (Scope.empty (some t))) where
  base_lt := h.base_lt
  gap_le := by
    rw [Array.size_push]
    exact Nat.le_succ_of_le h.gap_le
  size_eq := by rw [Array.size_push, Array.size_push, h.size_eq]
  empty := by
    rw [Array.getElem?_push, if_neg, h.empty]
    rw [h.shift_size]
    exact shift_ne_gap.symm
  scopes i := by
    have hsame : shift gap i = arena'.size ↔ i = arena.size := by
      rw [h.shift_size, shift_eq_shift_iff]
    rw [Array.getElem?_push, Array.getElem?_push]
    by_cases hi : i = arena.size
    · rw [if_pos hi, if_pos (hsame.mpr hi)]
      have ht := (h.lt_size_iff hst).mp hs
      refine .some ⟨rfl, rfl, .some ⟨hst, hi ▸ hs, ?_⟩⟩
      rwa [hsame.mpr hi]
    · rw [if_neg hi, if_neg (mt hsame.mp hi)]
      exact h.scopes i

end Arena.Detour

/-! ## Computations that declare nothing in their own scope -/

/-- The step declares a variable or a function. -/
def Step.Declares {α : Type} : Step α → Prop
  | .declareVariable _ _ _ _ => True
  | .declareFunction _ _ _ => True
  | _ => False

/-- The computation declares nothing but in scopes that it opens. -/
def Eval.Undeclaring {α : Type} : Eval α → Prop
  | .pure _ => True
  | .bind x f => x.Undeclaring ∧ ∀ a, (f a).Undeclaring
  | .fail _ => True
  | .starve => True
  | .step s => ¬ s.Declares
  | .inScope _ _ => True
  | .asCall _ body => body.Undeclaring

/-! ## The runs inside and outside -/

/-- The second machine has an empty scope more; lists, calls and what was printed are
equal. -/
structure Machine.Detour (gap base : Nat) (m m' : Machine) : Prop where
  arenas : Arena.Detour gap base m.scopes m'.scopes
  heap_eq : m.heap = m'.heap
  depth_eq : m.callDepth = m'.callDepth
  limit_eq : m.maxCallDepth = m'.maxCallDepth
  output_eq : m.output = m'.output

namespace Machine.Detour

variable {α : Type} {gap base s t : Nat} {m m' : Machine}

/-- The host scope stays where it is. -/
theorem shift_host (h : m.Detour gap base m') : Arena.shift gap Arena.host = Arena.host := by
  have hbase := h.arenas.base_lt
  exact Arena.shift_of_lt (Nat.zero_lt_of_lt hbase)

/-- The host scopes stand for each other. -/
theorem beside_host (h : m.Detour gap base m') : Arena.Beside gap base Arena.host Arena.host :=
  .inl h.shift_host.symm

/-- Steps on the scopes that both fail, or both succeed, end alike. -/
theorem endAlike_scopes (h : m.Detour gap base m') (fault : Fault)
    {scopes scopes' : Option Arena} :
    Option.Rel (Arena.Detour gap base) scopes scopes' →
    EndAlike (Machine.Detour gap base)
      (match scopes with
        | some scopes => (.done (), { m with scopes })
        | none => (.failed fault, m) : Outcome Fault Unit × Machine)
      (match scopes' with
        | some scopes => (.done (), { m' with scopes })
        | none => (.failed fault, m')) := by
  intro hscopes
  cases hscopes with
  | none => exact ⟨rfl, h⟩
  | some harenas => exact ⟨rfl, harenas, h.heap_eq, h.depth_eq, h.limit_eq, h.output_eq⟩

/-- **One step.**  Parallel steps in scopes that stand for each other end alike; only a
declaration must not be made in the empty scope. -/
theorem perform (h : m.Detour gap base m') (hst : Arena.Beside gap base s t) {a b : Step α}
    (hab : a.Parallel True s t b) (hdeclares : a.Declares → t = Arena.shift gap s) :
    EndAlike (Machine.Detour gap base) (a.perform m) (b.perform m') := by
  have hsize := h.arenas.lt_size_iff hst
  cases hab with
  | declareVariable name value position =>
      cases hdeclares trivial
      exact Step.inArena_endAlike hsize h position
        (h.endAlike_scopes _ (h.arenas.declareVariable? s name value))
  | declareHostVariable _ name value position =>
      have hdeclared := h.arenas.declareVariable? Arena.host name value
      rw [h.shift_host] at hdeclared
      exact Step.inArena_endAlike (h.arenas.lt_size_iff h.beside_host) h position
        (h.endAlike_scopes _ hdeclared)
  | declareFunction f _ position =>
      cases hdeclares trivial
      exact Step.inArena_endAlike hsize h position
        (h.endAlike_scopes _ (h.arenas.declareFunction? s f))
  | declareHostFunction _ f position =>
      have hdeclared := h.arenas.declareFunction? Arena.host f
      rw [h.shift_host] at hdeclared
      exact Step.inArena_endAlike (h.arenas.lt_size_iff h.beside_host) h position
        (h.endAlike_scopes _ hdeclared)
  | readVariable name position =>
      apply Step.inArena_endAlike hsize h
      rw [h.arenas.findVariable?_eq hst name]
      split <;> exact ⟨rfl, h⟩
  | assignVariable name value position =>
      exact Step.inArena_endAlike hsize h position
        (h.endAlike_scopes _ (h.arenas.assign? hst name value))
  | fillVariable name value position =>
      exact Step.inArena_endAlike hsize h position
        (h.endAlike_scopes _ (h.arenas.assign? hst name value))
  | findFunction name position =>
      apply Step.inArena_endAlike hsize h
      rw [h.arenas.findFunction?_eq hst name]
      split <;> exact ⟨rfl, h⟩
  | extraArguments position =>
      apply Step.inArena_endAlike hsize h
      rw [h.arenas.findVariable?_eq hst Name.variadic, h.heap_eq]
      split <;> exact ⟨rfl, h⟩
  | scopeless ha =>
      rw [Step.perform_heapOnly ha m, Step.perform_heapOnly ha m', h.heap_eq, h.output_eq]
      exact ⟨rfl, h.arenas, rfl, h.depth_eq, h.limit_eq, rfl⟩

/-- New scopes may be opened under scopes that stand for each other. -/
theorem pushScope (h : m.Detour gap base m') (hst : Arena.Beside gap base s t)
    (hs : s < m.scopes.size) : (m.pushScope s).Detour gap base (m'.pushScope t) :=
  ⟨h.arenas.push hst hs, h.heap_eq, h.depth_eq, h.limit_eq, h.output_eq⟩

/-- Taking away the scopes that were opened since a moment before. -/
theorem keepScopes (h : m.Detour gap base m') {after after' : Machine}
    (hafter : after.Detour gap base after')
    (hframe : (after.keepScopes m.scopes.size).frame = m.frame)
    (hframe' : (after'.keepScopes m'.scopes.size).frame = m'.frame) :
    (after.keepScopes m.scopes.size).Detour gap base (after'.keepScopes m'.scopes.size) where
  arenas := by
    have hgap := h.arenas.gap_le
    have hsize := h.arenas.size_eq
    refine ⟨h.arenas.base_lt, ?_, ?_, ?_, fun i => ?_⟩
    · rwa [Machine.size_eq_of_frame_eq hframe]
    · rwa [Machine.size_eq_of_frame_eq hframe, Machine.size_eq_of_frame_eq hframe']
    · rw [Machine.getElem?_keepScopes, if_pos (by omega)]
      exact hafter.arenas.empty
    · have hlt := h.arenas.lt_size_iff (.inl rfl : Arena.Beside gap base i _)
      rw [Machine.getElem?_keepScopes, Machine.getElem?_keepScopes]
      by_cases hi : i < m.scopes.size
      · rw [if_pos hi, if_pos (hlt.mp hi)]
        exact hafter.arenas.scopes i
      · rw [if_neg hi, if_neg (mt hlt.mpr hi)]
        exact .none
  heap_eq := hafter.heap_eq
  depth_eq := hafter.depth_eq
  limit_eq := hafter.limit_eq
  output_eq := hafter.output_eq

/-- A machine and the same one with a new scope. -/
theorem of_pushScope (hdown : m.scopes.Downward) (hs : s < m.scopes.size) :
    m.Detour m.scopes.size s (m.pushScope s) := by
  refine ⟨⟨hs, Nat.le_refl _, by simp [Machine.pushScope], ?_, fun i => ?_⟩, rfl, rfl, rfl, rfl⟩
  · rw [Machine.getElem?_pushScope, if_pos rfl]
  · by_cases hi : i < m.scopes.size
    · rw [Arena.shift_of_lt hi, Machine.getElem?_pushScope, if_neg (Nat.ne_of_lt hi)]
      cases hscope : m.scopes[i]? with
      | none => exact .none
      | some a =>
          refine .some ⟨rfl, rfl, ?_⟩
          cases hparent : a.parent with
          | none => exact .none
          | some p =>
              have hp : p < i := hdown (by simp [Arena.Parent, hscope, hparent])
              refine .some ⟨.inl ?_, hp, ?_⟩
              · rw [Arena.shift_of_lt (Nat.lt_trans hp hi)]
              · rwa [Arena.shift_of_lt hi]
    · have hle : m.scopes.size ≤ i := Nat.le_of_not_lt hi
      have hne : i + 1 ≠ m.scopes.size := by omega
      rw [Arena.shift_of_le hle, Machine.getElem?_pushScope, if_neg hne,
        Array.getElem?_eq_none hle, Array.getElem?_eq_none (Nat.le_succ_of_le hle)]
      exact .none

/-- Once the empty scope and all later ones are taken away, the machines are the same. -/
theorem keepScopes_eq (h : m.Detour gap base m')
    (hframe : (m'.keepScopes gap).frame = m.frame) : m'.keepScopes gap = m := by
  have hscopes : (m'.keepScopes gap).scopes = m.scopes := by
    apply Array.ext_getElem?
    intro i
    have hparents := Machine.parent_eq_of_frame_eq hframe i
    have hscope := h.arenas.scopes i
    rw [Machine.getElem?_keepScopes] at hparents ⊢
    by_cases hi : i < gap
    · rw [if_pos hi] at hparents ⊢
      rw [Arena.shift_of_lt hi] at hscope
      generalize m.scopes[i]? = a?, m'.scopes[i]? = b? at hscope hparents
      cases hscope with
      | none => rfl
      | @some a b hab =>
          obtain ⟨parent, vars, functions⟩ := a
          obtain ⟨parent', vars', functions'⟩ := b
          obtain ⟨hvars, hfunctions, -⟩ := hab
          simp_all
    · rw [if_neg hi] at hparents ⊢
      exact (Option.map_eq_none_iff.mp hparents.symm).symm
  show (⟨(m'.keepScopes gap).scopes, m'.heap, m'.callDepth, m'.maxCallDepth, m'.output⟩ : Machine)
    = m
  rw [hscopes, ← h.heap_eq, ← h.depth_eq, ← h.limit_eq, ← h.output_eq]

end Machine.Detour

/-- In all scopes but the empty one the two runs go in step. -/
theorem simulation_detour (gap base : Nat) :
    Simulation True fun s t m m' =>
      t = Arena.shift gap s ∧ s < m.scopes.size ∧ m.Detour gap base m' where
  step := by
    rintro s t m m' α a b ⟨hst, hs, h⟩ hab
    obtain ⟨houtcome, hafter⟩ := h.perform (.inl hst) hab fun _ => hst
    have hsize := Machine.size_eq_of_frame_eq (a.perform_frame m)
    exact ⟨houtcome, hst, hsize ▸ hs, hafter⟩
  found _ _ _ := trivial
  pushScope := by
    rintro s t m m' ⟨hst, hs, h⟩
    exact ⟨h.arenas.shift_size, by simp [Machine.pushScope], h.pushScope (.inl hst) hs⟩
  pushHost := by
    rintro - s t m m' ⟨-, hs, h⟩
    exact ⟨h.arenas.shift_size, by simp [Machine.pushScope],
      h.pushScope (.inl h.shift_host.symm) (Nat.zero_lt_of_lt hs)⟩
  keepScopes := by
    rintro s t i j m m' after after' ⟨hst, hs, h⟩ ⟨-, -, hafter⟩ hframe hframe'
    have hsize := Machine.size_eq_of_frame_eq hframe
    exact ⟨hst, by rwa [hsize], h.keepScopes hafter hframe hframe'⟩
  calls := by
    rintro s t m m' ⟨-, -, h⟩
    exact ⟨h.depth_eq, h.limit_eq⟩
  enterCall := by
    rintro s t m m' ⟨hst, hs, h⟩
    exact ⟨hst, hs, h.arenas, h.heap_eq, congrArg (· + 1) h.depth_eq, h.limit_eq, h.output_eq⟩
  leaveCall := by
    rintro s t m m' ⟨hst, hs, h⟩
    exact ⟨hst, hs, h.arenas, h.heap_eq, congrArg (· - 1) h.depth_eq, h.limit_eq, h.output_eq⟩

namespace Eval

variable {α : Type} {gap base s t : Nat} {m m' : Machine}

/-- Two computations in new scopes end alike, also if one of these is opened under the empty
scope. -/
theorem endAlike_inScope (h : m.Detour gap base m') {parent parent' : Nat}
    (hparents : Arena.Beside gap base parent parent') (hparent : parent < m.scopes.size)
    {f g : ScopeId → Eval α} (hfg : ∀ i j, (f i).Parallel True i j (g j)) :
    EndAlike (Machine.Detour gap base) ((inScope parent f).run m)
      ((inScope parent' g).run m') := by
  have hinner : m.scopes.size < (m.pushScope parent).scopes.size := by simp [Machine.pushScope]
  obtain ⟨houtcome, -, -, hafter⟩ := (simulation_detour gap base).run
    (hfg m.scopes.size m'.scopes.size)
    ⟨h.arenas.shift_size, hinner, h.pushScope hparents hparent⟩
  have hframe := run_frame (inScope parent f) m
  have hframe' := run_frame (inScope parent' g) m'
  exact ⟨houtcome, h.keepScopes hafter hframe hframe'⟩

/-- **In the empty scope, code that declares nothing there goes in step with the same code in
the scope outside.**  By induction on the computation, and what it runs in new scopes by
the simulation. -/
theorem Undeclaring.endAlike {x y : Eval α} (hx : x.Undeclaring) (hxy : x.Parallel True s t y)
    (hs : s = base) (ht : t = gap) (h : m.Detour gap base m') :
    EndAlike (Machine.Detour gap base) (x.run m) (y.run m') := by
  induction hxy generalizing m m' with
  | pure a => exact ⟨rfl, h⟩
  | fail fault => exact ⟨rfl, h⟩
  | starve => exact ⟨rfl, h⟩
  | step hab => exact h.perform (.inr ⟨hs, ht⟩) hab fun hdeclares => absurd hdeclares hx
  | bind hx' hf ihx ihf =>
      refine Simulation.run_bind (R := fun _ _ => Machine.Detour gap base) (s := s) (t := t)
        (ihx hx.1 hs ht h) ?_
      exact fun a n n' _ hn => ihf a (hx.2 a) hs ht hn
  | found name position hf ihf =>
      refine Simulation.run_bind (R := fun _ _ => Machine.Detour gap base) (s := s) (t := t)
        (h.perform (.inr ⟨hs, ht⟩) (.findFunction name position) fun hdeclares =>
          absurd hdeclares hx.1) ?_
      exact fun f n n' _ hn => ihf f (fun _ => trivial) (hx.2 f) hs ht hn
  | inScope hf _ =>
      have hbase : base < m.scopes.size := Nat.lt_of_lt_of_le h.arenas.base_lt h.arenas.gap_le
      exact endAlike_inScope h (.inr ⟨hs, ht⟩) (hs ▸ hbase) hf
  | inHost _ hf _ =>
      have hpos : 0 < m.scopes.size :=
        Nat.lt_of_lt_of_le (Nat.zero_lt_of_lt h.arenas.base_lt) h.arenas.gap_le
      exact endAlike_inScope h (.inl h.shift_host.symm) hpos hf
  | asCall position hx' ihx =>
      have hentered : m.enterCall.Detour gap base m'.enterCall :=
        ⟨h.arenas, h.heap_eq, congrArg (· + 1) h.depth_eq, h.limit_eq, h.output_eq⟩
      obtain ⟨houtcome, hafter⟩ := ihx hx hs ht hentered
      by_cases hdepth : m.callDepth < m.maxCallDepth
      · have hdepth' : m'.callDepth < m'.maxCallDepth := by rwa [← h.depth_eq, ← h.limit_eq]
        rw [run_asCall position _ hdepth, run_asCall position _ hdepth']
        exact ⟨houtcome, hafter.arenas, hafter.heap_eq, congrArg (· - 1) hafter.depth_eq,
          hafter.limit_eq, hafter.output_eq⟩
      · have hdepth' : ¬ m'.callDepth < m'.maxCallDepth := by rwa [← h.depth_eq, ← h.limit_eq]
        simp only [run, if_neg hdepth, if_neg hdepth']
        exact ⟨by rw [h.limit_eq], h⟩

/-- **An empty scope makes no difference.**  What declares nothing in its own scope does the
same in the scope outside. -/
theorem run_inScope_of_undeclaring {x : ScopeId → Eval α}
    (hx : (x s).Undeclaring) (hpar : ∀ t, (x s).Parallel True s t (x t))
    (hdown : m.scopes.Downward) (hs : s < m.scopes.size) :
    (inScope s x).run m = (x s).run m := by
  obtain ⟨houtcome, hafter⟩ :=
    hx.endAlike (hpar m.scopes.size) rfl rfl (Machine.Detour.of_pushScope hdown hs)
  have hframe : ((inScope s x).run m).2.frame = ((x s).run m).2.frame :=
    (run_frame _ m).trans (run_frame _ m).symm
  exact Prod.ext houtcome.symm (hafter.keepScopes_eq hframe)

/-! ## The evaluator -/

theorem undeclaring_ofOption (fault : Fault) (a? : Option α) : (ofOption fault a?).Undeclaring := by
  cases a? <;> trivial

theorem undeclaring_applyUnary (op : UnaryOp) (v : Value) (position : Option Position) :
    (applyUnary op v position).Undeclaring := by
  unfold applyUnary
  split <;> trivial

theorem undeclaring_expectBool (v : Value) (cause : Fault.Cause) (position : Option Position) :
    (expectBool v cause position).Undeclaring := by
  unfold expectBool
  split <;> trivial

theorem undeclaring_expectList (v : Value) (cause : Fault.Cause) (position : Option Position) :
    (expectList v cause position).Undeclaring := by
  unfold expectList
  split <;> trivial

/-- With `n` units of fuel, expressions declare nothing in the scope that they are evaluated
in, and of the statements only declarations do. -/
structure UndeclaringUpTo (n : Nat) : Prop where
  eval : ∀ scope e, (eval n scope e).Undeclaring
  evalAll : ∀ scope es, (evalAll n scope es).Undeclaring
  binary : ∀ scope op p left right, (binary n scope op p left right).Undeclaring
  holds : ∀ scope condition, (holds n scope condition).Undeclaring
  element : ∀ scope p name index, (element n scope p name index).Undeclaring
  call : ∀ scope name arguments position, (call n scope name arguments position).Undeclaring
  exec : ∀ scope s, ¬ s.IsDeclaration → (exec n scope s).Undeclaring
  execAll : ∀ scope ss, (∀ s ∈ ss, ¬ s.IsDeclaration) → (execAll n scope ss).Undeclaring
  whileRounds : ∀ scope condition body, ¬ body.IsDeclaration →
    (whileRounds n scope condition body).Undeclaring

namespace UndeclaringUpTo

variable {n : Nat} (ih : UndeclaringUpTo n)

include ih

/-- An expression declares nothing in its scope, if its parts do not. -/
theorem eval_succ (scope : ScopeId) (e : Expr) : (Eval.eval (n + 1) scope e).Undeclaring := by
  cases e with
  | literal p value => trivial
  | var p name => exact False.elim
  | element p name index => exact ⟨ih.element scope p name index, fun _ => False.elim⟩
  | unary p op operand =>
      exact ⟨ih.eval scope operand, fun v => undeclaring_applyUnary op v (some p)⟩
  | binary _ op p left right => exact ih.binary scope op p left right
  | assign _ p name value => exact ⟨ih.eval scope value, fun _ => ⟨False.elim, fun _ => trivial⟩⟩
  | assignElement _ p name index value =>
      exact ⟨ih.eval scope value, fun _ =>
        ⟨ih.element scope p name index, fun _ => ⟨False.elim, fun _ => trivial⟩⟩⟩
  | conditional _ condition thenBranch elseBranch =>
      refine ⟨ih.holds scope condition, fun truth => ?_⟩
      cases truth with
      | true => exact ih.eval scope thenBranch
      | false => exact ih.eval scope elseBranch
  | list p elements => exact ⟨ih.evalAll scope elements, fun _ => False.elim⟩
  | call p name arguments =>
      refine ⟨ih.call scope name arguments (some p), fun result => ?_⟩
      cases result <;> trivial

theorem evalAll_succ (scope : ScopeId) (es : List Expr) :
    (Eval.evalAll (n + 1) scope es).Undeclaring := by
  cases es with
  | nil => trivial
  | cons e es => exact ⟨ih.eval scope e, fun _ => ⟨ih.evalAll scope es, fun _ => trivial⟩⟩

theorem binary_succ (scope : ScopeId) (op : BinaryOp) (p : Position) (left right : Expr) :
    (Eval.binary (n + 1) scope op p left right).Undeclaring := by
  refine ⟨ih.eval scope left, fun a => ?_⟩
  dsimp only
  split
  · exact ⟨ih.eval scope right, fun _ => False.elim⟩
  · refine ⟨undeclaring_expectBool a _ _, fun truth => ?_⟩
    dsimp only
    split
    · trivial
    · exact ⟨ih.eval scope right, fun b => ⟨undeclaring_expectBool b _ _, fun _ => trivial⟩⟩

theorem holds_succ (scope : ScopeId) (condition : Expr) :
    (Eval.holds (n + 1) scope condition).Undeclaring :=
  ⟨ih.eval scope condition, fun v => undeclaring_expectBool v _ _⟩

theorem element_succ (scope : ScopeId) (p : Position) (name : String) (index : Expr) :
    (Eval.element (n + 1) scope p name index).Undeclaring := by
  refine ⟨False.elim, fun v => ⟨undeclaring_expectList v _ _, fun id =>
    ⟨ih.eval scope index, fun i => ?_⟩⟩⟩
  cases i with
  | int i => exact ⟨False.elim, fun _ => ⟨undeclaring_ofOption _ _, fun _ => trivial⟩⟩
  | _ => trivial

/-- A call declares in the activation scope only, which it opens. -/
theorem call_succ (scope : ScopeId) (name : String) (arguments : List Expr)
    (position : Option Position) :
    (Eval.call (n + 1) scope name arguments position).Undeclaring := by
  refine ⟨False.elim, fun f => ?_⟩
  dsimp only
  split
  · exact ⟨ih.evalAll scope arguments, fun _ => trivial⟩
  · trivial

/-- A statement that is no declaration declares only in scopes that it opens. -/
theorem exec_succ (scope : ScopeId) (s : Statement) (hs : ¬ s.IsDeclaration) :
    (Eval.exec (n + 1) scope s).Undeclaring := by
  cases s with
  | declare p name value => exact absurd trivial hs
  | evaluate _ e =>
      cases e with
      | call p name arguments => exact ⟨ih.call scope name arguments (some p), fun _ => trivial⟩
      | _ => exact ⟨ih.eval scope _, fun _ => trivial⟩
  | forEach p item collection body =>
      exact ⟨ih.eval scope collection, fun v => ⟨undeclaring_expectList v _ _, fun _ => trivial⟩⟩
  | returns p value =>
      cases value with
      | none => trivial
      | some e => exact ⟨ih.eval scope e, fun _ => trivial⟩
  | _ => trivial

/-- Statements none of which is a declaration declare only in scopes that they open. -/
theorem execAll_succ (scope : ScopeId) (ss : List Statement)
    (hss : ∀ s ∈ ss, ¬ s.IsDeclaration) : (Eval.execAll (n + 1) scope ss).Undeclaring := by
  cases ss with
  | nil => trivial
  | cons s rest =>
      refine ⟨ih.exec scope s (hss s List.mem_cons_self), fun flow => ?_⟩
      cases flow with
      | normal => exact ih.execAll scope rest fun s hs => hss s (List.mem_cons_of_mem _ hs)
      | _ => trivial

/-- The rounds of a loop declare nothing in its scope if the body is no declaration. -/
theorem whileRounds_succ (scope : ScopeId) (condition : Expr) (body : Statement)
    (hbody : ¬ body.IsDeclaration) :
    (Eval.whileRounds (n + 1) scope condition body).Undeclaring := by
  refine ⟨ih.holds scope condition, fun truth => ?_⟩
  cases truth with
  | true =>
      refine ⟨ih.exec scope body hbody, fun flow => ?_⟩
      dsimp only
      split
      · trivial
      · exact ih.whileRounds scope condition body hbody
  | false => trivial

end UndeclaringUpTo

/-- **Only declarations declare anything in the scope that they are executed in.** -/
theorem undeclaringUpTo (n : Nat) : UndeclaringUpTo n := by
  induction n with
  | zero => constructor <;> intros <;> trivial
  | succ n ih =>
      exact ⟨ih.eval_succ, ih.evalAll_succ, ih.binary_succ, ih.holds_succ, ih.element_succ,
        ih.call_succ, ih.exec_succ, ih.execAll_succ, ih.whileRounds_succ⟩

end Eval

end Scriptlet
