import Scriptlet.Proofs.Parallel
import Scriptlet.Session

/-!
# Scripts do not see where they are called from

A function of the host can run a script in the middle of another one.  The scopes of
the outer script are then in the arena, but the new script gets its scope under the
host scope, and no way outward from there leads to them.  Nothing is asked of the functions of
the host but that they are local (`HostCode.Local`).

To show this, a run is put beside one on a second machine, which has the same host
scope and the same lists and any other scopes besides.  Scopes that the runs open at
the same time stand at different places; they are **twins**, as are the two host
scopes.  Twins declare the same and have twins for parents, so that names mean the same
in them.  All other scopes stay as they are, and since no parent is one of them, it
does not matter what they are.
-/

namespace Scriptlet

/-- The scopes stand for each other in two runs that begin with the arenas `old` and
`old'`: they are the host scopes, or were opened at the same time. -/
def Twin (old old' : Arena) (s t : Nat) : Prop :=
  (s = Arena.host ∧ t = Arena.host) ∨ ∃ opened, s = old.size + opened ∧ t = old'.size + opened

/-- The scopes declare the same, and their parents are earlier twins. -/
structure Scope.Alike (old old' : Arena) (s t : Nat) (a b : Scope) : Prop where
  vars_eq : a.vars = b.vars
  functions_eq : a.functions = b.functions
  parents : Option.Rel (fun s' t' => Twin old old' s' t' ∧ s' < s ∧ t' < t) a.parent b.parent

/-- Twins of the two arenas are alike, and equally many have been opened; the old scopes
above the host scope are what they were. -/
structure Arena.Alike (old old' arena arena' : Arena) : Prop where
  pos : 0 < old.size ∧ 0 < old'.size
  sizes : ∃ opened, arena.size = old.size + opened ∧ arena'.size = old'.size + opened
  scopes : ∀ {s t : Nat}, Twin old old' s t →
    Option.Rel (Scope.Alike old old' s t) arena[s]? arena'[t]?
  outer : ∀ i, 0 < i → i < old.size → arena[i]? = old[i]?
  outer' : ∀ i, 0 < i → i < old'.size → arena'[i]? = old'[i]?

namespace Twin

variable {old old' : Arena} {s t i j : Nat}

/-- The host scopes are twins. -/
theorem host : Twin old old' Arena.host Arena.host :=
  .inl ⟨rfl, rfl⟩

/-- Two twins are the same scope in one run if they are in the other. -/
theorem eq_iff (h : Twin old old' s t) (h' : Twin old old' i j) (hpos : 0 < old.size)
    (hpos' : 0 < old'.size) : s = i ↔ t = j := by
  simp only [Twin, Arena.host] at h h'
  rcases h with ⟨rfl, rfl⟩ | ⟨k, rfl, rfl⟩ <;> rcases h' with ⟨rfl, rfl⟩ | ⟨k', rfl, rfl⟩ <;> omega

/-- No old scope above the host scope has a twin. -/
theorem ne_outer (h : Twin old old' s t) :
    (∀ i, 0 < i → i < old.size → s ≠ i) ∧ ∀ i, 0 < i → i < old'.size → t ≠ i := by
  simp only [Twin, Arena.host] at h
  rcases h with ⟨rfl, rfl⟩ | ⟨k, rfl, rfl⟩ <;> exact ⟨by omega, by omega⟩

end Twin

namespace Arena.Alike

variable {α β : Type} {old old' arena arena' : Arena} {s t : Nat}

/-- A scope is there if its twin is. -/
theorem lt_size_iff (h : Arena.Alike old old' arena arena') (hst : Twin old old' s t) :
    s < arena.size ↔ t < arena'.size := by
  have hscopes := h.scopes hst
  have hs : s < arena.size ↔ arena[s]?.isSome := by simp
  have ht : t < arena'.size ↔ arena'[t]?.isSome := by simp
  rw [hs, ht]
  generalize arena[s]? = a?, arena'[t]? = b? at hscopes
  cases hscopes <;> simp

/-- The host scopes are equal: they declare the same and have no parents. -/
theorem host_eq (h : Arena.Alike old old' arena arena') :
    arena[Arena.host]? = arena'[Arena.host]? := by
  have hscopes := h.scopes .host
  generalize arena[Arena.host]? = a?, arena'[Arena.host]? = b? at hscopes
  cases hscopes with
  | none => rfl
  | @some a b halike =>
      obtain ⟨parent, vars, functions⟩ := a
      obtain ⟨parent', vars', functions'⟩ := b
      obtain ⟨hvars, hfunctions, hparents⟩ := halike
      cases hvars
      cases hfunctions
      cases hparents with
      | none => rfl
      -- a parent would stand before the host scope
      | some hbefore => exact absurd hbefore.2.1 (Nat.not_lt_zero _)

/-- **Searches outward from twins go in step.**  The induction is on the steps of the
first search; both have enough, since parents come before their children. -/
theorem findOutward (h : Arena.Alike old old' arena arena') {ρ : α → β → Prop}
    {pick : ScopeId → Scope → Option α} {pick' : ScopeId → Scope → Option β}
    (hpick : ∀ {s t a b}, Twin old old' s t → Scope.Alike old old' s t a b →
      Option.Rel ρ (pick s a) (pick' t b))
    {steps steps' : Nat} (hst : Twin old old' s t) (hs : s < steps) (ht : t < steps') :
    Option.Rel ρ (arena.findOutward pick steps s) (arena'.findOutward pick' steps' t) := by
  induction steps generalizing s t steps' with
  | zero => exact absurd hs (Nat.not_lt_zero s)
  | succ steps ih =>
      obtain ⟨steps', rfl⟩ : ∃ k, steps' = k + 1 := ⟨steps' - 1, by omega⟩
      have hscopes := h.scopes hst
      simp only [Arena.findOutward]
      generalize arena[s]? = a?, arena'[t]? = b? at hscopes
      cases hscopes with
      | none => exact .none
      | @some a b halike =>
          have hpicked := hpick hst halike
          have hparents := halike.parents
          dsimp only
          generalize pick s a = x?, pick' t b = y? at hpicked
          generalize a.parent = s?, b.parent = t? at hparents
          cases hpicked with
          | some hxy => exact .some hxy
          | none =>
              cases hparents with
              | none => exact .none
              | some hbefore =>
                  obtain ⟨hst', hs', ht'⟩ := hbefore
                  exact ih hst' (Nat.lt_of_lt_of_le hs' (Nat.le_of_lt_succ hs))
                    (Nat.lt_of_lt_of_le ht' (Nat.le_of_lt_succ ht))

/-- The same change to twins, of what they declare, keeps arenas alike. -/
theorem modify (h : Arena.Alike old old' arena arena') (hst : Twin old old' s t) {f : Scope → Scope}
    (hf : ∀ {i j a b}, Scope.Alike old old' i j a b → Scope.Alike old old' i j (f a) (f b)) :
    Arena.Alike old old' (arena.modify s f) (arena'.modify t f) where
  pos := h.pos
  sizes := by simpa using h.sizes
  scopes {i j} hij := by
    have hscopes := h.scopes hij
    have hsame := hst.eq_iff hij h.pos.1 h.pos.2
    rw [Array.getElem?_modify, Array.getElem?_modify]
    generalize arena[i]? = a?, arena'[j]? = b? at hscopes
    by_cases hi : s = i
    · rw [if_pos hi, if_pos (hsame.mp hi)]
      cases hscopes with
      | none => exact .none
      | some halike => exact .some (hf halike)
    · rw [if_neg hi, if_neg fun hj => hi (hsame.mpr hj)]
      exact hscopes
  outer i hpos hi := by
    rw [Array.getElem?_modify, if_neg (hst.ne_outer.1 i hpos hi)]
    exact h.outer i hpos hi
  outer' i hpos hi := by
    rw [Array.getElem?_modify, if_neg (hst.ne_outer.2 i hpos hi)]
    exact h.outer' i hpos hi

/-- The scopes that are opened next are twins. -/
theorem twin_size (h : Arena.Alike old old' arena arena') : Twin old old' arena.size arena'.size :=
  .inr h.sizes

/-- New scopes under twins keep arenas alike. -/
theorem push (h : Arena.Alike old old' arena arena') (hst : Twin old old' s t)
    (hs : s < arena.size) :
    Arena.Alike old old' (arena.push (Scope.empty (some s)))
      (arena'.push (Scope.empty (some t))) where
  pos := h.pos
  sizes := by
    obtain ⟨opened, hsize, hsize'⟩ := h.sizes
    exact ⟨opened + 1, by simp [hsize, Nat.add_assoc], by simp [hsize', Nat.add_assoc]⟩
  scopes {i j} hij := by
    have hscopes := h.scopes hij
    have ht := (h.lt_size_iff hst).mp hs
    have hsame := hij.eq_iff h.twin_size h.pos.1 h.pos.2
    rw [Array.getElem?_push, Array.getElem?_push]
    by_cases hi : i = arena.size
    · have hj := hsame.mp hi
      rw [if_pos hi, if_pos hj, hi, hj]
      exact .some ⟨rfl, rfl, .some ⟨hst, hs, ht⟩⟩
    · rw [if_neg hi, if_neg fun hj => hi (hsame.mpr hj)]
      exact hscopes
  outer i hpos hi := by
    rw [Array.getElem?_push, if_neg (h.twin_size.ne_outer.1 i hpos hi).symm]
    exact h.outer i hpos hi
  outer' i hpos hi := by
    rw [Array.getElem?_push, if_neg (h.twin_size.ne_outer.2 i hpos hi).symm]
    exact h.outer' i hpos hi

end Arena.Alike

namespace Scope.Alike

variable {old old' : Arena} {s t : Nat} {a b : Scope}

/-- The same variable may be added to twins. -/
theorem addVariable (h : Scope.Alike old old' s t a b) (key : String) (v : Variable) :
    Scope.Alike old old' s t (a.addVariable key v) (b.addVariable key v) :=
  ⟨congrArg (List.cons (key, v)) h.vars_eq, h.functions_eq, h.parents⟩

/-- The same function may be added to twins. -/
theorem addFunction (h : Scope.Alike old old' s t a b) (key : String) (f : Callable) :
    Scope.Alike old old' s t (a.addFunction key f) (b.addFunction key f) :=
  ⟨h.vars_eq, congrArg (List.cons (key, f)) h.functions_eq, h.parents⟩

/-- The same variable may be set in twins. -/
theorem setVariable (h : Scope.Alike old old' s t a b) (key : String) (v : Value) :
    Scope.Alike old old' s t (a.setVariable key v) (b.setVariable key v) :=
  ⟨congrArg (List.map _) h.vars_eq, h.functions_eq, h.parents⟩

/-- Twins have the same variables. -/
theorem getVariable?_eq (h : Scope.Alike old old' s t a b) (key : String) :
    a.getVariable? key = b.getVariable? key :=
  congrArg (List.lookup key) h.vars_eq

/-- Twins have the same functions. -/
theorem getFunction?_eq (h : Scope.Alike old old' s t a b) (key : String) :
    a.getFunction? key = b.getFunction? key :=
  congrArg (List.lookup key) h.functions_eq

end Scope.Alike

namespace Arena.Alike

variable {α : Type} {old old' arena arena' : Arena} {s t : Nat}

/-- An answer that twins give alike is found alike. -/
theorem findOutward_eq (h : Arena.Alike old old' arena arena') (hst : Twin old old' s t)
    {pick : Scope → Option α}
    (hpick : ∀ {i j a b}, Scope.Alike old old' i j a b → pick a = pick b) :
    arena.findOutward (fun _ => pick) (s + 1) s = arena'.findOutward (fun _ => pick) (t + 1) t := by
  have hfound : Option.Rel Eq (arena.findOutward (fun _ => pick) (s + 1) s)
      (arena'.findOutward (fun _ => pick) (t + 1) t) := by
    refine h.findOutward ?_ hst (Nat.lt_succ_self s) (Nat.lt_succ_self t)
    intro i j a b _ halike
    rw [hpick halike]
    cases pick b with
    | none => exact .none
    | some x => exact .some rfl
  generalize arena.findOutward _ (s + 1) s = x?, arena'.findOutward _ (t + 1) t = y? at hfound
  cases hfound with
  | none => rfl
  | some hxy => rw [hxy]

/-- In twins a name means the same variable. -/
theorem findVariable?_eq (h : Arena.Alike old old' arena arena') (hst : Twin old old' s t)
    (name : String) :
    arena.findVariable? s name = arena'.findVariable? t name :=
  h.findOutward_eq hst fun halike => halike.getVariable?_eq (Name.fold name)

/-- In twins a name means the same function. -/
theorem findFunction?_eq (h : Arena.Alike old old' arena arena') (hst : Twin old old' s t)
    (name : String) :
    arena.findFunction? s name = arena'.findFunction? t name :=
  h.findOutward_eq hst fun halike => halike.getFunction?_eq (Name.fold name)

/-- Twins declare the variable that a name means in twins. -/
theorem owner? (h : Arena.Alike old old' arena arena') (hst : Twin old old' s t) (name : String) :
    Option.Rel (Twin old old') (arena.owner? s name) (arena'.owner? t name) := by
  refine h.findOutward ?_ hst (Nat.lt_succ_self s) (Nat.lt_succ_self t)
  intro i j a b hij halike
  rw [halike.getVariable?_eq]
  split
  · exact .some hij
  · exact .none

/-- A declaration in twins, of a variable or of a function, fails in both or keeps them
alike. -/
theorem declare (h : Arena.Alike old old' arena arena') (hst : Twin old old' s t)
    {taken : Scope → Bool} {add : Scope → Scope}
    (htaken : ∀ {i j a b}, Scope.Alike old old' i j a b → taken a = taken b)
    (hadd : ∀ {i j a b}, Scope.Alike old old' i j a b → Scope.Alike old old' i j (add a) (add b)) :
    Option.Rel (Arena.Alike old old')
      (match arena[s]? with
        | none => none
        | some a => if taken a then none else some (arena.modify s add))
      (match arena'[t]? with
        | none => none
        | some b => if taken b then none else some (arena'.modify t add)) := by
  have hscopes := h.scopes hst
  have hmodified := h.modify hst hadd
  generalize arena[s]? = a?, arena'[t]? = b? at hscopes
  cases hscopes with
  | none => exact .none
  | some halike =>
      dsimp only
      rw [htaken halike]
      split
      · exact .none
      · exact .some hmodified

/-- A variable is declared in both twins or in neither. -/
theorem declareVariable? (h : Arena.Alike old old' arena arena') (hst : Twin old old' s t)
    (name : String) (value : Option Value) :
    Option.Rel (Arena.Alike old old') (arena.declareVariable? s name value)
      (arena'.declareVariable? t name value) :=
  h.declare hst (fun halike => congrArg Option.isSome (halike.getVariable?_eq (Name.fold name)))
    fun halike => halike.addVariable (Name.fold name) ⟨name, value⟩

/-- A function is declared in both twins or in neither. -/
theorem declareFunction? (h : Arena.Alike old old' arena arena') (hst : Twin old old' s t)
    (f : Callable) :
    Option.Rel (Arena.Alike old old') (arena.declareFunction? s f)
      (arena'.declareFunction? t f) :=
  h.declare hst
    (fun halike => congrArg Option.isSome (halike.getFunction?_eq (Name.fold f.signature.name)))
    fun halike => halike.addFunction (Name.fold f.signature.name) f

/-- A variable is assigned from both twins, in twins, or from neither. -/
theorem assign? (h : Arena.Alike old old' arena arena') (hst : Twin old old' s t) (name : String)
    (v : Value) :
    Option.Rel (Arena.Alike old old') (arena.assign? s name v) (arena'.assign? t name v) := by
  have howner := h.owner? hst name
  unfold Arena.assign?
  generalize arena.owner? s name = i?, arena'.owner? t name = j? at howner
  cases howner with
  | none => exact .none
  | some hij => exact .some (h.modify hij fun halike => halike.setVariable (Name.fold name) v)

end Arena.Alike

/-- Two runs that began on `old` and `old'` see the same: their arenas are alike, and
lists, calls and what was printed since are equal. -/
structure Isolated (old old' m m' : Machine) : Prop where
  arenas : Arena.Alike old.scopes old'.scopes m.scopes m'.scopes
  heap_eq : m.heap = m'.heap
  depth_eq : m.callDepth = m'.callDepth
  limit_eq : m.maxCallDepth = m'.maxCallDepth
  output : ∃ lines, m.output = old.output ++ lines ∧ m'.output = old'.output ++ lines

namespace Isolated

variable {α : Type} {old old' m m' : Machine} {s t : ScopeId}

/-- Steps on the scopes that both fail, or both lead to arenas that are alike, end alike. -/
theorem endAlike_scopes (h : Isolated old old' m m') (fault : Fault)
    {scopes scopes' : Option Arena} :
    Option.Rel (Arena.Alike old.scopes old'.scopes) scopes scopes' →
    EndAlike (Isolated old old')
      (match scopes with
        | some scopes => (.done (), { m with scopes })
        | none => (.failed fault, m) : Outcome Fault Unit × Machine)
      (match scopes' with
        | some scopes => (.done (), { m' with scopes })
        | none => (.failed fault, m')) := by
  intro hscopes
  cases hscopes with
  | none => exact ⟨rfl, h⟩
  | some harenas => exact ⟨rfl, harenas, h.heap_eq, h.depth_eq, h.limit_eq, h.output⟩

/-- **One step.**  In twins parallel steps give the same and go on seeing the same. -/
theorem perform (h : Isolated old old' m m') (hst : Twin old.scopes old'.scopes s t)
    {a b : Step α} (hab : a.Parallel True s t b) :
    EndAlike (Isolated old old') (a.perform m) (b.perform m') := by
  have hsize := h.arenas.lt_size_iff hst
  cases hab with
  | declareVariable name value position =>
      exact Step.inArena_endAlike hsize h position
        (h.endAlike_scopes _ (h.arenas.declareVariable? hst name value))
  | declareHostVariable _ name value position =>
      exact Step.inArena_endAlike (h.arenas.lt_size_iff .host) h position
        (h.endAlike_scopes _ (h.arenas.declareVariable? .host name value))
  | declareFunction f _ position =>
      exact Step.inArena_endAlike hsize h position
        (h.endAlike_scopes _ (h.arenas.declareFunction? hst f))
  | declareHostFunction _ f position =>
      exact Step.inArena_endAlike (h.arenas.lt_size_iff .host) h position
        (h.endAlike_scopes _ (h.arenas.declareFunction? .host f))
  | readVariable name position =>
      apply Step.inArena_endAlike hsize h
      rw [h.arenas.findVariable?_eq hst name]
      split <;> exact ⟨rfl, h⟩
  | assignVariable name value position =>
      exact Step.inArena_endAlike hsize h position
        (h.endAlike_scopes _ (h.arenas.assign? hst name value))
  | fillVariable name value position =>
      exact Step.inArena_endAlike hsize h position
        (h.endAlike_scopes _ (h.arenas.assign? hst name value))
  | findFunction name position =>
      apply Step.inArena_endAlike hsize h
      rw [h.arenas.findFunction?_eq hst name]
      split <;> exact ⟨rfl, h⟩
  | extraArguments position =>
      apply Step.inArena_endAlike hsize h
      rw [h.arenas.findVariable?_eq hst Name.variadic, h.heap_eq]
      split <;> exact ⟨rfl, h⟩
  | scopeless ha =>
      obtain ⟨lines, houtput, houtput'⟩ := h.output
      rw [Step.perform_heapOnly ha m, Step.perform_heapOnly ha m', h.heap_eq]
      refine ⟨rfl, h.arenas, rfl, h.depth_eq, h.limit_eq, ?_⟩
      exact ⟨lines ++ _, by rw [houtput, Array.append_assoc], by rw [houtput', Array.append_assoc]⟩

/-- New scopes under twins are twins, and see the same. -/
theorem pushScope (h : Isolated old old' m m') (hst : Twin old.scopes old'.scopes s t)
    (hs : s < m.scopes.size) : Isolated old old' (m.pushScope s) (m'.pushScope t) :=
  ⟨h.arenas.push hst hs, h.heap_eq, h.depth_eq, h.limit_eq, h.output⟩

/-- Taking away the scopes that were opened since a moment before. -/
theorem keepScopes (h : Isolated old old' m m') {after after' : Machine}
    (hafter : Isolated old old' after after')
    (hframe : (after.keepScopes m.scopes.size).frame = m.frame)
    (hframe' : (after'.keepScopes m'.scopes.size).frame = m'.frame) :
    Isolated old old' (after.keepScopes m.scopes.size) (after'.keepScopes m'.scopes.size) where
  arenas := by
    obtain ⟨opened, hsize, hsize'⟩ := h.arenas.sizes
    refine ⟨h.arenas.pos, ?_, ?_, ?_, ?_⟩
    · rw [Machine.size_eq_of_frame_eq hframe, Machine.size_eq_of_frame_eq hframe']
      exact h.arenas.sizes
    · intro i j hij
      have hlt := h.arenas.lt_size_iff hij
      rw [Machine.getElem?_keepScopes, Machine.getElem?_keepScopes]
      by_cases hi : i < m.scopes.size
      · rw [if_pos hi, if_pos (hlt.mp hi)]
        exact hafter.arenas.scopes hij
      · rw [if_neg hi, if_neg fun hj => hi (hlt.mpr hj)]
        exact .none
    · intro i hpos hi
      rw [Machine.getElem?_keepScopes, if_pos (by omega)]
      exact hafter.arenas.outer i hpos hi
    · intro i hpos hi
      rw [Machine.getElem?_keepScopes, if_pos (by omega)]
      exact hafter.arenas.outer' i hpos hi
  heap_eq := hafter.heap_eq
  depth_eq := hafter.depth_eq
  limit_eq := hafter.limit_eq
  output := hafter.output

end Isolated

/-- What two runs in twins see stays the same. -/
theorem simulation_isolated (old old' : Machine) :
    Simulation True fun s t m m' =>
      Twin old.scopes old'.scopes s t ∧ s < m.scopes.size ∧ Isolated old old' m m' where
  step := by
    rintro s t m m' α a b ⟨hst, hs, h⟩ hab
    obtain ⟨houtcome, hafter⟩ := h.perform hst hab
    have hsize := Machine.size_eq_of_frame_eq (a.perform_frame m)
    exact ⟨houtcome, hst, hsize ▸ hs, hafter⟩
  found _ _ _ := trivial
  pushScope := by
    rintro s t m m' ⟨hst, hs, h⟩
    exact ⟨h.arenas.twin_size, by simp [Machine.pushScope], h.pushScope hst hs⟩
  pushHost := by
    rintro _ s t m m' ⟨_, hs, h⟩
    have hhost : Arena.host < m.scopes.size := Nat.lt_of_le_of_lt (Nat.zero_le s) hs
    exact ⟨h.arenas.twin_size, by simp [Machine.pushScope], h.pushScope .host hhost⟩
  keepScopes := by
    rintro s t i j m m' after after' ⟨hst, hs, h⟩ ⟨_, _, hafter⟩ hframe hframe'
    have hs' : s < (after.keepScopes m.scopes.size).scopes.size := by
      rw [Machine.size_eq_of_frame_eq hframe]
      exact hs
    exact ⟨hst, hs', h.keepScopes hafter hframe hframe'⟩
  calls := by
    rintro s t m m' ⟨_, _, h⟩
    exact ⟨h.depth_eq, h.limit_eq⟩
  enterCall := by
    rintro s t m m' ⟨hst, hs, h⟩
    exact ⟨hst, hs, h.arenas, h.heap_eq, congrArg (· + 1) h.depth_eq, h.limit_eq, h.output⟩
  leaveCall := by
    rintro s t m m' ⟨hst, hs, h⟩
    exact ⟨hst, hs, h.arenas, h.heap_eq, congrArg (· - 1) h.depth_eq, h.limit_eq, h.output⟩

/-- Arenas of one size that have the same scopes between the host scope and the end have
the same scopes above the host scope. -/
theorem Arena.eq_above_host {arena old : Arena} (hsize : arena.size = old.size)
    (houter : ∀ i, 0 < i → i < old.size → arena[i]? = old[i]?) (i : ScopeId)
    (hi : Arena.host < i) : arena[i]? = old[i]? := by
  by_cases hlt : i < old.size
  · exact houter i hi hlt
  · have hlt' : ¬ i < arena.size := hsize ▸ hlt
    rw [Array.getElem?_eq_none (Nat.le_of_not_lt hlt'),
      Array.getElem?_eq_none (Nat.le_of_not_lt hlt)]

/-- Machines that agree on host scope, lists and calls see the same at first. -/
theorem isolated_of_agree {m m' : Machine}
    (hhost : m.scopes[Arena.host]? = m'.scopes[Arena.host]?)
    (hparent : m.scopes[Arena.host]?.map Scope.parent = some none) (hheap : m.heap = m'.heap)
    (hdepth : m.callDepth = m'.callDepth) (hlimit : m.maxCallDepth = m'.maxCallDepth) :
    Isolated m m' m m' where
  arenas := by
    obtain ⟨host, hsome, hnone⟩ := Option.map_eq_some_iff.mp hparent
    have hsome' : m'.scopes[Arena.host]? = some host := hhost ▸ hsome
    have hpos := (Array.getElem?_eq_some_iff.mp hsome).1
    have hpos' := (Array.getElem?_eq_some_iff.mp hsome').1
    refine ⟨⟨hpos, hpos'⟩, ⟨0, rfl, rfl⟩, ?_, fun _ _ _ => rfl, fun _ _ _ => rfl⟩
    rintro s t (⟨rfl, rfl⟩ | ⟨opened, rfl, rfl⟩)
    · rw [hsome, hsome']
      refine .some ⟨rfl, rfl, ?_⟩
      rw [hnone]
      exact .none
    · rw [Array.getElem?_eq_none (Nat.le_add_right _ _),
        Array.getElem?_eq_none (Nat.le_add_right _ _)]
      exact .none
  heap_eq := hheap
  depth_eq := hdepth
  limit_eq := hlimit
  output := ⟨#[], by simp, by simp⟩

/-- **Scripts run apart from the scopes around them.**  Take two machines that agree on the
host scope, the lists, the calls in progress and their limit, and have any other scopes; the
host may be any that is local, as the stock host is (`HostCode.stock_local`).
A script ends on both in the same way, makes the same of the host scope and of the lists,
prints the same lines, and leaves every scope above the host scope as it was. -/
theorem Script.isolated_from_outer_scopes [HostCode] [HostCode.Local] {m m' : Machine}
    (hhost : m.scopes[Arena.host]? = m'.scopes[Arena.host]?)
    (hparent : m.scopes[Arena.host]?.map Scope.parent = some none) (hheap : m.heap = m'.heap)
    (hdepth : m.callDepth = m'.callDepth) (hlimit : m.maxCallDepth = m'.maxCallDepth)
    (script : Script) (fuel : Nat) :
    ((Eval.execute fuel script).run m).1 = ((Eval.execute fuel script).run m').1 ∧
    ((Eval.execute fuel script).run m).2.scopes[Arena.host]? =
      ((Eval.execute fuel script).run m').2.scopes[Arena.host]? ∧
    ((Eval.execute fuel script).run m).2.heap = ((Eval.execute fuel script).run m').2.heap ∧
    (∀ i, Arena.host < i → ((Eval.execute fuel script).run m).2.scopes[i]? = m.scopes[i]?) ∧
    (∀ i, Arena.host < i → ((Eval.execute fuel script).run m').2.scopes[i]? = m'.scopes[i]?) ∧
    ∃ lines, ((Eval.execute fuel script).run m).2.output = m.output ++ lines ∧
      ((Eval.execute fuel script).run m').2.output = m'.output ++ lines := by
  have hstart := isolated_of_agree hhost hparent hheap hdepth hlimit
  have hparallel := (Eval.parallelUpTo True fuel).execute trivial Arena.host Arena.host script
  obtain ⟨houtcome, _, _, hend⟩ := (simulation_isolated m m').run hparallel
    ⟨.host, hstart.arenas.pos.1, hstart⟩
  have hsize := Machine.size_eq_of_frame_eq (Eval.run_frame (Eval.execute fuel script) m)
  have hsize' := Machine.size_eq_of_frame_eq (Eval.run_frame (Eval.execute fuel script) m')
  exact ⟨houtcome, hend.arenas.host_eq, hend.heap_eq, Arena.eq_above_host hsize hend.arenas.outer,
    Arena.eq_above_host hsize' hend.arenas.outer', hend.output⟩

/-- A machine whose host has a variable `x`, with no script running. -/
def Machine.atRest : Machine :=
  (Session.defineVariable "x" (.int 5) (Machine.initial 8)).2

/-- The same machine in the middle of a script that has a variable `x` of its own. -/
def Machine.amidScript : Machine :=
  (Eval.declareVariable 1 "x" (some (.int 7)) none (atRest.pushScope Arena.host)).2

/-- A script that counts a variable up: `x = x + 1; return x;`. -/
def Script.countUp : Script :=
  ⟨"main",
    [.ofExpr (.assign ⟨"main", 1, 1⟩ ⟨"main", 1, 1⟩ "x"
        (.binary ⟨"main", 1, 5⟩ .add ⟨"main", 1, 7⟩ (.var ⟨"main", 1, 5⟩ "x")
          (.literal ⟨"main", 1, 9⟩ (.int 1)))),
      .returns ⟨"main", 1, 12⟩ (some (.var ⟨"main", 1, 19⟩ "x"))],
    []⟩

/-- Run from inside the other script, it counts up the variable of the host as it would by
itself, and the other script finds its own as it was. -/
theorem Script.isolated_from_outer_scopes_amidScript :
    ((Eval.execute 20 countUp).run Machine.amidScript).1 = .done (some (.int 6)) ∧
    ((Eval.execute 20 countUp).run Machine.amidScript).1 =
      ((Eval.execute 20 countUp).run Machine.atRest).1 ∧
    ∀ i, Arena.host < i → ((Eval.execute 20 countUp).run Machine.amidScript).2.scopes[i]? =
      Machine.amidScript.scopes[i]? := by
  have hhost : Machine.amidScript.scopes[Arena.host]? = Machine.atRest.scopes[Arena.host]? := rfl
  have hheap : Machine.amidScript.heap = Machine.atRest.heap := rfl
  have h := isolated_from_outer_scopes hhost rfl hheap rfl rfl countUp 20
  exact ⟨by decide +kernel, h.1, h.2.2.2.1⟩

end Scriptlet
