import Mathlib.Logic.Relation
import Scriptlet.Proofs.Change
import Scriptlet.Proofs.Discipline
import Scriptlet.Proofs.Parallel

/-!
# Shadowed variables

Names are looked up where the running code was called from, so a search may go outward
through many callers.  It ends at the first scope that declares the name.  If a scope
`p` on the way outward declares it, then a variable of the same name further out, in a
scope `q`, is out of reach: no code that runs inside can read it or write it, and it may
as well be another one.

This holds because all code runs below `p`.  New scopes are opened under the scope in
which code runs, so `p` stays on the way outward (`Shadowed.pushScope`), and parents
stand before their children, so a search that has not passed `p` has not come to `q`
(`Arena.le_of_outward`).  Only a function of the host could open a scope elsewhere.
-/

namespace Scriptlet

/-- Puts another variable in the place of the one with a folded name. -/
def Scope.replaceVariable (s : Scope) (key : String) (v : Variable) : Scope :=
  { s with vars := s.vars.map fun (k, w) => if k == key then (k, v) else (k, w) }

namespace Arena

/-- Puts another variable in the place of one that a scope declares. -/
def replaceVariable (arena : Arena) (scope : ScopeId) (key : String) (v : Variable) : Arena :=
  arena.modify scope (·.replaceVariable key v)

/-- The second scope is the parent of the first. -/
def Parent (arena : Arena) (i j : ScopeId) : Prop :=
  arena[i]?.map Scope.parent = some (some j)

/-- Every parent stands before its children. -/
def Downward (arena : Arena) : Prop :=
  ∀ {i j}, arena.Parent i j → j < i

end Arena

namespace Machine

/-- The variable with a folded name that a scope itself declares. -/
def variableAt (m : Machine) (scope : ScopeId) (key : String) : Option Variable :=
  m.scopes[scope]?.bind (·.getVariable? key)

@[inherit_doc Arena.replaceVariable]
def replaceVariable (m : Machine) (scope : ScopeId) (key : String) (v : Variable) : Machine :=
  { m with scopes := m.scopes.replaceVariable scope key v }

/-- The second machine is the first with another variable in the place of one. -/
def Replaced (scope : ScopeId) (key : String) (v : Variable) (m m' : Machine) : Prop :=
  m' = m.replaceVariable scope key v

end Machine

namespace Scope

/-- Another variable is found where the replaced one was, and the others are found as
before. -/
theorem getVariable?_replaceVariable (s : Scope) (key other : String) (v : Variable) :
    (s.replaceVariable key v).getVariable? other =
      if other = key then (s.getVariable? other).map fun _ => v else s.getVariable? other :=
  lookup_map_key s.vars key other fun _ => v

/-- A replaced variable is declared where it was. -/
theorem isSome_replaceVariable (s : Scope) (key other : String) (v : Variable) :
    ((s.replaceVariable key v).getVariable? other).isSome = (s.getVariable? other).isSome := by
  rw [getVariable?_replaceVariable]
  split <;> simp

/-- Replacing one variable and giving another a value go in either order. -/
theorem setVariable_replaceVariable {key other : String} (hne : other ≠ key) (s : Scope)
    (v : Variable) (value : Value) :
    (s.replaceVariable key v).setVariable other value =
      (s.setVariable other value).replaceVariable key v := by
  simp only [setVariable, replaceVariable, List.map_map]
  congr 1
  apply List.map_congr_left
  rintro ⟨k, w⟩ _
  by_cases hk : k = key
  · subst hk
    simp [Ne.symm hne]
  · by_cases hother : k = other <;> simp [hk, hother, hne]

end Scope

namespace Arena

variable {α : Type} {arena : Arena} {p q s : ScopeId} {key : String} {v : Variable}

/-- Changes to two scopes go in either order, and two changes of one scope do that
commute. -/
theorem modify_modify_comm {i j : ScopeId} {f g : Scope → Scope}
    (h : i ≠ j ∨ ∀ a, f (g a) = g (f a)) :
    (arena.modify i f).modify j g = (arena.modify j g).modify i f := by
  apply Array.ext_getElem?
  intro k
  simp only [Array.getElem?_modify]
  by_cases hi : i = k <;> by_cases hj : j = k <;> simp only [hi, hj, if_true, if_false]
  rcases h with hne | hcomm
  · exact absurd (hi.trans hj.symm) hne
  · cases arena[k]? <;> simp [hcomm]

/-- Only the one scope has another variable. -/
theorem getElem?_replaceVariable (arena : Arena) (q : ScopeId) (key : String) (v : Variable)
    (i : ScopeId) : (arena.replaceVariable q key v)[i]? =
      if q = i then arena[i]?.map (·.replaceVariable key v) else arena[i]? :=
  Array.getElem?_modify

/-- **A search sees no replaced variable that it does not come to.**  The search stays on
a way where `pick` cannot tell the replaced variable from the old one. -/
theorem findOutward_replaceVariable {pick : ScopeId → Scope → Option α} {way : ScopeId → Prop}
    (hway : ∀ {i a j}, way i → arena[i]? = some a → pick i a = none → a.parent = some j → way j)
    (hpick : ∀ {a}, way q → arena[q]? = some a → pick q (a.replaceVariable key v) = pick q a)
    {steps : Nat} (hs : way s) :
    (arena.replaceVariable q key v).findOutward pick steps s =
      arena.findOutward pick steps s := by
  induction steps generalizing s with
  | zero => rfl
  | succ steps ih =>
      simp only [findOutward, getElem?_replaceVariable]
      cases ha : arena[s]? with
      | none => simp
      | some a =>
          have hnext : ∀ {parent}, pick s a = none → a.parent = some parent →
              (arena.replaceVariable q key v).findOutward pick steps parent =
                arena.findOutward pick steps parent :=
            fun hnone hparent => ih (hway hs ha hnone hparent)
          by_cases hq : q = s
          · subst hq
            have hsame : (a.replaceVariable key v).parent = a.parent := rfl
            simp only [if_true, Option.map_some, hpick hs ha, hsame]
            cases hfound : pick q a with
            | some x => rfl
            | none =>
                cases hparent : a.parent with
                | none => rfl
                | some parent => exact hnext hfound hparent
          · simp only [if_neg hq]
            cases hfound : pick s a with
            | some x => rfl
            | none =>
                cases hparent : a.parent with
                | none => rfl
                | some parent => exact hnext hfound hparent

/-- A scope that has a parent is there. -/
theorem Parent.lt_size {i j : ScopeId} (h : arena.Parent i j) : i < arena.size := by
  obtain ⟨a, ha, _⟩ := Option.map_eq_some_iff.mp h
  exact (Array.getElem?_eq_some_iff.mp ha).1

/-- On the way outward from a scope no scope stands after it. -/
theorem le_of_outward (hdown : arena.Downward) {i : ScopeId}
    (h : Relation.ReflTransGen arena.Parent i p) : p ≤ i := by
  induction h with
  | refl => exact Nat.le_refl i
  | tail _ hparent ih => exact Nat.le_trans (Nat.le_of_lt (hdown hparent)) ih

/-- Outward lie only earlier scopes. -/
theorem lt_of_outward (hdown : arena.Downward) {i : ScopeId}
    (h : Relation.TransGen arena.Parent i p) : p < i := by
  obtain ⟨k, hk, hrest⟩ := Relation.TransGen.head'_iff.mp h
  exact Nat.lt_of_le_of_lt (le_of_outward hdown hrest) (hdown hk)

/-- The search for a name goes no further out than to a scope that declares it. -/
theorem outward_of_pick_eq_none (hp : ∃ a, arena[p]? = some a ∧ (a.getVariable? key).isSome)
    {pick : ScopeId → Scope → Option α}
    (hpick : ∀ {i a}, (a.getVariable? key).isSome → (pick i a).isSome) {i j : ScopeId} {a : Scope}
    (hi : Relation.ReflTransGen arena.Parent i p) (ha : arena[i]? = some a)
    (hnone : pick i a = none) (hparent : a.parent = some j) :
    Relation.ReflTransGen arena.Parent j p := by
  rcases hi.cases_head with rfl | ⟨k, hk, hrest⟩
  · obtain ⟨b, hb, hkey⟩ := hp
    rw [ha] at hb
    cases hb
    have hsome := hpick (i := i) hkey
    rw [hnone] at hsome
    cases hsome
  · have hsame : some a.parent = some (some k) := by
      rw [← hk, ha]
      rfl
    rw [hparent] at hsame
    cases hsame
    exact hrest

end Arena

namespace Step

/-- What code in the scope `s` may write if the host takes no part: it declares in `s`, and
it assigns what is found from `s` outward. -/
def WritesFrom {α : Type} (s : ScopeId) : Step α → Prop
  | .declareVariable scope _ _ _ => scope = s
  | .declareFunction scope f _ => scope = s ∧ ¬ f.IsHost
  | .assignVariable scope _ _ _ => scope = s
  | .fillVariable scope _ _ _ => scope = s
  | _ => True

variable {α : Type} {a b : Step α} {s : ScopeId}

/-- Without the host, code writes only from its scope on. -/
theorem Parallel.writesFrom (hab : a.Parallel False s s b) : a.WritesFrom s := by
  cases hab with
  | declareVariable | assignVariable | fillVariable => rfl
  | declareHostVariable hhosted | declareHostFunction hhosted => exact hhosted.elim
  | declareFunction f hf position => exact ⟨rfl, hf⟩
  | readVariable | findFunction | extraArguments => trivial
  | scopeless ha =>
      cases a with
      | declareVariable | declareFunction | assignVariable | fillVariable => exact ha.elim
      | _ => trivial

/-- Such code brings no function of the host. -/
theorem WritesFrom.not_isHost (ha : a.WritesFrom s) {f : Callable} (hf : a.Brings f) :
    ¬ f.IsHost := by
  cases a with
  | declareFunction scope g position =>
      cases hf
      exact ha.2
  | _ => exact hf.elim

end Step

/-- A new scope has the parent under which it was opened; the others have theirs. -/
theorem Machine.parent_pushScope_iff {m : Machine} {s i j : ScopeId} :
    (m.pushScope s).scopes.Parent i j ↔
      (i = m.scopes.size ∧ j = s) ∨ (i < m.scopes.size ∧ m.scopes.Parent i j) := by
  have hlt : m.scopes.Parent i j → i < m.scopes.size := Arena.Parent.lt_size
  unfold Arena.Parent at hlt ⊢
  rw [getElem?_pushScope]
  by_cases hi : i = m.scopes.size
  · simp [hi, Scope.empty, eq_comm]
  · simpa [hi] using hlt

/-- The variable of `q` is shadowed where code runs in the scope `s`: a scope `p` on the way
outward declares the name, and `q` stands before `p`.  The variable is the one that it was,
and no function of the host is known. -/
structure Shadowed (p q : ScopeId) (key : String) (original : Option Variable) (s : ScopeId)
    (m : Machine) : Prop where
  down : m.scopes.Downward
  outward : Relation.ReflTransGen m.scopes.Parent s p
  before : q < p
  declares : m.Declares p key
  noHost : ∀ f, m.Knows f → ¬ f.IsHost
  kept : m.variableAt q key = original

namespace Shadowed

variable {p q s : ScopeId} {key : String} {original : Option Variable} {m : Machine}
  {v : Variable}

/-- On the way to the shadow the shadowed scope is not met. -/
theorem ne_of_outward (h : Shadowed p q key original s m) {i : ScopeId}
    (hi : Relation.ReflTransGen m.scopes.Parent i p) : i ≠ q := by
  have hle := Arena.le_of_outward h.down hi
  have hlt := h.before
  exact Nat.ne_of_gt (Nat.lt_of_lt_of_le hlt hle)

/-- The scope in which the code runs is there. -/
theorem lt_size (h : Shadowed p q key original s m) : s < m.scopes.size := by
  rcases h.outward.cases_head with rfl | ⟨k, hk, _⟩
  · exact h.declares.lt_size
  · exact hk.lt_size

/-- A name means the same variable, whatever stands in the shadow. -/
theorem findVariable?_eq (h : Shadowed p q key original s m) (name : String) :
    (m.scopes.replaceVariable q key v).findVariable? s name = m.scopes.findVariable? s name := by
  by_cases hname : Name.fold name = key
  -- the search for the shadowed name ends at `p`; any other name may lead past `q`, where only
  -- the replaced variable differs
  · refine Arena.findOutward_replaceVariable
      (Arena.outward_of_pick_eq_none h.declares fun hkey => hname ▸ hkey) ?_ h.outward
    intro a hq _
    exact absurd rfl (h.ne_of_outward hq)
  · refine Arena.findOutward_replaceVariable (fun _ _ _ _ => trivial) ?_
      (trivial : (fun _ => True) s)
    intro a _ _
    rw [Scope.getVariable?_replaceVariable, if_neg hname]

/-- Which scope declares a name does not depend on the variable it has for it. -/
theorem owner?_eq (m : Machine) (s : ScopeId) (name : String) :
    (m.scopes.replaceVariable q key v).owner? s name = m.scopes.owner? s name := by
  refine Arena.findOutward_replaceVariable (fun _ _ _ _ => trivial) ?_
    (trivial : (fun _ => True) s)
  intro a _ _
  rw [Scope.isSome_replaceVariable]

/-- Which function a name means does not depend on variables. -/
theorem findFunction?_eq (m : Machine) (s : ScopeId) (name : String) :
    (m.scopes.replaceVariable q key v).findFunction? s name = m.scopes.findFunction? s name :=
  Arena.findOutward_replaceVariable (fun _ _ _ _ => trivial) (fun _ _ => rfl)
    (trivial : (fun _ => True) s)

/-- The shadowed variable is not the one that its name means. -/
theorem owner?_ne (h : Shadowed p q key original s m) {name : String} {owner : ScopeId}
    (howner : m.scopes.owner? s name = some owner) : owner ≠ q ∨ Name.fold name ≠ key := by
  by_cases hname : Name.fold name = key
  · refine .inl ?_
    have hsome : ∀ {i : ScopeId} {a : Scope}, (a.getVariable? key).isSome →
        (if (a.getVariable? (Name.fold name)).isSome then some i else none).isSome := by
      intro i a hkey
      simp [hname, hkey]
    obtain ⟨i, a, hi, _, hpicked⟩ := Arena.exists_on_way_of_findOutward howner h.outward
      fun hi ha hnone hparent => Arena.outward_of_pick_eq_none h.declares hsome hi ha hnone hparent
    split at hpicked
    · cases hpicked
      exact h.ne_of_outward hi
    · cases hpicked
  · exact .inr hname

/-- A declaration, of a variable or of a function, is made in a scope that is not in the
shadow. -/
theorem declare_eq (h : Shadowed p q key original s m) (taken : Scope → Bool)
    (add : Scope → Scope) :
    (match (m.scopes.replaceVariable q key v)[s]? with
      | none => none
      | some a =>
        if taken a then none else some ((m.scopes.replaceVariable q key v).modify s add)) =
      Option.map (Arena.replaceVariable · q key v) (match m.scopes[s]? with
        | none => none
        | some a => if taken a then none else some (m.scopes.modify s add)) := by
  have hne := h.ne_of_outward h.outward
  rw [Arena.getElem?_replaceVariable, if_neg hne.symm]
  cases m.scopes[s]? with
  | none => rfl
  | some a =>
      dsimp only
      split
      · rfl
      · exact congrArg some (Arena.modify_modify_comm (.inl hne.symm))

/-- Assignments go to another scope than `q`, or to another variable of `q`. -/
theorem assign?_eq (h : Shadowed p q key original s m) (name : String) (value : Value) :
    (m.scopes.replaceVariable q key v).assign? s name value =
      (m.scopes.assign? s name value).map (·.replaceVariable q key v) := by
  unfold Arena.assign?
  rw [owner?_eq]
  cases howner : m.scopes.owner? s name with
  | none => rfl
  | some owner =>
      refine congrArg some (Arena.modify_modify_comm ?_)
      rcases h.owner?_ne howner with hne | hne
      · exact .inl hne.symm
      · exact .inr fun a => (Scope.setVariable_replaceVariable hne a v value).symm

/-- Steps on the scopes that both fail, or make the same of what is not shadowed. -/
theorem endAlike_scopes (m : Machine) (fault : Fault) {scopes scopes' : Option Arena} :
    scopes' = scopes.map (·.replaceVariable q key v) →
    EndAlike (Machine.Replaced q key v)
      (match scopes with
        | some scopes => (.done (), { m with scopes })
        | none => (.failed fault, m) : Outcome Fault Unit × Machine)
      (match scopes' with
        | some scopes => (.done (), { m.replaceVariable q key v with scopes })
        | none => (.failed fault, m.replaceVariable q key v)) := by
  rintro rfl
  cases scopes <;> exact ⟨rfl, rfl⟩

/-- **One step** gives the same, whatever stands in the shadow, and leaves it there. -/
theorem perform (h : Shadowed p q key original s m) {α : Type} {a b : Step α}
    (hab : a.Parallel False s s b) (v : Variable) :
    EndAlike (Machine.Replaced q key v) (a.perform m)
      (b.perform (m.replaceVariable q key v)) := by
  have hsize : s < m.scopes.size ↔ s < (m.replaceVariable q key v).scopes.size := by
    simp [Machine.replaceVariable, Arena.replaceVariable]
  have hsame : m.Replaced q key v (m.replaceVariable q key v) := rfl
  cases hab with
  | declareVariable name value position =>
      exact Step.inArena_endAlike hsize hsame position
        (endAlike_scopes m _ (h.declare_eq (fun a => (a.getVariable? _).isSome) _))
  | declareHostVariable hhosted | declareHostFunction hhosted => exact hhosted.elim
  | declareFunction f _ position =>
      exact Step.inArena_endAlike hsize hsame position
        (endAlike_scopes m _ (h.declare_eq (fun a => (a.getFunction? _).isSome) _))
  | readVariable name position =>
      apply Step.inArena_endAlike hsize hsame
      have hfound : (m.replaceVariable q key v).scopes.findVariable? s name =
        m.scopes.findVariable? s name := h.findVariable?_eq name
      rw [hfound]
      split <;> exact ⟨rfl, rfl⟩
  | assignVariable name value position =>
      exact Step.inArena_endAlike hsize hsame position
        (endAlike_scopes m _ (h.assign?_eq name value))
  | fillVariable name value position =>
      exact Step.inArena_endAlike hsize hsame position
        (endAlike_scopes m _ (h.assign?_eq name value))
  | findFunction name position =>
      apply Step.inArena_endAlike hsize hsame
      have hfound : (m.replaceVariable q key v).scopes.findFunction? s name =
        m.scopes.findFunction? s name := findFunction?_eq m s name
      rw [hfound]
      split <;> exact ⟨rfl, rfl⟩
  | extraArguments position =>
      apply Step.inArena_endAlike hsize hsame
      have hfound : (m.replaceVariable q key v).scopes.findVariable? s Name.variadic =
        m.scopes.findVariable? s Name.variadic := h.findVariable?_eq Name.variadic
      rw [hfound]
      split <;> exact ⟨rfl, rfl⟩
  | scopeless ha =>
      rw [Step.perform_heapOnly ha m, Step.perform_heapOnly ha (m.replaceVariable q key v)]
      exact ⟨rfl, rfl⟩

/-- The way outward is a matter of the frame.  On a machine with the same frame it remains to
ask what scopes declare. -/
theorem of_frame_eq (h : Shadowed p q key original s m) {m' : Machine}
    (hframe : m'.frame = m.frame) (hdeclares : m'.Declares p key)
    (hnoHost : ∀ f, m'.Knows f → ¬ f.IsHost) (hkept : m'.variableAt q key = original) :
    Shadowed p q key original s m' := by
  have hparent : m'.scopes.Parent = m.scopes.Parent := by
    funext i j
    unfold Arena.Parent
    rw [Machine.parent_eq_of_frame_eq hframe i]
  refine ⟨?_, ?_, h.before, hdeclares, hnoHost, hkept⟩
  · unfold Arena.Downward
    rw [hparent]
    exact h.down
  · rw [hparent]
    exact h.outward

/-- A change to another scope than `q`, or to other variables of it, keeps the variable. -/
theorem kept_modify (h : Shadowed p q key original s m) {i : ScopeId} {f : Scope → Scope}
    (hf : i ≠ q ∨ ∀ a, (f a).getVariable? key = a.getVariable? key) :
    { m with scopes := m.scopes.modify i f }.variableAt q key = original := by
  rw [← h.kept]
  unfold Machine.variableAt
  rw [Array.getElem?_modify]
  by_cases hi : i = q
  · rcases hf with hne | hsame
    · exact absurd hi hne
    · rw [if_pos hi]
      cases m.scopes[q]? with
      | none => rfl
      | some a => exact hsame a
  · rw [if_neg hi]

/-- An assignment from such a scope leaves the shadowed variable, since the search ends in
the shadow. -/
theorem kept_assign (h : Shadowed p q key original s m) {name : String} {owner : ScopeId}
    (howner : m.scopes.owner? s name = some owner) (value : Value) :
    { m with scopes := m.scopes.modify owner (·.setVariable (Name.fold name) value) }.variableAt
      q key = original := by
  apply h.kept_modify
  rcases h.owner?_ne howner with hne | hne
  · exact .inl hne
  · refine .inr fun a => ?_
    rw [Scope.getVariable?_setVariable, if_neg (Ne.symm hne)]

/-- **One step** leaves the shadowed variable alone. -/
theorem kept_perform (h : Shadowed p q key original s m) {α : Type} {a : Step α}
    (ha : a.WritesFrom s) : (a.perform m).2.variableAt q key = original := by
  have hne := h.ne_of_outward h.outward
  have hchange := a.perform_change m
  generalize (a.perform m).2 = m' at hchange
  cases hchange with
  | declaredVariable =>
      cases ha
      exact h.kept_modify (.inl hne)
  | declaredFunction =>
      cases ha.1
      exact h.kept_modify (.inl hne)
  | assigned howner =>
      cases ha
      exact h.kept_assign howner _
  | filled howner =>
      cases ha
      exact h.kept_assign howner _
  | _ => exact h.kept

/-- After a step the variable is shadowed as before. -/
theorem after_perform (h : Shadowed p q key original s m) {α : Type} {a b : Step α}
    (hab : a.Parallel False s s b) : Shadowed p q key original s (a.perform m).2 := by
  have hchange := a.perform_change m
  have ha := hab.writesFrom
  refine h.of_frame_eq (a.perform_frame m) (hchange.later.declares h.declares) ?_
    (h.kept_perform ha)
  intro f hf
  rcases hchange.knows hf with hknown | hbrought
  · exact h.noHost f hknown
  · exact ha.not_isHost hbrought

/-- Code in a new scope has the scope under which it was opened on its way outward. -/
theorem pushScope (h : Shadowed p q key original s m) :
    Shadowed p q key original m.scopes.size (m.pushScope s) where
  down {i j} hij := by
    rw [Machine.parent_pushScope_iff] at hij
    rcases hij with ⟨rfl, rfl⟩ | ⟨_, hij⟩
    · exact h.lt_size
    · exact h.down hij
  outward := by
    have hnew : (m.pushScope s).scopes.Parent m.scopes.size s :=
      Machine.parent_pushScope_iff.mpr (.inl ⟨rfl, rfl⟩)
    have hold : ∀ i j, m.scopes.Parent i j → (m.pushScope s).scopes.Parent i j :=
      fun i j hij => Machine.parent_pushScope_iff.mpr (.inr ⟨hij.lt_size, hij⟩)
    exact .head hnew (Relation.ReflTransGen.mono hold _ _ h.outward)
  before := h.before
  declares := h.declares.pushScope s
  noHost f hf := h.noHost f (Machine.knows_of_pushScope hf)
  kept := by
    have hq : q < m.scopes.size := Nat.lt_trans h.before h.declares.lt_size
    rw [← h.kept]
    unfold Machine.variableAt
    rw [Machine.getElem?_pushScope, if_neg (Nat.ne_of_lt hq)]

/-- Closing scopes that were opened later keeps the variable shadowed. -/
theorem keepScopes (h : Shadowed p q key original s m) {i : ScopeId} {after : Machine}
    (hafter : Shadowed p q key original i after)
    (hframe : (after.keepScopes m.scopes.size).frame = m.frame) :
    Shadowed p q key original s (after.keepScopes m.scopes.size) := by
  have hp := h.declares.lt_size
  have hq : q < m.scopes.size := Nat.lt_trans h.before hp
  refine h.of_frame_eq hframe (hafter.declares.keepScopes hp)
    (fun f hf => hafter.noHost f (Machine.knows_of_keepScopes hf)) ?_
  rw [← hafter.kept]
  unfold Machine.variableAt
  rw [Machine.getElem?_keepScopes, if_pos hq]

end Shadowed

namespace Machine

/-- Where a variable was replaced stands the other one. -/
theorem variableAt_replaceVariable (m : Machine) (q : ScopeId) (key : String) (v : Variable) :
    (m.replaceVariable q key v).variableAt q key = (m.variableAt q key).map fun _ => v := by
  unfold variableAt replaceVariable
  rw [Arena.getElem?_replaceVariable, if_pos rfl]
  cases m.scopes[q]? with
  | none => rfl
  | some a => exact (Scope.getVariable?_replaceVariable a key key v).trans (if_pos rfl)

/-- Replacing a variable and opening or closing later scopes go in either order. -/
theorem replaceVariable_pushScope (m : Machine) {q : ScopeId} (hq : q < m.scopes.size)
    (key : String) (v : Variable) (parent : ScopeId) :
    (m.replaceVariable q key v).pushScope parent =
      (m.pushScope parent).replaceVariable q key v := by
  have hscopes : ((m.replaceVariable q key v).pushScope parent).scopes =
      ((m.pushScope parent).replaceVariable q key v).scopes := by
    apply Array.ext_getElem?
    intro i
    rw [getElem?_pushScope]
    simp only [replaceVariable, Arena.getElem?_replaceVariable, getElem?_pushScope]
    by_cases hi : i = m.scopes.size
    · simp [hi, Arena.replaceVariable, Nat.ne_of_lt hq]
    · simp [hi, Arena.replaceVariable]
  exact congrArg (fun scopes => { m with scopes }) hscopes

/-- A variable may be replaced before or after scopes are taken away. -/
theorem replaceVariable_keepScopes (m : Machine) (q : ScopeId) (key : String) (v : Variable)
    (count : Nat) :
    (m.replaceVariable q key v).keepScopes count =
      (m.keepScopes count).replaceVariable q key v := by
  have hscopes : ((m.replaceVariable q key v).keepScopes count).scopes =
      ((m.keepScopes count).replaceVariable q key v).scopes := by
    apply Array.ext_getElem?
    intro i
    rw [getElem?_keepScopes]
    simp only [replaceVariable, Arena.getElem?_replaceVariable, getElem?_keepScopes]
    by_cases hi : i < count <;> simp [hi]
  exact congrArg (fun scopes => { m with scopes }) hscopes

end Machine

/-- A run and the one with another variable in the shadow go in step. -/
theorem simulation_shadowed (p q : ScopeId) (key : String) (original : Option Variable)
    (v : Variable) :
    Simulation False fun s t m m' =>
      s = t ∧ Shadowed p q key original s m ∧ m.Replaced q key v m' where
  step := by
    rintro s _ m _ α a b ⟨rfl, h, rfl⟩ hab
    obtain ⟨houtcome, hreplaced⟩ := h.perform hab v
    exact ⟨houtcome, rfl, h.after_perform hab, hreplaced⟩
  found := by
    rintro s _ m _ name position f ⟨rfl, h, rfl⟩ hfound hhost
    have hknown : m.Knows f := by
      simp only [Step.perform, Step.inArena] at hfound
      split at hfound
      · split at hfound
        next g hg =>
          cases hfound
          exact Machine.knows_of_findFunction? hg
        next => cases hfound
      · cases hfound
    exact h.noHost f hknown hhost
  pushScope := by
    rintro s _ m _ ⟨rfl, h, rfl⟩
    have hq : q < m.scopes.size := Nat.lt_trans h.before h.declares.lt_size
    refine ⟨?_, h.pushScope, m.replaceVariable_pushScope hq key v s⟩
    simp [Machine.replaceVariable, Arena.replaceVariable]
  pushHost hhosted := hhosted.elim
  keepScopes := by
    rintro s _ i j m _ after _ ⟨rfl, h, rfl⟩ ⟨_, hafter, rfl⟩ hframe _
    refine ⟨rfl, h.keepScopes hafter hframe, ?_⟩
    have hsize : (m.replaceVariable q key v).scopes.size = m.scopes.size := by
      simp [Machine.replaceVariable, Arena.replaceVariable]
    rw [hsize]
    exact after.replaceVariable_keepScopes q key v _
  calls := by
    rintro s _ m _ ⟨rfl, _, rfl⟩
    exact ⟨rfl, rfl⟩
  enterCall := by
    rintro s _ m _ ⟨rfl, h, rfl⟩
    exact ⟨rfl, ⟨h.down, h.outward, h.before, h.declares, h.noHost, h.kept⟩, rfl⟩
  leaveCall := by
    rintro s _ m _ ⟨rfl, h, rfl⟩
    exact ⟨rfl, ⟨h.down, h.outward, h.before, h.declares, h.noHost, h.kept⟩, rfl⟩

/-- In an orderly machine, and so in every one that a host comes to see, parents stand
before their children. -/
theorem Moment.Orderly.downward {calls : Nat} {m : Machine} (h : Moment.Orderly ⟨calls, m⟩) :
    m.scopes.Downward := by
  intro i j hij
  by_cases hhost : i = Arena.host
  · subst hhost
    have hnone := h.host_parent.symm.trans hij
    cases hnone
  · obtain ⟨k, hk, hik⟩ := h.parent_lt i (Nat.pos_of_ne_zero hhost) hij.lt_size
    have hsame := hij.symm.trans hik
    cases hsame
    exact hk

namespace Task

variable {α : Type}

/-- Whatever is done below the host scope is done without the host. -/
theorem parallel_toEval (task : Task α) (hscope : Arena.host < task.scope) (fuel : Nat) :
    (task.toEval fuel).Parallel False task.scope task.scope (task.toEval fuel) := by
  have hparallel := Eval.parallelUpTo False fuel
  cases task with
  | eval scope e => exact hparallel.eval scope scope e
  | exec scope s => exact hparallel.exec scope scope s
  | execAll scope statements => exact hparallel.execAll scope scope statements
  | call scope name arguments position => exact hparallel.call scope scope name arguments position
  | execute script => exact absurd hscope (Nat.lt_irrefl _)

/-- **A shadowed variable is out of reach.**  On the way outward from the scope of a task a
scope `p` declares a name, and further out a scope `q` declares the name too, in whatever
case it is written.  If no function of the host is known, the task leaves the variable of
`q` as it is.  With any other variable in its place, one without a value too, the task ends
in the same way and in the same state, but for the other variable, which is still there. -/
theorem shadowed_variable_out_of_reach {m : Machine} (hdown : m.scopes.Downward)
    (hnoHost : ∀ f, m.Knows f → ¬ f.IsHost) (task : Task α) {p q : ScopeId} {name : String}
    (hp : Relation.ReflTransGen m.scopes.Parent task.scope p)
    (hdeclares : m.Declares p (Name.fold name)) (hq : Relation.TransGen m.scopes.Parent p q)
    {w : Variable} (hw : m.variableAt q (Name.fold name) = some w) (v : Variable) (fuel : Nat) :
    ((task.toEval fuel).run m).2.variableAt q (Name.fold name) = some w ∧
    (task.toEval fuel).run (m.replaceVariable q (Name.fold name) v) =
      (((task.toEval fuel).run m).1,
        ((task.toEval fuel).run m).2.replaceVariable q (Name.fold name) v) ∧
    ((task.toEval fuel).run (m.replaceVariable q (Name.fold name) v)).2.variableAt q
      (Name.fold name) = some v := by
  have hbefore : q < p := Arena.lt_of_outward hdown hq
  -- so the task is none of the host's, which are done in the outermost scope
  have hscope : Arena.host < task.scope :=
    Nat.lt_of_le_of_lt (Nat.zero_le q) (Nat.lt_of_lt_of_le hbefore (Arena.le_of_outward hdown hp))
  have hstart : Shadowed p q (Name.fold name) (some w) task.scope m :=
    ⟨hdown, hp, hbefore, hdeclares, hnoHost, hw⟩
  obtain ⟨houtcome, _, hend, hreplaced⟩ :=
    (simulation_shadowed p q (Name.fold name) (some w) v).run (task.parallel_toEval hscope fuel)
      ⟨rfl, hstart, rfl⟩
  refine ⟨hend.kept, Prod.ext houtcome.symm hreplaced, ?_⟩
  rw [hreplaced, Machine.variableAt_replaceVariable, hend.kept]
  rfl

end Task

/-- A function that counts a variable up: `bump() { x = x + 1; return x; }`. -/
def FunctionDef.bump : FunctionDef :=
  ⟨⟨"main", 1, 1⟩, ⟨"bump", [], false⟩, ⟨"main", 1, 8⟩,
    [.ofExpr (.assign ⟨"main", 1, 10⟩ ⟨"main", 1, 10⟩ "x"
        (.binary ⟨"main", 1, 14⟩ .add ⟨"main", 1, 16⟩ (.var ⟨"main", 1, 14⟩ "x")
          (.literal ⟨"main", 1, 18⟩ (.int 1)))),
      .returns ⟨"main", 1, 21⟩ (some (.var ⟨"main", 1, 28⟩ "x"))]⟩

/-- A machine whose host has a variable `x` and the function, in the middle of code with a
variable `X` of its own. -/
def Machine.withTwoCounters : Machine :=
  (Eval.declareVariable 1 "X" (some (.int 7)) none
    ((Session.defineFunction (.script .bump)
      (Session.defineVariable "x" (.int 5) (Machine.initial 8)).2).2.pushScope Arena.host)).2

/-- Called from that code, the function counts `X` up, and the host keeps its `x`.  Without a
value in `x` the call gives the same. -/
theorem Task.shadowed_variable_out_of_reach_withTwoCounters :
    (((Task.call 1 "bump" [] none).toEval 20).run Machine.withTwoCounters).1 =
      .done (some (.int 8)) ∧
    (((Task.call 1 "bump" [] none).toEval 20).run Machine.withTwoCounters).2.variableAt 0 "x" =
      some ⟨"x", some (.int 5)⟩ ∧
    (((Task.call 1 "bump" [] none).toEval 20).run
        (Machine.withTwoCounters.replaceVariable 0 "x" ⟨"x", none⟩)).1 = .done (some (.int 8)) := by
  have hhost : Reachable ⟨0, (Session.defineFunction (.script .bump)
      (Session.defineVariable "x" (.int 5) (Machine.initial 8)).2).2⟩ :=
    .definedFunction (.definedVariable (.initial 8) "x" (.int 5)) (.script .bump)
  have horderly : Moment.Orderly ⟨0, Machine.withTwoCounters⟩ :=
    (hhost.orderly.pushScope (by decide +kernel)).of_frame_eq (Eval.run_frame _ _)
  have hnoHost : ∀ f, Machine.withTwoCounters.Knows f → ¬ f.IsHost := by
    intro f hf
    rcases (Step.perform_change _ _).knows hf with hf | hf
    · rcases (Step.perform_change _ _).knows (Machine.knows_of_pushScope hf) with hf | hf
      · rcases (Step.perform_change _ _).knows hf with hf | hf
        · exact absurd hf (Machine.not_knows_initial 8 f)
        · exact hf.elim
      · exact hf ▸ id
    · exact hf.elim
  have hparent : Machine.withTwoCounters.scopes.Parent 1 0 := rfl
  have hdone : (((Task.call 1 "bump" [] none).toEval 20).run Machine.withTwoCounters).1 =
      .done (some (.int 8)) := by decide +kernel
  obtain ⟨hkept, hsame, _⟩ := Task.shadowed_variable_out_of_reach horderly.downward hnoHost
    (.call 1 "bump" [] none) .refl ⟨_, rfl, by decide +kernel⟩ (.single hparent)
    (rfl : Machine.withTwoCounters.variableAt 0 (Name.fold "x") = some ⟨"x", some (.int 5)⟩)
    ⟨"x", none⟩ 20
  refine ⟨hdone, hkept, ?_⟩
  exact (congrArg Prod.fst hsame).trans hdone

end Scriptlet
