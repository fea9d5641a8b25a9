import Scriptlet.Proofs.Conduct
import Scriptlet.Proofs.Shadowing

/-!
# What a run does to the scopes that were there

A scope that was there before a run is there after it, with the same functions and with
every variable it had, under the same spelling; and no variable loses its value
(`Scope.Grows`).  Unless the run is to declare something in the scope, only values are
changed (`Scope.Kept`).

Statements add names to the scope that they are executed in.  Which ones is seen from
the statements that the run comes to (`Eval.reached`): each declaration among them adds its
name, unless the scope has it already.  The name is added before the initial value is
computed, so it stays if this fails.
-/

namespace Scriptlet

namespace Scope

variable {s t u : Scope}

/-- The folded names of the variables, the latest first, each with its spelling. -/
def names (s : Scope) : List (String × String) :=
  s.vars.map fun (key, v) => (key, v.name)

/-- The variable with the folded name has a value. -/
def Initialised (s : Scope) (key : String) : Prop :=
  ∃ name v, s.getVariable? key = some ⟨name, some v⟩

/-- The second scope has the functions of the first and all its variables, under the
same spelling and with a value if they had one. -/
structure Grows (s t : Scope) : Prop where
  parent_eq : t.parent = s.parent
  functions_eq : t.functions = s.functions
  spelling : ∀ {key name}, s.names.lookup key = some name → t.names.lookup key = some name
  initialised : ∀ {key}, s.Initialised key → t.Initialised key

/-- The second scope differs from the first in the values of variables only. -/
structure Kept (s t : Scope) : Prop extends Grows s t where
  names_eq : t.names = s.names

/-- The spelling under a folded name is that of the variable with this name. -/
theorem lookup_names (s : Scope) (key : String) :
    s.names.lookup key = (s.getVariable? key).map Variable.name := by
  unfold names getVariable?
  induction s.vars with
  | nil => rfl
  | cons entry rest ih =>
      obtain ⟨k, v⟩ := entry
      rw [List.map_cons, List.lookup_cons, List.lookup_cons, ih]
      cases key == k <;> rfl

/-- Setting a variable leaves the names as they are. -/
theorem names_setVariable (s : Scope) (key : String) (value : Value) :
    (s.setVariable key value).names = s.names := by
  simp only [names, setVariable, List.map_map]
  apply List.map_congr_left
  rintro ⟨k, v⟩ _
  by_cases hk : k = key <;> simp [hk]

/-- A variable that has a value keeps having one when some variable is set. -/
theorem Initialised.setVariable {key : String} (h : s.Initialised key) (other : String)
    (value : Value) : (s.setVariable other value).Initialised key := by
  obtain ⟨name, v, hv⟩ := h
  by_cases hkey : key = other
  · exact ⟨name, value, by rw [getVariable?_setVariable, if_pos hkey, hv]; rfl⟩
  · exact ⟨name, v, by rw [getVariable?_setVariable, if_neg hkey, hv]⟩

namespace Grows

/-- A scope that does not change has grown by nothing. -/
theorem refl (s : Scope) : s.Grows s :=
  ⟨rfl, rfl, id, id⟩

/-- What has grown twice has grown. -/
theorem trans (hst : s.Grows t) (htu : t.Grows u) : s.Grows u where
  parent_eq := htu.parent_eq.trans hst.parent_eq
  functions_eq := htu.functions_eq.trans hst.functions_eq
  spelling h := htu.spelling (hst.spelling h)
  initialised h := htu.initialised (hst.initialised h)

/-- A variable that is new to a scope hides none of its variables. -/
theorem addVariable {key : String} (hnew : s.getVariable? key = none) (v : Variable) :
    s.Grows (s.addVariable key v) := by
  have hother : ∀ {other w}, s.getVariable? other = some w →
      (s.addVariable key v).getVariable? other = some w := by
    intro other w hw
    have hne : other ≠ key := by
      rintro rfl
      rw [hnew] at hw
      cases hw
    rw [getVariable?_addVariable_of_ne s v hne, hw]
  refine ⟨rfl, rfl, ?_, ?_⟩
  · intro other name hname
    rw [lookup_names, Option.map_eq_some_iff] at hname ⊢
    obtain ⟨w, hw, rfl⟩ := hname
    exact ⟨w, hother hw, rfl⟩
  · rintro other ⟨name, value, hvalue⟩
    exact ⟨name, value, hother hvalue⟩

end Grows

namespace Kept

/-- A scope that does not change has kept all. -/
theorem refl (s : Scope) : s.Kept s :=
  ⟨.refl s, rfl⟩

/-- What is kept twice is kept. -/
theorem trans (hst : s.Kept t) (htu : t.Kept u) : s.Kept u :=
  ⟨hst.toGrows.trans htu.toGrows, htu.names_eq.trans hst.names_eq⟩

/-- Setting a variable changes only a value. -/
theorem setVariable (s : Scope) (key : String) (value : Value) :
    s.Kept (s.setVariable key value) where
  parent_eq := rfl
  functions_eq := rfl
  spelling h := by rwa [names_setVariable]
  initialised h := h.setVariable key value
  names_eq := names_setVariable s key value

end Kept

end Scope

/-! ## Single steps -/

/-- On this machine, the step is to give the variable with a folded name that `owner`
declares a value. -/
def Step.Writes {α : Type} (owner : ScopeId) (key : String) (m : Machine) : Step α → Prop
  | .assignVariable scope name _ _ | .fillVariable scope name _ _ =>
    m.scopes.owner? scope name = some owner ∧ Name.fold name = key
  | _ => False

namespace Step

variable {α : Type} {s : Step α} {m m' : Machine} {lent : HostFunction → Prop}
  {own : Territory} {i : ScopeId}

/-- Code that has nothing to declare in a scope leaves it as it is or gives one of its
variables a value. -/
theorem Change.scope_cases (h : s.Change m m') (hs : s.Conforms lent own)
    (hdefine : ¬ lent .define) (hvariables : ¬ own.vars i)
    (hfunctions : ¬ own.functions i) :
    m'.scopes[i]? = m.scopes[i]? ∨ ∃ key value, s.Writes i key m ∧
      m'.scopes[i]? = m.scopes[i]?.map (·.setVariable key value) := by
  cases h with
  | @declaredVariable scope name value position _ hnew =>
      have hne : scope ≠ i := by
        rintro rfl
        exact hs.elim hvariables hdefine
      exact .inl (by rw [Array.getElem?_modify, if_neg hne])
  | @declaredFunction scope f position _ =>
      have hne : scope ≠ i := by
        rintro rfl
        exact hfunctions hs.1
      exact .inl (by rw [Array.getElem?_modify, if_neg hne])
  | @assigned scope owner name value position _ howner
  | @filled scope owner name value position _ howner =>
      by_cases hsame : owner = i
      · subst hsame
        exact .inr ⟨Name.fold name, value, ⟨howner, rfl⟩, by rw [Array.getElem?_modify, if_pos rfl]⟩
      · exact .inl (by rw [Array.getElem?_modify, if_neg hsame])
  | _ => exact .inl rfl

end Step

/-! ## Runs that declare nothing in a scope -/

/-- The scope is still there and differs in the values of variables only. -/
def Machine.Keeps (m m' : Machine) (i : ScopeId) : Prop :=
  ∀ s, m.scopes[i]? = some s → ∃ t, m'.scopes[i]? = some t ∧ s.Kept t

namespace Eval

variable {α : Type} {m : Machine} {lent : HostFunction → Prop} {own : ScopeId → Prop}
  {i : ScopeId}

/-- A step of conforming code, and a scope that was there before and is not its own. -/
theorem Conforms.taken_scope_cases {x : Eval α} (hx : x.Conforms lent (.ofVariables own))
    (hm : m.Lends lent) (hdefine : ¬ lent .define) (hi : ¬ own i) (hlt : i < m.scopes.size)
    {t : Taken} (ht : t ∈ x.taken m) :
    (t.step.perform t.machine).2.scopes[i]? = t.machine.scopes[i]? ∨
      ∃ key value, t.step.Writes i key t.machine ∧
        (t.step.perform t.machine).2.scopes[i]? =
          t.machine.scopes[i]?.map (·.setVariable key value) := by
  have hconforms := ((hx.lends_taken hm).2 t ht).2
  have hearlier : ¬ m.scopes.size ≤ i := Nat.not_le.mpr hlt
  exact (t.step.perform_change t.machine).scope_cases hconforms hdefine
    (fun h => h.elim hi hearlier) fun h => h.elim id hearlier

/-- **Conforming code keeps every scope that was there and is not its own.** -/
theorem Conforms.keeps {x : Eval α} (hx : x.Conforms lent (.ofVariables own)) (hm : m.Lends lent)
    (hdefine : ¬ lent .define) (hi : ¬ own i) : m.Keeps (x.run m).2 i := by
  intro s hs
  have hlt : i < m.scopes.size := (Array.getElem?_eq_some_iff.mp hs).1
  refine (x.scope_of_taken (I := fun o => ∃ t, o = some t ∧ s.Kept t) hlt ⟨s, hs, .refl s⟩ ?_).1
  rintro t ht _ ⟨u, hu, hkept⟩
  rcases hx.taken_scope_cases hm hdefine hi hlt ht with hsame | ⟨key, value, _, hset⟩
  · exact ⟨u, hsame.trans hu, hkept⟩
  · refine ⟨u.setVariable key value, ?_, hkept.trans (.setVariable u key value)⟩
    rw [hset, hu]
    rfl

/-- A variable of such a scope is what it was until a step writes it. -/
theorem Conforms.variableAt_eq {x : Eval α} (hx : x.Conforms lent (.ofVariables own))
    (hm : m.Lends lent) (hdefine : ¬ lent .define) (hi : ¬ own i) {key : String} {v : Variable}
    (hv : m.variableAt i key = some v)
    (hwrites : ∀ t ∈ x.taken m, ¬ t.step.Writes i key t.machine) :
    (x.run m).2.variableAt i key = some v := by
  obtain ⟨s, hs, _⟩ := Option.bind_eq_some_iff.mp hv
  have hlt : i < m.scopes.size := (Array.getElem?_eq_some_iff.mp hs).1
  refine (x.scope_of_taken (I := fun o => o.bind (·.getVariable? key) = some v) hlt hv ?_).1
  intro t ht _ hbefore
  rcases hx.taken_scope_cases hm hdefine hi hlt ht with hsame | ⟨other, value, hother, hset⟩
  · rw [hsame]
    exact hbefore
  · have hne : key ≠ other := by
      rintro rfl
      exact hwrites t ht hother
    obtain ⟨s, hs, hget⟩ := Option.bind_eq_some_iff.mp hbefore
    rw [hset, hs]
    show (s.setVariable other value).getVariable? key = some v
    rw [Scope.getVariable?_setVariable, if_neg hne, hget]

end Eval

/-! ## Declarations -/

/-- The machine after a declaration that succeeds. -/
def Machine.declare (m : Machine) (scope : ScopeId) (name : String) (value : Option Value) :
    Machine :=
  { m with scopes := m.scopes.modify scope (·.addVariable (Name.fold name) ⟨name, value⟩) }

namespace Step

variable {m : Machine} {scope : ScopeId} {s : Scope} {name : String} {value : Option Value}
  {position : Option Position}

/-- A declaration of a name that is new to the scope adds it. -/
theorem perform_declareVariable_of_new (hs : m.scopes[scope]? = some s)
    (hnew : s.getVariable? (Name.fold name) = none) :
    (declareVariable scope name value position).perform m =
      (.done (), m.declare scope name value) := by
  have hlt : scope < m.scopes.size := (Array.getElem?_eq_some_iff.mp hs).1
  have hscopes : m.scopes.declareVariable? scope name value =
      some (m.declare scope name value).scopes :=
    Arena.declareVariable?_eq_some_iff.mpr ⟨s, hs, hnew, rfl⟩
  simp only [perform, inArena, if_pos hlt, hscopes, Machine.declare]

/-- A declaration of a name that the scope has fails and changes nothing. -/
theorem perform_declareVariable_of_old (hs : m.scopes[scope]? = some s)
    (hold : (s.getVariable? (Name.fold name)).isSome) :
    (declareVariable scope name value position).perform m =
      (.failed ⟨.variableAlreadyDefined name, position⟩, m) := by
  have hlt : scope < m.scopes.size := (Array.getElem?_eq_some_iff.mp hs).1
  have hnone : m.scopes.declareVariable? scope name value = none := by
    simp only [Arena.declareVariable?, hs, hold, if_true]
  simp only [perform, inArena, if_pos hlt, hnone]

/-- A declaration that succeeds has found the scope and added the name. -/
theorem eq_of_perform_declareVariable {m' : Machine}
    (h : (declareVariable scope name value position).perform m = (.done (), m')) :
    (∃ s, m.scopes[scope]? = some s) ∧ m' = m.declare scope name value := by
  simp only [perform, inArena] at h
  split at h
  · split at h
    next scopes hscopes =>
      obtain ⟨s, hs, _, rfl⟩ := Arena.declareVariable?_eq_some_iff.mp hscopes
      cases h
      exact ⟨⟨s, hs⟩, rfl⟩
    next => cases h
  · cases h

end Step

namespace Machine

variable {m : Machine} {scope : ScopeId} {s : Scope} {lent : HostFunction → Prop}

/-- The variable at a scope is the one that this scope itself has. -/
theorem variableAt_of_getElem? (hs : m.scopes[scope]? = some s) (key : String) :
    m.variableAt scope key = s.getVariable? key := by
  rw [variableAt, hs]
  rfl

/-- After a declaration the scope has the new variable before its others. -/
theorem getElem?_declare (hs : m.scopes[scope]? = some s) (name : String)
    (value : Option Value) : (m.declare scope name value).scopes[scope]? =
      some (s.addVariable (Name.fold name) ⟨name, value⟩) := by
  simp [declare, Array.getElem?_modify, hs]

/-- After a declaration the scope declares the name. -/
theorem declares_declare (hs : m.scopes[scope]? = some s) (name : String)
    (value : Option Value) : (m.declare scope name value).Declares scope (Name.fold name) := by
  refine ⟨_, getElem?_declare hs name value, ?_⟩
  rw [Scope.getVariable?_addVariable_self]
  rfl

/-- A variable that is declared brings no function of the host. -/
theorem Lends.declare (hm : m.Lends lent) (scope : ScopeId) (name : String)
    (value : Option Value) : (m.declare scope name value).Lends lent := by
  intro f hf
  have hknown : m.Knows f ∨ False := knows_of_modify hf fun s key hkey => .inl hkey
  exact hm f (hknown.resolve_right id)

/-- The machine after a variable that the scope itself declares has got a value. -/
def fill (m : Machine) (scope : ScopeId) (name : String) (v : Value) : Machine :=
  { m with scopes := m.scopes.modify scope (·.setVariable (Name.fold name) v) }

end Machine

/-- Where the scope declares the variable, filling it changes no other. -/
theorem Step.perform_fillVariable {m : Machine} {scope : ScopeId} {name : String}
    (h : m.Declares scope (Name.fold name)) (v : Value) (position : Option Position) :
    (Step.fillVariable scope name v position).perform m = (.done (), m.fill scope name v) := by
  have hlt := h.lt_size
  obtain ⟨s, hs, hname⟩ := h
  have howner := Arena.owner?_eq_self hs hname
  simp only [perform, inArena, if_pos hlt, Arena.assign?, howner, Machine.fill]

namespace Statement

/-- The name that a statement adds to its scope: that of a declaration, unless the scope
has it already. -/
def adds? (s : Statement) (scope : ScopeId) (m : Machine) : Option String :=
  match s with
  | .declare _ name _ => if (m.variableAt scope (Name.fold name)).isSome then none else some name
  | _ => none

variable {s : Statement}

/-- Only a `var` statement is a declaration. -/
theorem IsDeclaration.exists_eq (h : s.IsDeclaration) :
    ∃ p name value, s = .declare p name value := by
  cases s with
  | declare p name value => exact ⟨p, name, value, rfl⟩
  | _ => cases h

/-- A statement that is no declaration adds no name. -/
theorem adds?_eq_none (h : ¬ s.IsDeclaration) (scope : ScopeId) (m : Machine) :
    s.adds? scope m = none := by
  cases s with
  | declare p name value => exact absurd trivial h
  | _ => rfl

end Statement

/-- A name as a scope keeps it, folded and as it is spelled. -/
def Scope.entry (name : String) : String × String :=
  (Name.fold name, name)

namespace Eval

variable {m : Machine} {lent : HostFunction → Prop} {scope : ScopeId} {s : Scope}

/-- A declaration adds the name first, and what it does then declares nothing. -/
theorem exists_exec_declare (n : Nat) (scope : ScopeId) (p : Position) (name : String)
    (value : Option Expr) (lent : HostFunction → Prop) :
    ∃ rest : Eval Flow, rest.Conforms lent (.ofVariables fun _ => False) ∧
      exec (n + 1) scope (.declare p name value) =
        .bind (declareVariable scope name none (some p)) fun _ => rest := by
  cases value with
  | none => exact ⟨pure .normal, trivial, rfl⟩
  | some e =>
      have he := (conformsUpTo lent n).eval (.ofVariables fun _ => False) scope e
      refine ⟨.bind (eval n scope e) fun v =>
        .bind (fillVariable scope name v (some p)) fun _ => .pure .normal, ?_, rfl⟩
      exact ⟨he, fun _ _ => ⟨trivial, fun _ _ => trivial⟩⟩

/-- A statement that declares nothing keeps every scope. -/
theorem exec_keeps (hm : m.Lends lent) (hdefine : ¬ lent .define) (n : Nat) {st : Statement}
    (hst : ¬ st.IsDeclaration) (i : ScopeId) : m.Keeps (exec n scope st m).2 i :=
  ((conformsUpTo lent n).exec (.ofVariables fun _ => False) scope st hst).keeps hm hdefine id

/-- **A statement adds to its scope the name that it declares, and no other.** -/
theorem exec_grows (hm : m.Lends lent) (hdefine : ¬ lent .define)
    (hs : m.scopes[scope]? = some s) (n : Nat) (st : Statement) :
    ∃ t, (exec n scope st m).2.scopes[scope]? = some t ∧ s.Grows t ∧
      ((exec n scope st m).1 ≠ .outOfFuel →
        t.names = (st.adds? scope m).toList.map Scope.entry ++ s.names) := by
  by_cases hst : st.IsDeclaration
  · obtain ⟨p, name, value, rfl⟩ := hst.exists_eq
    cases n with
    | zero => exact ⟨s, hs, .refl s, fun hended => absurd rfl hended⟩
    | succ n =>
        obtain ⟨rest, hrest, heq⟩ := exists_exec_declare n scope p name value lent
        have hat := Machine.variableAt_of_getElem? hs (Name.fold name)
        by_cases hold : (s.getVariable? (Name.fold name)).isSome
        · have hrun : exec (n + 1) scope (.declare p name value) m =
              (.failed ⟨.variableAlreadyDefined name, some p⟩, m) :=
            heq ▸ Run.bind_failed (Step.perform_declareVariable_of_old hs hold) _
          rw [hrun]
          refine ⟨s, hs, .refl s, fun _ => ?_⟩
          simp [Statement.adds?, hat, hold]
        · have hnew := Option.not_isSome_iff_eq_none.mp hold
          have hrun : exec (n + 1) scope (.declare p name value) m =
              rest.run (m.declare scope name none) :=
            heq ▸ Run.bind_done (Step.perform_declareVariable_of_new hs hnew) _
          rw [hrun]
          obtain ⟨t, ht, hkept⟩ := hrest.keeps (hm.declare scope name none) hdefine id _
            (Machine.getElem?_declare hs name none)
          refine ⟨t, ht, (Scope.Grows.addVariable hnew _).trans hkept.toGrows, fun _ => ?_⟩
          rw [hkept.names_eq, Statement.adds?, hat, if_neg hold]
          rfl
  · obtain ⟨t, ht, hkept⟩ := exec_keeps hm hdefine n hst scope s hs
    refine ⟨t, ht, hkept.toGrows, fun _ => ?_⟩
    rw [Statement.adds?_eq_none hst, hkept.names_eq]
    rfl

/-- A name stays declared if its initial value cannot be computed.  It has no value then,
unless the computation has written one. -/
theorem exec_declare_uninitialised (hm : m.Lends lent) (hdefine : ¬ lent .define)
    (hs : m.scopes[scope]? = some s) (n : Nat) (p : Position) {name : String} (value : Option Expr)
    (hnew : s.getVariable? (Name.fold name) = none) :
    ∃ v, (exec (n + 1) scope (.declare p name value) m).2.variableAt scope (Name.fold name) =
        some ⟨name, v⟩ ∧
      ((∀ t ∈ (exec (n + 1) scope (.declare p name value)).taken m,
        ¬ t.step.Writes scope (Name.fold name) t.machine) → v = none) := by
  obtain ⟨rest, hrest, heq⟩ := exists_exec_declare n scope p name value lent
  have hdone : (Step.declareVariable scope name none (some p)).perform m =
      (.done (), m.declare scope name none) := Step.perform_declareVariable_of_new hs hnew
  have hrun : exec (n + 1) scope (.declare p name value) m =
      rest.run (m.declare scope name none) := heq ▸ Run.bind_done hdone _
  rw [hrun]
  have hlends := hm.declare scope name none
  have hdeclared := Machine.getElem?_declare hs name none
  have hvariable : (m.declare scope name none).variableAt scope (Name.fold name) =
      some ⟨name, none⟩ := by
    rw [Machine.variableAt_of_getElem? hdeclared, Scope.getVariable?_addVariable_self]
  obtain ⟨t, ht, hkept⟩ := hrest.keeps hlends hdefine id _ hdeclared
  have hspelling : t.names.lookup (Name.fold name) = some name := by
    refine hkept.spelling ?_
    rw [Scope.lookup_names, Scope.getVariable?_addVariable_self]
    rfl
  rw [Scope.lookup_names, Option.map_eq_some_iff] at hspelling
  obtain ⟨⟨_, v⟩, hv, rfl⟩ := hspelling
  have hat := (Machine.variableAt_of_getElem? ht _).trans hv
  refine ⟨v, hat, fun hwrites => ?_⟩
  have hunwritten := hrest.variableAt_eq hlends hdefine id hvariable fun t ht =>
    hwrites t (heq ▸ mem_taken_bind.mpr (.inr ⟨(), _, hdone, ht⟩))
  cases hat.symm.trans hunwritten
  rfl

/-! ## Statements in order -/

/-- The statements that a run of statements comes to, in order, each with the machine that
it is begun on. -/
def reached (scope : ScopeId) : Nat → List Statement → Machine → List (Statement × Machine)
  | n + 1, s :: rest, m =>
    (s, m) ::
      match exec n scope s m with
      | (.done .normal, m') => reached scope n rest m'
      | _ => []
  | _, _, _ => []

/-- The names that a run of statements adds to its scope, in order. -/
def added (scope : ScopeId) (n : Nat) (ss : List Statement) (m : Machine) : List String :=
  (reached scope n ss m).filterMap fun (s, m) => s.adds? scope m

variable {n : Nat} {st : Statement} {m' : Machine}

/-- After a statement that ends normally the run of the others goes on where it ended. -/
theorem execAll_cons_of_normal (hrun : exec n scope st m = (.done .normal, m'))
    (rest : List Statement) :
    execAll (n + 1) scope (st :: rest) m = execAll n scope rest m' :=
  Run.bind_done hrun _

/-- A statement that does not end normally ends the statements. -/
theorem execAll_cons_of_ne (hne : (exec n scope st m).1 ≠ .done .normal)
    (rest : List Statement) : execAll (n + 1) scope (st :: rest) m = exec n scope st m := by
  rcases hrun : exec n scope st m with ⟨flow | fault | _, m'⟩
  · cases flow with
    | normal => exact absurd (congrArg Prod.fst hrun) hne
    | _ => exact Run.bind_done hrun _
  · exact Run.bind_failed hrun _
  · exact Run.bind_outOfFuel hrun _

/-- A first statement that ends normally adds its name before those of the others. -/
theorem added_cons_of_normal (hrun : exec n scope st m = (.done .normal, m'))
    (rest : List Statement) : added scope (n + 1) (st :: rest) m =
      (st.adds? scope m).toList ++ added scope n rest m' := by
  simp only [added, reached, hrun]
  cases hadds : st.adds? scope m <;> simp [hadds]

/-- A statement that does not end normally is the last one that adds a name. -/
theorem added_cons_of_ne (hne : (exec n scope st m).1 ≠ .done .normal)
    (rest : List Statement) :
    added scope (n + 1) (st :: rest) m = (st.adds? scope m).toList := by
  have hstops : reached scope (n + 1) (st :: rest) m = [(st, m)] := by
    rcases hrun : exec n scope st m with ⟨flow | fault | _, m'⟩
    · cases flow with
      | normal => exact absurd (congrArg Prod.fst hrun) hne
      | _ => simp only [reached, hrun]
    · simp only [reached, hrun]
    · simp only [reached, hrun]
  rw [added, hstops]
  cases hadds : st.adds? scope m <;> simp [hadds]

/-- **Statements add to their scope the names that the declarations among them declare, as
far as they are reached.** -/
theorem execAll_grows (hm : m.Lends lent) (hdefine : ¬ lent .define)
    (hs : m.scopes[scope]? = some s) (n : Nat) (ss : List Statement) :
    ∃ t, (execAll n scope ss m).2.scopes[scope]? = some t ∧ s.Grows t ∧
      ((execAll n scope ss m).1 ≠ .outOfFuel →
        t.names = (added scope n ss m).reverse.map Scope.entry ++ s.names) := by
  induction n generalizing ss m s with
  | zero => exact ⟨s, hs, .refl s, fun hended => absurd rfl hended⟩
  | succ n ih =>
      cases ss with
      | nil => exact ⟨s, hs, .refl s, fun _ => rfl⟩
      | cons st rest =>
          obtain ⟨t, ht, hgrows, hnames⟩ := exec_grows hm hdefine hs n st
          have hreverse : (st.adds? scope m).toList.reverse = (st.adds? scope m).toList := by
            cases st.adds? scope m <;> rfl
          by_cases hnormal : (exec n scope st m).1 = .done .normal
          · obtain ⟨m', hrun⟩ : ∃ m', exec n scope st m = (.done .normal, m') :=
              ⟨_, Prod.ext hnormal rfl⟩
            have hlends := (((conformsUpTo lent n).exec (.ofVariables (· = scope)) scope st
              fun _ => rfl).lends_taken hm).1
            rw [hrun] at ht hnames hlends
            obtain ⟨u, hu, hgrows', hnames'⟩ := ih hlends ht rest
            rw [execAll_cons_of_normal hrun, added_cons_of_normal hrun]
            refine ⟨u, hu, hgrows.trans hgrows', fun hended => ?_⟩
            have hended' : (Outcome.done Flow.normal : Outcome Fault Flow) ≠ .outOfFuel := by
              intro h
              cases h
            rw [hnames' hended, hnames hended', List.reverse_append, hreverse, List.map_append,
              List.append_assoc]
          · rw [execAll_cons_of_ne hnormal, added_cons_of_ne hnormal, hreverse]
            exact ⟨t, ht, hgrows, hnames⟩

end Eval

/-! ## Tasks -/

/-- **The binding frame.**  On a machine that knows no function by which the host
declares variables, a task leaves every scope that is there with its functions, and with its
variables under their spelling and with a value if they had one, however the task ends.
Where the task is not to declare anything, only the values of variables change; so a script
changes nothing else in the scope of the host.

Statements in order add to their scope just the names of the declarations that are reached and
are not of names that the scope has already.  A declaration whose initial value cannot be
computed leaves its name behind, and without a value, unless its own run has written one. -/
theorem Task.binding_frame {m : Machine} (hdefine : ¬ m.Knows (.host .define)) (fuel : Nat) :
    (∀ {α : Type} (task : Task α) (i : ScopeId) (s : Scope), m.scopes[i]? = some s →
      ∃ t, (task.toEval fuel m).2.scopes[i]? = some t ∧ s.Grows t ∧
        ((i = task.scope → ¬ task.Declares) → s.Kept t)) ∧
    (∀ (scope : ScopeId) (s : Scope) (ss : List Statement), m.scopes[scope]? = some s →
      (Eval.execAll fuel scope ss m).1 ≠ .outOfFuel →
      ∃ t, (Eval.execAll fuel scope ss m).2.scopes[scope]? = some t ∧
        t.names = (Eval.added scope fuel ss m).reverse.map Scope.entry ++ s.names) ∧
    (∀ (scope : ScopeId) (p : Position) (name : String) (e : Expr) (fault : Fault) (m' : Machine),
      scope < m.scopes.size → m.variableAt scope (Name.fold name) = none →
      Eval.exec fuel scope (.declare p name (some e)) m = (.failed fault, m') →
      ∃ v, m'.variableAt scope (Name.fold name) = some ⟨name, v⟩ ∧
        ((∀ t ∈ (Eval.exec fuel scope (.declare p name (some e))).taken m,
          ¬ t.step.Writes scope (Name.fold name) t.machine) → v = none)) := by
  have hlends : m.Lends (· ≠ .define) := by
    refine Machine.lends_iff.mpr ?_
    rintro g hg rfl
    exact hdefine hg
  have hwithout : ¬ (HostFunction.define ≠ .define) := fun hne => hne rfl
  refine ⟨?_, ?_, ?_⟩
  · intro α task i s hs
    by_cases hown : i = task.scope ∧ task.Declares
    · obtain ⟨rfl, hdeclares⟩ := hown
      have hgrows : ∃ t, (task.toEval fuel m).2.scopes[task.scope]? = some t ∧ s.Grows t := by
        cases task with
        | exec scope st =>
            obtain ⟨t, ht, hgrows, _⟩ := Eval.exec_grows hlends hwithout hs fuel st
            exact ⟨t, ht, hgrows⟩
        | execAll scope ss =>
            obtain ⟨t, ht, hgrows, _⟩ := Eval.execAll_grows hlends hwithout hs fuel ss
            exact ⟨t, ht, hgrows⟩
        | _ => cases hdeclares
      obtain ⟨t, ht, hgrows⟩ := hgrows
      exact ⟨t, ht, hgrows, fun hnot => absurd hdeclares (hnot rfl)⟩
    · have hconforms : (task.toEval fuel).Conforms (· ≠ .define)
          (.ofVariables fun j => j = task.scope ∧ task.Declares) :=
        task.conforms_toEval fuel fun hdeclares => ⟨rfl, hdeclares⟩
      obtain ⟨t, ht, hkept⟩ := hconforms.keeps hlends hwithout hown s hs
      exact ⟨t, ht, hkept.toGrows, fun _ => hkept⟩
  · intro scope s ss hs hended
    obtain ⟨t, ht, _, hnames⟩ := Eval.execAll_grows hlends hwithout hs fuel ss
    exact ⟨t, ht, hnames hended⟩
  · intro scope p name e fault m' hscope hnone hrun
    have hs : m.scopes[scope]? = some m.scopes[scope] := Array.getElem?_eq_getElem hscope
    rw [Machine.variableAt_of_getElem? hs] at hnone
    cases fuel with
    | zero => cases hrun
    | succ n =>
        have hdeclared :=
          Eval.exec_declare_uninitialised hlends hwithout hs n p (some e) hnone
        rwa [hrun] at hdeclared

/-- The statement `var b = a / 0;`. -/
def Statement.secondOfThree : Statement :=
  .declare ⟨"main", 1, 12⟩ "b" (some (.binary ⟨"main", 1, 20⟩ .div ⟨"main", 1, 22⟩
    (.var ⟨"main", 1, 20⟩ "a") (.literal ⟨"main", 1, 24⟩ (.int 0))))

/-- The statements `var a = 1; var b = a / 0; var c;`. -/
def Statement.twoOfThree : List Statement :=
  [.declare ⟨"main", 1, 1⟩ "a" (some (.literal ⟨"main", 1, 9⟩ (.int 1))),
    secondOfThree, .declare ⟨"main", 1, 27⟩ "c" none]

/-- A machine whose host has a variable `x`. -/
def Machine.withCounter : Machine :=
  (Session.defineVariable "x" (.int 5) (Machine.initial 8)).2

/-- A script that assigns to `X` and then to a variable that is not there. -/
def Script.assignTwice : Script :=
  ⟨"main",
    [.ofExpr (.assign ⟨"main", 1, 1⟩ ⟨"main", 1, 1⟩ "X" (.literal ⟨"main", 1, 5⟩ (.int 7))),
      .ofExpr (.assign ⟨"main", 1, 8⟩ ⟨"main", 1, 8⟩ "y" (.literal ⟨"main", 1, 12⟩ (.int 8)))],
    []⟩

/-- The script fails and has changed the value of `x` only.  Of the three declarations the
second fails; its name is there without a value, and the third is not reached. -/
theorem Task.binding_frame_twoOfThree :
    (∃ t, ((Task.execute .assignTwice).toEval 9 Machine.withCounter).2.scopes[0]? = some t ∧
      t.names = [("x", "x")] ∧ t.getVariable? "x" = some ⟨"x", some (.int 7)⟩) ∧
    (∃ t, (Eval.execAll 9 0 Statement.twoOfThree Machine.withCounter).2.scopes[0]? = some t ∧
      t.names = [("b", "b"), ("a", "a"), ("x", "x")]) ∧
    (Eval.exec 9 0 Statement.secondOfThree Machine.withCounter).2.variableAt 0 "b" =
      some ⟨"b", none⟩ := by
  have hdefine : ¬ Machine.withCounter.Knows (.host .define) := by
    intro hknows
    rcases (Step.perform_change _ _).knows hknows with hknows | hbrought
    · exact Machine.not_knows_initial 8 _ hknows
    · exact hbrought
  obtain ⟨hkept, hnames, hfailed⟩ := binding_frame hdefine 9
  refine ⟨?_, ?_, ?_⟩
  · have hvalue : ((Task.execute .assignTwice).toEval 9 Machine.withCounter).2.variableAt 0 "x" =
        some ⟨"x", some (.int 7)⟩ := by decide +kernel
    obtain ⟨t, ht, _, hkept⟩ := hkept (.execute .assignTwice) 0 _ rfl
    rw [Machine.variableAt_of_getElem? ht] at hvalue
    exact ⟨t, ht, (hkept fun _ => id).names_eq, hvalue⟩
  · have hended : (Eval.execAll 9 0 Statement.twoOfThree Machine.withCounter).1 =
        .failed ⟨.operatorFailed "/" .divisionByZero, some ⟨"main", 1, 22⟩⟩ := by decide +kernel
    have hadded : Eval.added 0 9 Statement.twoOfThree Machine.withCounter = ["a", "b"] := by
      decide +kernel
    obtain ⟨t, ht, heq⟩ := hnames 0 _ Statement.twoOfThree rfl (by rw [hended]; intro h; cases h)
    refine ⟨t, ht, heq.trans ?_⟩
    rw [hadded]
    decide +kernel
  · have hended : (Eval.exec 9 0 Statement.secondOfThree Machine.withCounter).1 =
        .failed ⟨.variableNotDefined "a", some ⟨"main", 1, 20⟩⟩ := by decide +kernel
    have htaken : (Eval.exec 9 0 Statement.secondOfThree).taken Machine.withCounter =
        [⟨.declareVariable 0 "b" none (some ⟨"main", 1, 12⟩), Machine.withCounter⟩,
          ⟨.readVariable 0 "a" (some ⟨"main", 1, 20⟩), Machine.withCounter.declare 0 "b" none⟩] :=
      rfl
    have hunwritten : ∀ t ∈ (Eval.exec 9 0 Statement.secondOfThree).taken Machine.withCounter,
        ¬ t.step.Writes 0 (Name.fold "b") t.machine := by
      rw [htaken]
      intro t ht
      simp only [List.mem_cons, List.not_mem_nil, or_false] at ht
      rcases ht with rfl | rfl <;> exact id
    obtain ⟨v, hv, hnone⟩ := hfailed 0 _ "b" _ _ _ (by decide +kernel) (by decide +kernel)
      (Prod.ext hended rfl)
    rw [hnone hunwritten] at hv
    exact hv

/-- The statement `var x = (x = 5) / 0;`. -/
def Statement.selfFilled : Statement :=
  .declare ⟨"main", 1, 1⟩ "x" (some (.binary ⟨"main", 1, 10⟩ .div ⟨"main", 1, 17⟩
    (.assign ⟨"main", 1, 10⟩ ⟨"main", 1, 10⟩ "x" (.literal ⟨"main", 1, 14⟩ (.int 5)))
    (.literal ⟨"main", 1, 19⟩ (.int 0))))

/-- **A declaration that fails while its initial value is computed, and leaves a variable
with a value.** -/
theorem Eval.exec_selfFilled :
    (exec 9 0 Statement.selfFilled (Machine.initial 8)).1 =
      .failed ⟨.operatorFailed "/" .divisionByZero, some ⟨"main", 1, 17⟩⟩ ∧
    (exec 9 0 Statement.selfFilled (Machine.initial 8)).2.variableAt 0 "x" =
      some ⟨"x", some (.int 5)⟩ := by
  decide +kernel

end Scriptlet
