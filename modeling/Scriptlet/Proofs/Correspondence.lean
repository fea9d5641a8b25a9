import Scriptlet.Evaluator
import Scriptlet.Proofs.Change
import Scriptlet.Proofs.Likeness
import Scriptlet.Proofs.Lockstep
import Scriptlet.Proofs.Moment

/-!
# Machines that correspond

Code that is alike is run on two machines at once.  The machines correspond if they have
the same scopes with corresponding names in them, the same values and lists, and the same
counts; they may differ in what things are called and in where functions stand.

For this a likeness of code is not enough.  A `Correspondence` also says which keys of
tables correspond, and its laws are what two runs need in order not to part: names are
told apart on one side exactly where they are on the other, and `...` and the built-in
functions keep their names.  A function of the host uses names of its own and reads
scripts of its own, so it may be known only if every name and place corresponds to
itself.

The steps of corresponding machines go in lockstep, a lemma for each step.
-/

namespace Scriptlet

/-- What corresponds to each other in two runs, and what may be in them. -/
structure Correspondence extends Likeness where
  /-- Which keys of the tables of scopes correspond. -/
  key : String → String → Prop
  /-- Which functions of the host may be known. -/
  host : HostFunction → Prop
  /-- Something may happen at no known place. -/
  unknown : Prop
  /-- The limit on calls. -/
  limit : Nat
  key_fold : ∀ {a b : String}, name a b → key (Name.fold a) (Name.fold b)
  key_iff : ∀ {k k' j j' : String}, key k k' → key j j' → (k = j ↔ k' = j')
  variadic : name Name.variadic Name.variadic
  builtin : ∀ f : Builtin, name f.signature.name f.signature.name
  reflexive : ∀ {f : HostFunction}, host f → toLikeness.Reflexive
  unknown_of_host : ∀ {f : HostFunction}, host f → unknown
  place_eq : host .location → ∀ {p q : Position}, place p q → p = q

/-- Every name corresponds to itself only, and every place to itself at least. -/
def Correspondence.sameNames (place : Position → Position → Prop) (hplace : ∀ p, place p p)
    (host : HostFunction → Prop) (hlocation : host .location → ∀ {p q}, place p q → p = q)
    (limit : Nat) : Correspondence where
  name := Eq
  place := place
  key := Eq
  host := host
  unknown := True
  limit := limit
  key_fold := congrArg Name.fold
  key_iff := Eq.congr
  variadic := rfl
  builtin _ := rfl
  reflexive _ := ⟨fun _ => rfl, hplace⟩
  unknown_of_host _ := trivial
  place_eq := hlocation

/-- Corresponding places of two runs, which may be unknown in both. -/
inductive Correspondence.Spot (c : Correspondence) : Option Position → Option Position → Prop where
  | known {p q : Position} (h : c.place p q) : Spot c (some p) (some q)
  | unknown (h : c.unknown) : Spot c none none

/-- Where corresponding places are equal, so are places that may be unknown. -/
theorem Correspondence.Spot.eq {c : Correspondence} (hplace : ∀ {p q}, c.place p q → p = q)
    {p q : Option Position} (h : c.Spot p q) : p = q := by
  cases h with
  | known h => exact congrArg some (hplace h)
  | unknown _ => rfl

/-- Corresponding entries of tables. -/
def Correspondence.Entry {α : Type} (c : Correspondence) (R : α → α → Prop)
    (x y : String × α) : Prop :=
  c.key x.1 y.1 ∧ R x.2 y.2

/-! ## What runs pass around -/

/-- Functions that are alike; one of the host may be known at all. -/
inductive Callable.Alike (c : Correspondence) : Callable → Callable → Prop where
  | script {f g : FunctionDef} (h : f.Alike c.toLikeness g) : Alike c (.script f) (.script g)
  | builtin (f : Builtin) : Alike c (.builtin f) (.builtin f)
  | host {f : HostFunction} (h : c.host f) : Alike c (.host f) (.host f)

/-- Control goes on in the same way, from corresponding places. -/
inductive Flow.Corresponds (l : Likeness) : Flow → Flow → Prop where
  | normal : Corresponds l .normal .normal
  | returned (value : Option Value) {p q : Position} (hp : l.place p q) :
      Corresponds l (.returned value p) (.returned value q)
  | broke {p q : Position} (hp : l.place p q) : Corresponds l (.broke p) (.broke q)
  | continued {p q : Position} (hp : l.place p q) : Corresponds l (.continued p) (.continued q)

/-- The cause speaks of no name and not of the limit on calls. -/
def Fault.Cause.Unnamed : Fault.Cause → Prop
  | .variableAlreadyDefined _ => False
  | .functionAlreadyDefined _ => False
  | .variableNotDefined _ => False
  | .variableNotInitialized _ => False
  | .variableNotCollection _ => False
  | .functionNotDefined _ => False
  | .parameterCountMismatch _ => False
  | .missingReturnValue _ => False
  | .callDepthExceeded _ => False
  | _ => True

/-- The same cause, of corresponding names and of one limit on calls. -/
inductive Fault.Cause.Corresponds (name : String → String → Prop) (limit : Nat) :
    Fault.Cause → Fault.Cause → Prop where
  | variableAlreadyDefined {a b : String} (h : name a b) :
      Corresponds name limit (.variableAlreadyDefined a) (.variableAlreadyDefined b)
  | functionAlreadyDefined {a b : String} (h : name a b) :
      Corresponds name limit (.functionAlreadyDefined a) (.functionAlreadyDefined b)
  | variableNotDefined {a b : String} (h : name a b) :
      Corresponds name limit (.variableNotDefined a) (.variableNotDefined b)
  | variableNotInitialized {a b : String} (h : name a b) :
      Corresponds name limit (.variableNotInitialized a) (.variableNotInitialized b)
  | variableNotCollection {a b : String} (h : name a b) :
      Corresponds name limit (.variableNotCollection a) (.variableNotCollection b)
  | functionNotDefined {a b : String} (h : name a b) :
      Corresponds name limit (.functionNotDefined a) (.functionNotDefined b)
  | parameterCountMismatch {a b : String} (h : name a b) :
      Corresponds name limit (.parameterCountMismatch a) (.parameterCountMismatch b)
  | missingReturnValue {a b : String} (h : name a b) :
      Corresponds name limit (.missingReturnValue a) (.missingReturnValue b)
  | callDepthExceeded :
      Corresponds name limit (.callDepthExceeded limit) (.callDepthExceeded limit)
  | unnamed {cause : Fault.Cause} (h : cause.Unnamed) : Corresponds name limit cause cause

/-- Corresponding causes at corresponding places. -/
structure Fault.Corresponds (c : Correspondence) (f g : Fault) : Prop where
  cause : f.cause.Corresponds c.name c.limit g.cause
  position : c.Spot f.position g.position

/-- Functions that are alike have corresponding names. -/
theorem Callable.Alike.name {c : Correspondence} {f g : Callable} (h : f.Alike c g) :
    c.name f.signature.name g.signature.name := by
  cases h with
  | script h => exact h.signature.name
  | builtin f => exact c.builtin f
  | @host f h => exact (c.reflexive h).name f.signature.name

/-- Functions that are alike accept the same numbers of arguments. -/
theorem Callable.Alike.accepts_eq {c : Correspondence} {f g : Callable} (h : f.Alike c g)
    (count : Nat) : f.signature.accepts count = g.signature.accepts count := by
  cases h with
  | script h => exact h.signature.accepts_eq count
  | builtin f => rfl
  | host h => rfl

/-! ## Scopes -/

/-- Variables with corresponding names and the same value. -/
structure Variable.Corresponds (c : Correspondence) (v w : Variable) : Prop where
  name : c.name v.name w.name
  value_eq : v.value = w.value

/-- Scopes with the same parent and corresponding variables, in the same order, in which
corresponding keys mean functions that are alike. -/
structure Scope.Corresponds (c : Correspondence) (a b : Scope) : Prop where
  parent_eq : a.parent = b.parent
  vars : List.Forall₂ (c.Entry (Variable.Corresponds c)) a.vars b.vars
  getFunction? : ∀ {k k' : String}, c.key k k' →
    Option.Rel (Callable.Alike c) (a.getFunction? k) (b.getFunction? k')

/-- The scope with built-in functions declared in it. -/
def Scope.withBuiltins (s : Scope) : List Builtin → Scope
  | [] => s
  | f :: fs => (s.addFunction (Name.fold f.signature.name) (.builtin f)).withBuiltins fs

/-- Arenas that have corresponding scopes at the same places. -/
def Arena.Corresponds (c : Correspondence) (arena arena' : Arena) : Prop :=
  ∀ i : Nat, Option.Rel (Scope.Corresponds c) arena[i]? arena'[i]?

/-- Machines with corresponding scopes that are otherwise the same. -/
structure Machine.Corresponds (c : Correspondence) (m m' : Machine) : Prop where
  scopes : m.scopes.Corresponds c m'.scopes
  heap_eq : m.heap = m'.heap
  depth_eq : m.callDepth = m'.callDepth
  limit_eq : m.maxCallDepth = c.limit
  limit_eq' : m'.maxCallDepth = c.limit
  output_eq : m.output = m'.output

namespace Correspondence

variable {α : Type} {c : Correspondence} {R : α → α → Prop} {k k' : String}
  {xs ys : List (String × α)}

/-- Corresponding keys are found in front of tables, or further on, on both sides. -/
theorem lookup_cons {j j' : String} {a b : α} (hk : c.key k k') (hj : c.key j j') (hab : R a b)
    (hrest : Option.Rel R (xs.lookup k) (ys.lookup k')) :
    Option.Rel R (((j, a) :: xs).lookup k) (((j', b) :: ys).lookup k') := by
  have hsame := c.key_iff hk hj
  rw [List.lookup_cons, List.lookup_cons]
  by_cases hkj : k = j
  · have hkj' := hsame.mp hkj
    simp only [beq_iff_eq.mpr hkj, beq_iff_eq.mpr hkj']
    exact .some hab
  · have hkj' : k' ≠ j' := fun heq => hkj (hsame.mpr heq)
    simp only [beq_eq_false_iff_ne.mpr hkj, beq_eq_false_iff_ne.mpr hkj']
    exact hrest

/-- Corresponding keys find corresponding entries. -/
theorem lookup (h : List.Forall₂ (c.Entry R) xs ys) (hk : c.key k k') :
    Option.Rel R (xs.lookup k) (ys.lookup k') := by
  induction h with
  | nil => exact .none
  | cons hxy _ ih => exact lookup_cons hk hxy.1 hxy.2 ih

end Correspondence

namespace Scope.Corresponds

variable {c : Correspondence} {a b : Scope} {k k' : String}

/-- Empty scopes with one parent correspond. -/
theorem empty (c : Correspondence) (parent : Option ScopeId) :
    (Scope.empty parent).Corresponds c (Scope.empty parent) :=
  ⟨rfl, .nil, fun _ => .none⟩

/-- Corresponding variables may be added under corresponding keys. -/
theorem addVariable (h : a.Corresponds c b) (hk : c.key k k') {v w : Variable}
    (hv : v.Corresponds c w) : (a.addVariable k v).Corresponds c (b.addVariable k' w) :=
  ⟨h.parent_eq, .cons ⟨hk, hv⟩ h.vars, h.getFunction?⟩

/-- Functions that are alike may be added under corresponding keys. -/
theorem addFunction (h : a.Corresponds c b) (hk : c.key k k') {f g : Callable}
    (hf : f.Alike c g) : (a.addFunction k f).Corresponds c (b.addFunction k' g) :=
  ⟨h.parent_eq, h.vars, fun hj => Correspondence.lookup_cons hj hk hf (h.getFunction? hj)⟩

/-- Corresponding keys mean corresponding variables. -/
theorem getVariable? (h : a.Corresponds c b) (hk : c.key k k') :
    Option.Rel (Variable.Corresponds c) (a.getVariable? k) (b.getVariable? k') :=
  Correspondence.lookup h.vars hk

/-- Built-in functions have the same names on both sides. -/
theorem withBuiltins (h : a.Corresponds c b) (fs : List Builtin) :
    (a.withBuiltins fs).Corresponds c (b.withBuiltins fs) := by
  induction fs generalizing a b with
  | nil => exact h
  | cons f fs ih => exact ih (h.addFunction (c.key_fold (c.builtin f)) (.builtin f))

/-- The same value for corresponding variables keeps scopes corresponding. -/
theorem setVariable (h : a.Corresponds c b) (hk : c.key k k') (value : Value) :
    (a.setVariable k value).Corresponds c (b.setVariable k' value) where
  parent_eq := h.parent_eq
  getFunction? := h.getFunction?
  vars := by
    simp only [Scope.setVariable, List.forall₂_map_left_iff, List.forall₂_map_right_iff]
    refine h.vars.imp ?_
    rintro ⟨j, v⟩ ⟨j', w⟩ ⟨hj, hv⟩
    have hsame := c.key_iff hj hk
    by_cases hjk : j = k
    · have hjk' := hsame.mp hjk
      simp only [beq_iff_eq.mpr hjk, beq_iff_eq.mpr hjk', if_true]
      exact ⟨hj, hv.name, rfl⟩
    · have hjk' : j' ≠ k' := fun heq => hjk (hsame.mpr heq)
      simp only [beq_eq_false_iff_ne.mpr hjk, beq_eq_false_iff_ne.mpr hjk', Bool.false_eq_true,
        if_false]
      exact ⟨hj, hv⟩

end Scope.Corresponds

/-! ## Arenas -/

/-- Related optional values are both there or both missing. -/
theorem isSome_eq_of_rel {α β : Type} {R : α → β → Prop} {a? : Option α} {b? : Option β}
    (h : Option.Rel R a? b?) : a?.isSome = b?.isSome := by
  cases h <;> rfl

namespace Arena.Corresponds

variable {α : Type} {c : Correspondence} {arena arena' : Arena} {a b : String}

/-- Corresponding arenas have equally many scopes. -/
theorem size_eq (h : arena.Corresponds c arena') : arena.size = arena'.size := by
  have hlt : ∀ i : Nat, i < arena.size ↔ i < arena'.size := by
    intro i
    have hleft : i < arena.size ↔ arena[i]?.isSome := by simp
    have hright : i < arena'.size ↔ arena'[i]?.isSome := by simp
    rw [hleft, hright, isSome_eq_of_rel (h i)]
  have hle := (hlt arena'.size).not
  have hle' := (hlt arena.size).not
  omega

/-- A change of the scopes at one place that keeps them corresponding. -/
theorem modify (h : arena.Corresponds c arena') (i : ScopeId) {f g : Scope → Scope}
    (hfg : ∀ {s t}, s.Corresponds c t → (f s).Corresponds c (g t)) :
    Arena.Corresponds c (arena.modify i f) (arena'.modify i g) := by
  intro j
  have hscopes := h j
  rw [Array.getElem?_modify, Array.getElem?_modify]
  split
  · generalize arena[j]? = s?, arena'[j]? = t? at hscopes
    cases hscopes with
    | none => exact .none
    | some hst => exact .some (hfg hst)
  · exact hscopes

/-- **Searches outward go in lockstep**, if they pick related answers from corresponding
scopes. -/
theorem findOutward {R : α → α → Prop} (h : arena.Corresponds c arena')
    {pick pick' : ScopeId → Scope → Option α}
    (hpick : ∀ {i s t}, s.Corresponds c t → Option.Rel R (pick i s) (pick' i t))
    (steps : Nat) (i : ScopeId) :
    Option.Rel R (arena.findOutward pick steps i) (arena'.findOutward pick' steps i) := by
  induction steps generalizing i with
  | zero => exact .none
  | succ steps ih =>
      have hscopes := h i
      simp only [Arena.findOutward]
      generalize arena[i]? = s?, arena'[i]? = t? at hscopes
      cases hscopes with
      | none => exact .none
      | @some s t hst =>
          have hpicked := hpick (i := i) hst
          dsimp only
          generalize pick i s = x?, pick' i t = y? at hpicked
          cases hpicked with
          | some hxy => exact .some hxy
          | none =>
              rw [hst.parent_eq]
              cases t.parent with
              | none => exact .none
              | some parent => exact ih parent

/-- Corresponding names mean corresponding variables, found at the same place. -/
theorem findVariable? (h : arena.Corresponds c arena') (scope : ScopeId) (hname : c.name a b) :
    Option.Rel (Variable.Corresponds c) (arena.findVariable? scope a)
      (arena'.findVariable? scope b) :=
  h.findOutward (fun hst => hst.getVariable? (c.key_fold hname)) (scope + 1) scope

/-- Corresponding names mean functions that are alike. -/
theorem findFunction? (h : arena.Corresponds c arena') (scope : ScopeId) (hname : c.name a b) :
    Option.Rel (Callable.Alike c) (arena.findFunction? scope a) (arena'.findFunction? scope b) :=
  h.findOutward (fun hst => hst.getFunction? (c.key_fold hname)) (scope + 1) scope

/-- Corresponding names mean variables of the same scope. -/
theorem owner?_eq (h : arena.Corresponds c arena') (scope : ScopeId) (hname : c.name a b) :
    Option.Rel Eq (arena.owner? scope a) (arena'.owner? scope b) := by
  unfold Arena.owner?
  refine h.findOutward ?_ (scope + 1) scope
  intro i s t hst
  rw [isSome_eq_of_rel (hst.getVariable? (c.key_fold hname))]
  split
  · exact .some rfl
  · exact .none

/-- A declaration, of a variable or of a function, fails on both sides or keeps arenas
corresponding. -/
theorem declare (h : arena.Corresponds c arena') (scope : ScopeId) {taken taken' : Scope → Bool}
    {add add' : Scope → Scope}
    (htaken : ∀ {s t}, s.Corresponds c t → taken s = taken' t)
    (hadd : ∀ {s t}, s.Corresponds c t → (add s).Corresponds c (add' t)) :
    Option.Rel (Arena.Corresponds c)
      (match arena[scope]? with
        | none => none
        | some s => if taken s then none else some (arena.modify scope add))
      (match arena'[scope]? with
        | none => none
        | some t => if taken' t then none else some (arena'.modify scope add')) := by
  have hscopes := h scope
  have hmodified := h.modify scope hadd
  generalize arena[scope]? = s?, arena'[scope]? = t? at hscopes
  cases hscopes with
  | none => exact .none
  | some hst =>
      dsimp only
      rw [htaken hst]
      split
      · exact .none
      · exact .some hmodified

/-- A declaration of corresponding names fails in both arenas or keeps them
corresponding. -/
theorem declareVariable? (h : arena.Corresponds c arena') (scope : ScopeId) (hname : c.name a b)
    (value : Option Value) :
    Option.Rel (Arena.Corresponds c) (arena.declareVariable? scope a value)
      (arena'.declareVariable? scope b value) :=
  h.declare scope (fun hst => isSome_eq_of_rel (hst.getVariable? (c.key_fold hname)))
    fun hst => hst.addVariable (c.key_fold hname) ⟨hname, rfl⟩

/-- A declaration of functions that are alike fails in both arenas or keeps them
corresponding. -/
theorem declareFunction? (h : arena.Corresponds c arena') (scope : ScopeId) {f g : Callable}
    (hname : c.name f.signature.name g.signature.name) (hf : f.Alike c g) :
    Option.Rel (Arena.Corresponds c) (arena.declareFunction? scope f)
      (arena'.declareFunction? scope g) :=
  h.declare scope (fun hst => isSome_eq_of_rel (hst.getFunction? (c.key_fold hname)))
    fun hst => hst.addFunction (c.key_fold hname) hf

/-- An assignment to corresponding names fails in both arenas or keeps them
corresponding. -/
theorem assign? (h : arena.Corresponds c arena') (scope : ScopeId) (hname : c.name a b)
    (value : Value) :
    Option.Rel (Arena.Corresponds c) (arena.assign? scope a value)
      (arena'.assign? scope b value) := by
  have howner := h.owner?_eq scope hname
  unfold Arena.assign?
  generalize arena.owner? scope a = i?, arena'.owner? scope b = j? at howner
  cases howner with
  | none => exact .none
  | @some i j hij =>
      subst hij
      exact .some (h.modify i fun hst => hst.setVariable (c.key_fold hname) value)

end Arena.Corresponds

/-! ## Machines and computations -/

/-- The machine with one scope more at the end. -/
def Machine.withScope (m : Machine) (s : Scope) : Machine :=
  { m with scopes := m.scopes.push s }

/-- Two computations that go in lockstep on corresponding machines, to values that `R`
relates. -/
def Eval.Alike {α : Type} (c : Correspondence) (R : α → α → Prop) (x y : Eval α) : Prop :=
  Run.Lockstep (Machine.Corresponds c) (Fault.Corresponds c) R x.run y.run

namespace Machine.Corresponds

variable {c : Correspondence} {m m' : Machine}

/-- Corresponding scopes at the ends of corresponding machines. -/
theorem withScope (h : m.Corresponds c m') {s t : Scope} (hst : s.Corresponds c t) :
    (m.withScope s).Corresponds c (m'.withScope t) where
  scopes i := by
    simp only [Machine.withScope, Array.getElem?_push, h.scopes.size_eq]
    split
    · exact .some hst
    · exact h.scopes i
  heap_eq := h.heap_eq
  depth_eq := h.depth_eq
  limit_eq := h.limit_eq
  limit_eq' := h.limit_eq'
  output_eq := h.output_eq

/-- New scopes under one parent correspond. -/
theorem pushScope (h : m.Corresponds c m') (parent : ScopeId) :
    (m.pushScope parent).Corresponds c (m'.pushScope parent) :=
  h.withScope (.empty c (some parent))

/-- The scopes that are kept correspond. -/
theorem keepScopes (h : m.Corresponds c m') (count : Nat) :
    (m.keepScopes count).Corresponds c (m'.keepScopes count) where
  scopes i := by
    rw [getElem?_keepScopes, getElem?_keepScopes]
    split
    · exact h.scopes i
    · exact .none
  heap_eq := h.heap_eq
  depth_eq := h.depth_eq
  limit_eq := h.limit_eq
  limit_eq' := h.limit_eq'
  output_eq := h.output_eq

/-- A call begins on both machines. -/
theorem enterCall (h : m.Corresponds c m') : m.enterCall.Corresponds c m'.enterCall :=
  ⟨h.scopes, h.heap_eq, congrArg (· + 1) h.depth_eq, h.limit_eq, h.limit_eq', h.output_eq⟩

/-- A call ends on both machines. -/
theorem leaveCall (h : m.Corresponds c m') : m.leaveCall.Corresponds c m'.leaveCall :=
  ⟨h.scopes, h.heap_eq, congrArg (· - 1) h.depth_eq, h.limit_eq, h.limit_eq', h.output_eq⟩

/-- Corresponding scopes may be put in place of the scopes. -/
theorem withScopes (h : m.Corresponds c m') {scopes scopes' : Arena}
    (hscopes : scopes.Corresponds c scopes') :
    { m with scopes }.Corresponds c { m' with scopes := scopes' } :=
  ⟨hscopes, h.heap_eq, h.depth_eq, h.limit_eq, h.limit_eq', h.output_eq⟩

/-- The same lists may be put in place of the lists. -/
theorem withHeap (h : m.Corresponds c m') (heap : Heap) :
    { m with heap }.Corresponds c { m' with heap } :=
  ⟨h.scopes, rfl, h.depth_eq, h.limit_eq, h.limit_eq', h.output_eq⟩

end Machine.Corresponds

/-- A function is like itself if names and places correspond to themselves, and if it may be
known. -/
theorem Callable.alike_refl {c : Correspondence} (hrefl : c.toLikeness.Reflexive) {f : Callable}
    (hhost : ∀ g, f = .host g → c.host g) : f.Alike c f := by
  cases f with
  | script f => exact .script (FunctionDef.alike_refl hrefl f)
  | builtin f => exact .builtin f
  | host f => exact .host (hhost f rfl)

/-- A machine corresponds to itself if names and places do, and if it knows no other function
of the host than it may. -/
theorem Machine.corresponds_refl {c : Correspondence} (hrefl : c.toLikeness.Reflexive)
    (hkey : ∀ {k k'}, c.key k k' ↔ k = k') {m : Machine}
    (hhost : ∀ f, m.Knows (.host f) → c.host f) (hlimit : m.maxCallDepth = c.limit) :
    m.Corresponds c m where
  scopes i := by
    cases hs : m.scopes[i]? with
    | none => exact .none
    | some s =>
        have hvars : List.Forall₂ (c.Entry (Variable.Corresponds c)) s.vars s.vars :=
          List.forall₂_same.mpr fun entry _ => ⟨hkey.mpr rfl, hrefl.name _, rfl⟩
        refine .some ⟨rfl, hvars, fun {k k'} hk => ?_⟩
        obtain rfl := hkey.mp hk
        cases hf : s.getFunction? k with
        | none => exact .none
        | some f =>
            refine .some (Callable.alike_refl hrefl ?_)
            rintro g rfl
            exact hhost g ⟨i, s, k, hs, hf⟩
  heap_eq := rfl
  depth_eq := rfl
  limit_eq := hlimit
  limit_eq' := hlimit
  output_eq := rfl

namespace Eval

variable {α β : Type} {c : Correspondence} {R : α → α → Prop} {Q : β → β → Prop}
  {a b : String} {p q : Option Position}

/-- Related values are given in lockstep. -/
theorem alike_pure {x y : α} (h : R x y) : (pure x : Eval α).Alike c R (pure y) :=
  fun _ _ hm => .done h hm

/-- Corresponding faults are in lockstep. -/
theorem alike_fail {f g : Fault} (h : f.Corresponds c g) :
    (Eval.fail f : Eval α).Alike c R (.fail g) :=
  fun _ _ hm => .failed h hm

/-- Faults of corresponding causes at corresponding places are in lockstep. -/
theorem alike_fault {cause cause' : Fault.Cause} (h : cause.Corresponds c.name c.limit cause')
    (hp : c.Spot p q) : (fault cause p : Eval α).Alike c R (fault cause' q) :=
  alike_fail ⟨h, hp⟩

theorem alike_starve : (Eval.starve : Eval α).Alike c R .starve :=
  fun _ _ hm => .outOfFuel hm

/-- The rule for sequences: related values lead to second parts that are alike. -/
theorem Alike.bind {x y : Eval α} {f g : α → Eval β} (hx : x.Alike c R y)
    (hf : ∀ a b, R a b → (f a).Alike c Q (g b)) : (x >>= f).Alike c Q (y >>= g) :=
  Run.Lockstep.bind hx hf

/-- A sequence whose first part gives the same on both sides. -/
theorem Alike.bind_same {x y : Eval α} {f g : α → Eval β} (hx : x.Alike c Eq y)
    (hf : ∀ a, (f a).Alike c Q (g a)) : (x >>= f).Alike c Q (y >>= g) := by
  refine hx.bind ?_
  rintro a _ rfl
  exact hf a

/-- Two computations in new scopes go in lockstep if their bodies do there. -/
theorem alike_inScope_of_run (parent : ScopeId) {f g : ScopeId → Eval α}
    (hbody : ∀ {m m' : Machine}, m.Corresponds c m' →
      Run.Ends (Machine.Corresponds c) (Fault.Corresponds c) R
        ((f m.scopes.size).run (m.pushScope parent))
        ((g m.scopes.size).run (m'.pushScope parent))) :
    (inScope parent f).Alike c R (inScope parent g) := by
  intro m m' hm
  have hends := hbody hm
  simp only [run, ← hm.scopes.size_eq]
  generalize (f m.scopes.size).run (m.pushScope parent) = r,
    (g m.scopes.size).run (m'.pushScope parent) = r' at hends
  cases hends with
  | done h hs => exact .done h (hs.keepScopes _)
  | failed h hs => exact .failed h (hs.keepScopes _)
  | outOfFuel hs => exact .outOfFuel (hs.keepScopes _)

/-- The rule for scopes: the new ones have the same number on both sides. -/
theorem alike_inScope (parent : ScopeId) {f g : ScopeId → Eval α}
    (hbody : ∀ i, (f i).Alike c R (g i)) : (inScope parent f).Alike c R (inScope parent g) :=
  alike_inScope_of_run parent fun hm => hbody _ (hm.pushScope parent)

/-- Two calls go in lockstep if their bodies do: the same number of calls is in progress,
and the limit is the same. -/
theorem alike_asCall (hp : c.Spot p q) {x y : Eval α} (hx : x.Alike c R y) :
    (asCall p x).Alike c R (asCall q y) := by
  intro m m' hm
  simp only [run, hm.limit_eq, hm.limit_eq', ← hm.depth_eq]
  split
  · have hends := hx hm.enterCall
    have hdepth := hends.state.depth_eq
    generalize x.run m.enterCall = r, y.run m'.enterCall = r' at hends hdepth
    rw [hdepth]
    split
    · exact .failed ⟨.unnamed trivial, hp⟩ hends.state
    · cases hends with
      | done h hs => exact .done h hs.leaveCall
      | failed h hs => exact .failed h hs.leaveCall
      | outOfFuel hs => exact .outOfFuel hs.leaveCall
  · exact .failed ⟨.callDepthExceeded, hp⟩ hm

/-! ## Steps on scopes -/

/-- A step in a scope that is there on both sides or on neither. -/
theorem lockstep_inArena (scope : ScopeId) (hp : c.Spot p q) {x y : Run Machine Fault α}
    (hx : Run.Lockstep (Machine.Corresponds c) (Fault.Corresponds c) R x y) :
    Run.Lockstep (Machine.Corresponds c) (Fault.Corresponds c) R (Step.inArena scope p x)
      (Step.inArena scope q y) := by
  intro m m' hm
  unfold Step.inArena
  rw [hm.scopes.size_eq]
  split
  · exact hx hm
  · exact .failed ⟨.unnamed trivial, hp⟩ hm

/-- A step that puts other scopes in the place of those that are there, or fails. -/
theorem lockstep_withScopes {change change' : Arena → Option Arena} {f g : Fault}
    (hchange : ∀ {arena arena'}, Arena.Corresponds c arena arena' →
      Option.Rel (Arena.Corresponds c) (change arena) (change' arena'))
    (hf : f.Corresponds c g) :
    Run.Lockstep (Machine.Corresponds c) (Fault.Corresponds c) Eq
      (fun m => match change m.scopes with
        | some scopes => (.done (), { m with scopes })
        | none => (.failed f, m))
      (fun m => match change' m.scopes with
        | some scopes => (.done (), { m with scopes })
        | none => (.failed g, m)) := by
  intro m m' hm
  have hscopes := hchange hm.scopes
  dsimp only
  generalize change m.scopes = s?, change' m'.scopes = t? at hscopes
  cases hscopes with
  | none => exact .failed hf hm
  | some harenas => exact .done rfl (hm.withScopes harenas)

/-- Variables with corresponding names are declared in lockstep. -/
theorem alike_declareVariable (scope : ScopeId) (hname : c.name a b) (value : Option Value)
    (hp : c.Spot p q) :
    (declareVariable scope a value p).Alike c Eq (declareVariable scope b value q) :=
  lockstep_inArena scope hp (lockstep_withScopes
    (fun h => h.declareVariable? scope hname value) ⟨.variableAlreadyDefined hname, hp⟩)

/-- Functions that are alike are declared in lockstep. -/
theorem alike_declareFunction (scope : ScopeId) {f g : Callable}
    (hname : c.name f.signature.name g.signature.name) (hf : f.Alike c g) (hp : c.Spot p q) :
    (declareFunction scope f p).Alike c Eq (declareFunction scope g q) :=
  lockstep_inArena scope hp (lockstep_withScopes
    (fun h => h.declareFunction? scope hname hf) ⟨.functionAlreadyDefined hname, hp⟩)

/-- Variables with corresponding names are assigned in lockstep. -/
theorem alike_assignVariable (scope : ScopeId) (hname : c.name a b) (value : Value)
    (hp : c.Spot p q) :
    (assignVariable scope a value p).Alike c Eq (assignVariable scope b value q) :=
  lockstep_inArena scope hp (lockstep_withScopes
    (fun h => h.assign? scope hname value) ⟨.variableNotDefined hname, hp⟩)

/-- Variables with corresponding names are filled in lockstep. -/
theorem alike_fillVariable (scope : ScopeId) (hname : c.name a b) (value : Value)
    (hp : c.Spot p q) :
    (fillVariable scope a value p).Alike c Eq (fillVariable scope b value q) :=
  alike_assignVariable scope hname value hp

/-- Variables with corresponding names have the same value, or both have none. -/
theorem alike_readVariable (scope : ScopeId) (hname : c.name a b) (hp : c.Spot p q) :
    (readVariable scope a p).Alike c Eq (readVariable scope b q) := by
  refine lockstep_inArena scope hp ?_
  intro m m' hm
  have hfound := hm.scopes.findVariable? scope hname
  dsimp only
  generalize m.scopes.findVariable? scope a = v?, m'.scopes.findVariable? scope b = w? at hfound
  cases hfound with
  | none => exact .failed ⟨.variableNotDefined hname, hp⟩ hm
  | @some v w hvw =>
      obtain ⟨_, value⟩ := v
      obtain ⟨_, value'⟩ := w
      obtain rfl : value = value' := hvw.value_eq
      cases value with
      | none => exact .failed ⟨.variableNotInitialized hname, hp⟩ hm
      | some value => exact .done rfl hm

/-- Corresponding names mean functions that are alike, or both mean none. -/
theorem alike_findFunction (scope : ScopeId) (hname : c.name a b) (hp : c.Spot p q) :
    (findFunction scope a p).Alike c (Callable.Alike c) (findFunction scope b q) := by
  refine lockstep_inArena scope hp ?_
  intro m m' hm
  have hfound := hm.scopes.findFunction? scope hname
  dsimp only
  generalize m.scopes.findFunction? scope a = f?, m'.scopes.findFunction? scope b = g? at hfound
  cases hfound with
  | none => exact .failed ⟨.functionNotDefined hname, hp⟩ hm
  | some hfg => exact .done hfg hm

/-- The extra arguments are the same on both sides. -/
theorem alike_extraArguments (scope : ScopeId) (hp : c.Spot p q) :
    (extraArguments scope p).Alike c Eq (extraArguments scope q) := by
  refine lockstep_inArena scope hp ?_
  intro m m' hm
  have hfound := hm.scopes.findVariable? scope c.variadic
  dsimp only
  rw [hm.heap_eq]
  generalize m.scopes.findVariable? scope Name.variadic = v?,
    m'.scopes.findVariable? scope Name.variadic = w? at hfound
  cases hfound with
  | none => exact .done rfl hm
  | @some v w hvw =>
      obtain ⟨_, value⟩ := v
      obtain ⟨_, value'⟩ := w
      obtain rfl : value = value' := hvw.value_eq
      split
      next heq =>
        cases heq
        exact .done rfl hm
      next hother =>
        split
        next id heq =>
          cases heq
          exact absurd rfl (hother _ _)
        next => exact .done rfl hm

/-! ## Steps on lists -/

/-- A step on a list that is there on both sides or on neither. -/
theorem lockstep_onList (id : ListId) (hp : c.Spot p q)
    {x y : List Value → Run Machine Fault α}
    (hx : ∀ items,
      Run.Lockstep (Machine.Corresponds c) (Fault.Corresponds c) R (x items) (y items)) :
    Run.Lockstep (Machine.Corresponds c) (Fault.Corresponds c) R (Step.onList id p x)
      (Step.onList id q y) := by
  intro m m' hm
  unfold Step.onList
  rw [hm.heap_eq]
  split
  · exact hx _ hm
  · exact .failed ⟨.unnamed trivial, hp⟩ hm

/-- Elements of a list are replaced in lockstep, since both sides have the same lists. -/
theorem lockstep_replaceItems (id : ListId) (items : List Value) :
    Run.Lockstep (Machine.Corresponds c) (Fault.Corresponds c) Eq (Step.replaceItems id items)
      (Step.replaceItems id items) := by
  intro m m' hm
  have hafter := hm.withHeap (m'.heap.modify id fun _ => items)
  simp only [Step.replaceItems, Run.update, hm.heap_eq]
  exact .done rfl hafter

/-- The elements of a list are the same on both sides. -/
theorem alike_listItems (id : ListId) (hp : c.Spot p q) :
    (listItems id p).Alike c Eq (listItems id q) :=
  lockstep_onList id hp fun _ => .pure rfl

/-- An element is read in lockstep. -/
theorem alike_readElement (id : ListId) (i : Nat) (hp : c.Spot p q) :
    (readElement id i p).Alike c Eq (readElement id i q) := by
  have hfault : (Fault.mk (.brokenAccess .element) p).Corresponds c ⟨.brokenAccess .element, q⟩ :=
    ⟨.unnamed trivial, hp⟩
  unfold Alike
  simp only [run, Step.perform]
  refine lockstep_onList id hp fun items => .ofOption hfault ?_
  cases items[i]? with
  | none => exact .none
  | some v => exact .some rfl

/-- An element is written in lockstep. -/
theorem alike_writeElement (id : ListId) (i : Nat) (v : Value) (hp : c.Spot p q) :
    (writeElement id i v p).Alike c Eq (writeElement id i v q) := by
  unfold Alike
  simp only [run, Step.perform]
  refine lockstep_onList id hp fun items => ?_
  split
  · exact lockstep_replaceItems id (items.set i v)
  · exact .fail ⟨.unnamed trivial, hp⟩

/-- A list is lengthened in lockstep. -/
theorem alike_appendItem (id : ListId) (v : Value) (hp : c.Spot p q) :
    (appendItem id v p).Alike c Eq (appendItem id v q) :=
  lockstep_onList id hp fun items => lockstep_replaceItems id (items ++ [v])

/-- A list is cleared in lockstep. -/
theorem alike_clearList (id : ListId) (hp : c.Spot p q) :
    (clearList id p).Alike c Eq (clearList id q) :=
  lockstep_onList id hp fun _ => lockstep_replaceItems id []

/-- A new list gets the same number on both sides. -/
theorem alike_newList (items : List Value) : (newList items).Alike c Eq (newList items) := by
  intro m m' hm
  have hafter := hm.withHeap (m'.heap.alloc items).2
  simp only [run, Step.perform, hm.heap_eq]
  exact .done rfl hafter

/-- A value has the same text on both sides. -/
theorem alike_render (v : Value) : (render v).Alike c Eq (render v) :=
  fun _ _ hm => .done (congrArg (·.render v) hm.heap_eq) hm

/-- The same line is printed on both sides. -/
theorem alike_printLine (line : String) : (printLine line).Alike c Eq (printLine line) := by
  intro m m' hm
  refine .done rfl ⟨hm.scopes, hm.heap_eq, hm.depth_eq, hm.limit_eq, hm.limit_eq', ?_⟩
  exact congrArg (·.push line) hm.output_eq

/-- An operator gives the same value, or fails for the same reason, on both sides. -/
theorem alike_applyBinary (op : BinaryOp) (v w : Value) (hp : c.Spot p q) :
    (applyBinary op v w p).Alike c Eq (applyBinary op v w q) := by
  intro m m' hm
  simp only [run, Step.perform, hm.heap_eq]
  split
  next result heap _ => exact .done rfl (hm.withHeap heap)
  next => exact .failed ⟨.unnamed trivial, hp⟩ hm

end Eval

end Scriptlet
