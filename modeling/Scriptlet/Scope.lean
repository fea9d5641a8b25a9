import Scriptlet.Function
import Scriptlet.Name
import Scriptlet.Value.Basic

/-!
# Scopes

A scope declares variables and functions and has a parent, in which names are
looked up that it does not declare.  All scopes stand in an arena, the host
scope first, and a scope is known by its place.  A new scope goes to the end and
has one of the scopes before it for a parent, so the way from a scope to the
host scope only goes down: from the scope at `i` it takes at most `i` steps.
-/

namespace Scriptlet

/-- The place of a scope in the arena. -/
abbrev ScopeId : Type := Nat

/-- A declared variable: its name as declared, and its value once it has one. -/
structure Variable where
  name : String
  value : Option Value
  deriving DecidableEq

/-- A scope.  Its tables are keyed by folded names. -/
structure Scope where
  parent : Option ScopeId
  vars : List (String × Variable)
  functions : List (String × Callable)

namespace Scope

/-- The scope that declares nothing. -/
def empty (parent : Option ScopeId) : Scope := ⟨parent, [], []⟩

/-- The variable with a folded name. -/
def getVariable? (s : Scope) (key : String) : Option Variable :=
  s.vars.lookup key

/-- The function with a folded name. -/
def getFunction? (s : Scope) (key : String) : Option Callable :=
  s.functions.lookup key

/-- Adds a variable. -/
def addVariable (s : Scope) (key : String) (v : Variable) : Scope :=
  { s with vars := (key, v) :: s.vars }

/-- Adds a function. -/
def addFunction (s : Scope) (key : String) (f : Callable) : Scope :=
  { s with functions := (key, f) :: s.functions }

/-- Gives the variable with a folded name a value. -/
def setVariable (s : Scope) (key : String) (value : Value) : Scope :=
  { s with
    vars := s.vars.map fun (k, v) =>
      if k == key then (k, { v with value := some value }) else (k, v) }

/-- An added variable is found under its key. -/
theorem getVariable?_addVariable_self (s : Scope) (key : String) (v : Variable) :
    (s.addVariable key v).getVariable? key = some v := by
  simp [addVariable, getVariable?]

/-- Adding a variable leaves what other keys mean alone. -/
theorem getVariable?_addVariable_of_ne (s : Scope) {key other : String} (v : Variable)
    (h : other ≠ key) : (s.addVariable key v).getVariable? other = s.getVariable? other := by
  have hne : (other == key) = false := by simpa using h
  simp [addVariable, getVariable?, List.lookup_cons, hne]

/-- What keys mean in a table after the variable with one of them was changed. -/
theorem lookup_map_key (vars : List (String × Variable)) (key other : String)
    (f : Variable → Variable) :
    (vars.map fun (k, v) => if k == key then (k, f v) else (k, v)).lookup other =
      if other = key then (vars.lookup other).map f else vars.lookup other := by
  induction vars with
  | nil => simp
  | cons entry rest ih =>
    obtain ⟨k, v⟩ := entry
    by_cases hk : k = key
    · subst hk
      by_cases ho : other = k
      · subst ho
        simp
      · have hne : (other == k) = false := by simpa using ho
        simpa [List.lookup_cons, hne, ho] using ih
    · by_cases ho : other = k
      · subst ho
        simp [hk]
      · have hne : (other == k) = false := by simpa using ho
        simpa [List.lookup_cons, hne, hk] using ih

/-- Setting a variable keeps the spelling of its declaration and replaces its value;
other keys mean what they meant. -/
theorem getVariable?_setVariable (s : Scope) (key other : String) (value : Value) :
    (s.setVariable key value).getVariable? other =
      if other = key then (s.getVariable? other).map fun v => { v with value := some value }
      else s.getVariable? other :=
  lookup_map_key s.vars key other fun v => { v with value := some value }

end Scope

/-- All scopes, the host scope first. -/
abbrev Arena : Type := Array Scope

namespace Arena

/-- The place of the host scope. -/
def host : ScopeId := 0

/-- The arena that holds an empty host scope. -/
def initial : Arena := #[Scope.empty none]

/-- The first answer that `pick` gives on the way outward from a scope, over at
most `steps` scopes. -/
def findOutward {α : Type} (arena : Arena) (pick : ScopeId → Scope → Option α) :
    (steps : Nat) → ScopeId → Option α
  | 0, _ => none
  | steps + 1, id =>
    match arena[id]? with
    | none => none
    | some scope =>
      match pick id scope with
      | some a => some a
      | none =>
        match scope.parent with
        | some parent => findOutward arena pick steps parent
        | none => none

/-- The nearest scope that declares a variable, from a scope outward. -/
def owner? (arena : Arena) (scope : ScopeId) (name : String) : Option ScopeId :=
  let key := Name.fold name
  arena.findOutward (fun id s => if (s.getVariable? key).isSome then some id else none)
    (scope + 1) scope

/-- The variable that a name means in a scope. -/
def findVariable? (arena : Arena) (scope : ScopeId) (name : String) : Option Variable :=
  let key := Name.fold name
  arena.findOutward (fun _ s => s.getVariable? key) (scope + 1) scope

/-- The function that a name means in a scope. -/
def findFunction? (arena : Arena) (scope : ScopeId) (name : String) : Option Callable :=
  let key := Name.fold name
  arena.findOutward (fun _ s => s.getFunction? key) (scope + 1) scope

/-- Declares a variable in a scope; `none` if the scope has it already. -/
def declareVariable? (arena : Arena) (scope : ScopeId) (name : String) (value : Option Value) :
    Option Arena :=
  let key := Name.fold name
  match arena[scope]? with
  | none => none
  | some s =>
    if (s.getVariable? key).isSome then none
    else some (arena.modify scope (·.addVariable key ⟨name, value⟩))

/-- Declares a function in a scope; `none` if the scope has it already. -/
def declareFunction? (arena : Arena) (scope : ScopeId) (f : Callable) : Option Arena :=
  let key := Name.fold f.signature.name
  match arena[scope]? with
  | none => none
  | some s =>
    if (s.getFunction? key).isSome then none
    else some (arena.modify scope (·.addFunction key f))

/-- Gives the variable that a name means in a scope a value; `none` if there is
no such variable. -/
def assign? (arena : Arena) (scope : ScopeId) (name : String) (value : Value) : Option Arena :=
  match arena.owner? scope name with
  | none => none
  | some owner => some (arena.modify owner (·.setVariable (Name.fold name) value))

/-- A declaration succeeds in a scope that lacks the variable, and adds it there. -/
theorem declareVariable?_eq_some_iff {arena arena' : Arena} {scope : ScopeId} {name : String}
    {value : Option Value} :
    arena.declareVariable? scope name value = some arena' ↔
      ∃ s, arena[scope]? = some s ∧ s.getVariable? (Name.fold name) = none ∧
        arena.modify scope (·.addVariable (Name.fold name) ⟨name, value⟩) = arena' := by
  cases h : arena[scope]? with
  | none => simp [declareVariable?, h]
  | some s => cases hv : s.getVariable? (Name.fold name) <;> simp [declareVariable?, h, hv]

/-- A declaration succeeds in a scope that lacks the function, and adds it there. -/
theorem declareFunction?_eq_some_iff {arena arena' : Arena} {scope : ScopeId} {f : Callable} :
    arena.declareFunction? scope f = some arena' ↔
      ∃ s, arena[scope]? = some s ∧ s.getFunction? (Name.fold f.signature.name) = none ∧
        arena.modify scope (·.addFunction (Name.fold f.signature.name) f) = arena' := by
  cases h : arena[scope]? with
  | none => simp [declareFunction?, h]
  | some s =>
    cases hf : s.getFunction? (Name.fold f.signature.name) <;> simp [declareFunction?, h, hf]

/-- An assignment succeeds where the variable is in sight, and changes its owner only. -/
theorem assign?_eq_some_iff {arena arena' : Arena} {scope : ScopeId} {name : String}
    {value : Value} :
    arena.assign? scope name value = some arena' ↔
      ∃ owner, arena.owner? scope name = some owner ∧
        arena.modify owner (·.setVariable (Name.fold name) value) = arena' := by
  cases h : arena.owner? scope name <;> simp [assign?, h]

end Arena

end Scriptlet
