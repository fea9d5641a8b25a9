import Mathlib.Data.List.Nodup
import Scriptlet.Proofs.Bindings
import Scriptlet.Proofs.LikeRuns
import Scriptlet.Proofs.Locality

/-!
# What the name of a function means

A script has a scope with the built-in functions and its own (`Scope.ofFunctions`).  If the
names of these are apart (`FunctionDef.Apart`), then in whatever order they were declared, a
name means the same there (`Scope.getFunction?_ofFunctions`, `FunctionDef.find?_eq_of_perm`).

While the code of the script runs, nothing declares functions in a scope that it can see: a
search outward passes through scopes without functions, comes to that of the script and ends
in that of the host.  `Eval.ownSteps` lists the steps of this code, and
`Eval.LocalTo.findFunction?_eq` says what a name means at each of them.
-/

namespace Scriptlet

namespace FunctionDef

/-- The name of a function as a scope keeps it. -/
def key (f : FunctionDef) : String :=
  Name.fold f.signature.name

/-- No two of the functions have one name, and none has that of a built-in function. -/
structure Apart (fs : List FunctionDef) : Prop where
  nodup : (fs.map key).Nodup
  not_builtin : ∀ f ∈ fs, ∀ b : Builtin, f.key ≠ Name.fold b.signature.name

/-- The function has the name of one of the others or of a built-in function. -/
def Clashes (f : FunctionDef) (fs : List FunctionDef) : Prop :=
  f.key ∈ fs.map key ∨ ∃ b : Builtin, f.key = Name.fold b.signature.name

namespace Apart

variable {fs gs : List FunctionDef}

/-- The order of the functions does not matter. -/
theorem perm (h : Apart fs) (hperm : gs.Perm fs) : Apart gs where
  nodup := (hperm.map key).nodup_iff.mpr h.nodup
  not_builtin f hf := h.not_builtin f (hperm.mem_iff.mp hf)

/-- One function more may be added that clashes with none. -/
theorem concat (h : Apart fs) {f : FunctionDef} (hf : ¬ f.Clashes fs) : Apart (fs ++ [f]) where
  nodup := by
    have hnew : f.key ∉ fs.map key := fun hmem => hf (.inl hmem)
    rw [List.map_append, List.map_singleton]
    exact List.nodup_append.mpr ⟨h.nodup, List.nodup_singleton _, by
      rintro k hk _ hk' rfl
      exact hnew (List.mem_singleton.mp hk' ▸ hk)⟩
  not_builtin := by
    intro g hg b heq
    rcases List.mem_append.mp hg with hg | hg
    · exact h.not_builtin g hg b heq
    · cases List.mem_singleton.mp hg
      exact hf (.inr ⟨b, heq⟩)

end Apart

/-- Where names are apart, the function of a name is the one member that has it. -/
theorem find?_eq_some_iff {fs : List FunctionDef} (hfs : Apart fs) {k : String} {f : FunctionDef} :
    fs.find? (fun g => g.key == k) = some f ↔ f ∈ fs ∧ f.key = k := by
  constructor
  · intro h
    exact ⟨List.mem_of_find?_eq_some h, by simpa using List.find?_some h⟩
  · rintro ⟨hf, rfl⟩
    have hsome : (fs.find? fun g => g.key == f.key).isSome :=
      List.find?_isSome.mpr ⟨f, hf, beq_self_eq_true _⟩
    obtain ⟨g, hg⟩ := Option.isSome_iff_exists.mp hsome
    have hkey : g.key = f.key := by simpa using List.find?_some hg
    rw [hg, List.inj_on_of_nodup_map hfs.nodup (List.mem_of_find?_eq_some hg) hf hkey]

/-- In another order the functions are found under the same names. -/
theorem find?_eq_of_perm {fs gs : List FunctionDef} (hfs : Apart fs) (hperm : gs.Perm fs)
    (k : String) : gs.find? (fun g => g.key == k) = fs.find? fun g => g.key == k := by
  apply Option.ext
  intro f
  rw [find?_eq_some_iff hfs, find?_eq_some_iff (hfs.perm hperm), hperm.mem_iff]

end FunctionDef

/-! ## The scope of a script -/

/-- A table to which entries with different keys were added one by one. -/
theorem lookup_reverse_map {α β : Type} (key : α → String) (value : α → β) {l : List α}
    (hnodup : (l.map key).Nodup) (k : String) :
    (l.map fun a => (key a, value a)).reverse.lookup k =
      (l.find? fun a => key a == k).map value := by
  induction l with
  | nil => rfl
  | cons a l ih =>
      obtain ⟨hnew, hrest⟩ := List.nodup_cons.mp hnodup
      rw [List.map_cons, List.reverse_cons, List.lookup_append, ih hrest, List.find?_cons]
      by_cases hk : key a = k
      · have hnone : l.find? (fun b => key b == k) = none := by
          rw [List.find?_eq_none]
          intro b hb hkey
          exact hnew (List.mem_map.mpr ⟨b, hb, (beq_iff_eq.mp hkey).trans hk.symm⟩)
        simp [hnone, hk]
      · have hne : (k == key a) = false := beq_eq_false_iff_ne.mpr (Ne.symm hk)
        have hne' : (key a == k) = false := beq_eq_false_iff_ne.mpr hk
        simp [List.lookup_cons, hne, hne']

namespace Scope

/-- The scope with functions of a script declared in it. -/
def withFunctions (s : Scope) : List FunctionDef → Scope
  | [] => s
  | f :: fs => (s.addFunction f.key (.script f)).withFunctions fs

/-- Functions of a script are put before those of the scope, the last one first. -/
theorem withFunctions_eq (s : Scope) (fs : List FunctionDef) :
    s.withFunctions fs = { s with
      functions := (fs.map fun f => (f.key, Callable.script f)).reverse ++ s.functions } := by
  induction fs generalizing s with
  | nil => rfl
  | cons f fs ih => simp [withFunctions, ih, addFunction]

/-- Built-in functions are put before those of the scope, the last one first. -/
theorem functions_withBuiltins (s : Scope) (fs : List Builtin) :
    (s.withBuiltins fs).functions =
      (fs.map fun f => (Name.fold f.signature.name, Callable.builtin f)).reverse ++
        s.functions := by
  induction fs generalizing s with
  | nil => rfl
  | cons f fs ih => simp [withBuiltins, ih, addFunction]

/-- The scope of a script with these functions, as the statements find it: it has the
built-in functions as well. -/
def ofFunctions (fs : List FunctionDef) : Scope :=
  ((Scope.empty (some Arena.host)).withBuiltins Builtin.all).withFunctions fs

/-- The scope of a script lies under the host scope. -/
theorem parent_ofFunctions (fs : List FunctionDef) :
    (ofFunctions fs).parent = some Arena.host := by
  rw [ofFunctions, withFunctions_eq]
  rfl

/-- The scope of a script begins without variables. -/
theorem vars_ofFunctions (fs : List FunctionDef) : (ofFunctions fs).vars = [] := by
  rw [ofFunctions, withFunctions_eq]
  rfl

/-- In the scope of a script a name means its own function, or else the built-in one. -/
theorem getFunction?_ofFunctions {fs : List FunctionDef} (h : FunctionDef.Apart fs) (k : String) :
    (ofFunctions fs).getFunction? k = ((fs.find? fun f => f.key == k).map .script).or
      ((Builtin.all.find? fun f => Name.fold f.signature.name == k).map .builtin) := by
  have hbuiltins : (Builtin.all.map fun f => Name.fold f.signature.name).Nodup := by decide
  rw [ofFunctions, getFunction?, withFunctions_eq, List.lookup_append,
    lookup_reverse_map FunctionDef.key Callable.script h.nodup, functions_withBuiltins,
    List.lookup_append,
    lookup_reverse_map (fun f : Builtin => Name.fold f.signature.name) Callable.builtin hbuiltins]
  simp [Scope.empty]

/-- The built-in functions are no obstacle to functions that are apart. -/
theorem getFunction?_ofFunctions_nil {fs : List FunctionDef} (h : FunctionDef.Apart fs)
    {f : FunctionDef} (hf : f ∈ fs) : (ofFunctions []).getFunction? f.key = none := by
  have hnil : FunctionDef.Apart [] := ⟨List.nodup_nil, fun f hf => absurd hf List.not_mem_nil⟩
  rw [getFunction?_ofFunctions hnil, List.find?_nil, Option.map_none, Option.none_or,
    Option.map_eq_none_iff, List.find?_eq_none]
  intro b _ hkey
  exact h.not_builtin f hf b (beq_iff_eq.mp hkey).symm

/-- A function that clashes with others has a name that is taken once they are declared. -/
theorem isSome_getFunction?_of_clashes {fs : List FunctionDef} (h : FunctionDef.Apart fs)
    {f : FunctionDef} (hclash : f.Clashes fs) : ((ofFunctions fs).getFunction? f.key).isSome := by
  rw [getFunction?_ofFunctions h, Option.isSome_or, Option.isSome_map, Option.isSome_map,
    Bool.or_eq_true, List.find?_isSome, List.find?_isSome]
  rcases hclash with hmem | ⟨b, hb⟩
  · obtain ⟨g, hg, hkey⟩ := List.mem_map.mp hmem
    exact .inl ⟨g, hg, beq_iff_eq.mpr hkey⟩
  · have hall : b ∈ Builtin.all := by cases b <;> decide
    exact .inr ⟨b, hall, beq_iff_eq.mpr hb.symm⟩

end Scope

/-- The function that a name means in a script: the one of that name in the script, or else
the built-in one, or else that of the host. -/
def Script.resolve? (script : Script) (host : Scope) (name : String) : Option Callable :=
  ((script.functions.find? fun f => f.key == Name.fold name).map .script).or
    (((Builtin.all.find? fun f => Name.fold f.signature.name == Name.fold name).map .builtin).or
      (host.getFunction? (Name.fold name)))

/-- The machine on which the statements of a script are run. -/
def Script.hoistedOn (script : Script) (m : Machine) : Machine :=
  m.withScope (.ofFunctions script.functions)

/-! ## Searches for functions -/

/-- What the search for functions sees of a scope. -/
def Scope.linkage (s : Scope) : Option ScopeId × List (String × Callable) :=
  (s.parent, s.functions)

namespace Arena

variable {arena arena' : Arena}

/-- A search for a function depends on the functions and parents of the scopes up to the one
where it begins. -/
theorem findOutward_getFunction?_congr (hdown : arena.Downward) {key : String} (steps : Nat)
    {i : ScopeId}
    (h : ∀ j ≤ i, arena'[j]?.map Scope.linkage = arena[j]?.map Scope.linkage) :
    arena'.findOutward (fun _ s => s.getFunction? key) steps i =
      arena.findOutward (fun _ s => s.getFunction? key) steps i := by
  induction steps generalizing i with
  | zero => rfl
  | succ steps ih =>
      have hi := h i (Nat.le_refl i)
      unfold findOutward
      cases hs : arena[i]? with
      | none =>
          rw [hs, Option.map_none, Option.map_eq_none_iff] at hi
          rw [hi]
      | some s =>
          rw [hs, Option.map_some, Option.map_eq_some_iff] at hi
          obtain ⟨t, ht, hlinkage⟩ := hi
          obtain ⟨hparent, hfunctions⟩ := Prod.mk.inj hlinkage
          have hget : t.getFunction? key = s.getFunction? key := by
            rw [Scope.getFunction?, Scope.getFunction?, hfunctions]
          rw [ht]
          simp only [hget, hparent]
          cases hfound : s.getFunction? key with
          | some f => rfl
          | none =>
              cases hparent' : s.parent with
              | none => rfl
              | some parent =>
                  have hlt : parent < i := hdown (by rw [Parent, hs, Option.map_some, hparent'])
                  exact ih fun j hj => h j (Nat.le_trans hj (Nat.le_of_lt hlt))

/-- A search has enough steps if it has more than there are scopes before the one where it
begins. -/
theorem findOutward_eq_of_lt {α : Type} (hdown : arena.Downward)
    (pick : ScopeId → Scope → Option α) {steps : Nat} {i : ScopeId} (h : i < steps) :
    arena.findOutward pick steps i = arena.findOutward pick (i + 1) i := by
  induction i using Nat.strongRecOn generalizing steps with
  | ind i ih =>
      obtain ⟨steps, rfl⟩ := Nat.exists_eq_succ_of_ne_zero (Nat.ne_zero_of_lt h)
      unfold findOutward
      cases hs : arena[i]? with
      | none => rfl
      | some s =>
          dsimp only
          cases pick i s with
          | some a => rfl
          | none =>
              cases hparent : s.parent with
              | none => rfl
              | some parent =>
                  have hlt : parent < i := hdown (by rw [Parent, hs, Option.map_some, hparent])
                  dsimp only
                  rw [ih parent hlt (Nat.lt_of_lt_of_le hlt (Nat.le_of_lt_succ h)),
                    ih parent hlt hlt]

end Arena

namespace Machine

variable {m : Machine} {s : Scope}

/-- Whether parents stand before their children is seen from the parents alone. -/
theorem downward_of_frame_eq {m' : Machine} (hdown : m.scopes.Downward)
    (hframe : m'.frame = m.frame) : m'.scopes.Downward := by
  intro i j hij
  unfold Arena.Parent at hij
  rw [parent_eq_of_frame_eq hframe i] at hij
  exact hdown hij

/-- A scope at the end has its parent before it. -/
theorem downward_withScope (hdown : m.scopes.Downward)
    (hparent : ∀ p, s.parent = some p → p < m.scopes.size) :
    (m.withScope s).scopes.Downward := by
  intro i j hij
  simp only [Arena.Parent, withScope, Array.getElem?_push] at hij
  split at hij
  next hi =>
    rw [hi]
    exact hparent j (Option.some.inj hij)
  next => exact hdown hij

/-- What a name means in a scope at the end: the function there, or what it means in the
parent. -/
theorem findFunction?_withScope (hdown : m.scopes.Downward) {parent : ScopeId}
    (hparent : s.parent = some parent) (hlt : parent < m.scopes.size) (name : String) :
    (m.withScope s).scopes.findFunction? m.scopes.size name =
      (s.getFunction? (Name.fold name)).or (m.scopes.findFunction? parent name) := by
  have hrest : (m.withScope s).scopes.findOutward (fun _ t => t.getFunction? (Name.fold name))
      m.scopes.size parent = m.scopes.findFunction? parent name := by
    rw [Arena.findOutward_getFunction?_congr hdown _ fun j hj => ?_]
    · exact Arena.findOutward_eq_of_lt hdown _ hlt
    · rw [m.getElem?_withScope_of_lt (Nat.lt_of_le_of_lt hj hlt)]
  simp only [Arena.findFunction?, Arena.findOutward, m.getElem?_withScope_self, hparent] at hrest ⊢
  cases s.getFunction? (Name.fold name) with
  | some f => rfl
  | none => exact hrest

end Machine

/-- **In the scope of a script, a name means what the script says**, or else the built-in
function, or else the function of the host. -/
theorem Script.findFunction?_hoistedOn {script : Script}
    (h : FunctionDef.Apart script.functions) {m : Machine} (hdown : m.scopes.Downward)
    {host : Scope} (hhost : m.scopes[Arena.host]? = some host) (name : String) :
    (script.hoistedOn m).scopes.findFunction? m.scopes.size name = script.resolve? host name := by
  have hlt : Arena.host < m.scopes.size := (Array.getElem?_eq_some_iff.mp hhost).1
  have hparent := Scope.parent_ofFunctions script.functions
  have houter : m.scopes.findFunction? Arena.host name = host.getFunction? (Name.fold name) := by
    simp only [Arena.findFunction?, Arena.findOutward, hhost]
    cases host.getFunction? (Name.fold name) with
    | some f => rfl
    | none => cases host.parent <;> rfl
  rw [hoistedOn, Machine.findFunction?_withScope hdown hparent hlt, houter,
    Scope.getFunction?_ofFunctions h, Option.or_assoc, resolve?]

/-- A step changes the functions of a scope only by declaring one there. -/
theorem Step.Change.linkage_eq {α : Type} {s : Step α} {m m' : Machine}
    {lent : HostFunction → Prop} {own : Territory} {i : ScopeId} (h : s.Change m m')
    (hs : s.Conforms lent own) (hi : ¬ own.functions i) :
    m'.scopes[i]?.map Scope.linkage = m.scopes[i]?.map Scope.linkage := by
  have hmodify : ∀ {j : ScopeId} {f : Scope → Scope}, (∀ s, (f s).linkage = s.linkage) →
      (m.scopes.modify j f)[i]?.map Scope.linkage = m.scopes[i]?.map Scope.linkage := by
    intro j f hf
    rw [Array.getElem?_modify]
    split
    · rw [Option.map_map]
      exact Option.map_congr fun s _ => hf s
    · rfl
  cases h with
  | declaredVariable => exact hmodify fun _ => rfl
  | @declaredFunction scope f position _ =>
      have hne : scope ≠ i := by
        rintro rfl
        exact hi hs.1
      rw [Array.getElem?_modify, if_neg hne]
  | assigned => exact hmodify fun _ => rfl
  | filled => exact hmodify fun _ => rfl
  | _ => rfl

/-! ## The code of a script -/

/-- The steps that code takes by itself, without those of the scripts that the host runs for
it: it does not look into scopes under the host scope. -/
def Eval.ownSteps {α : Type} : Eval α → Machine → List Taken
  | .pure _, _ => []
  | .bind x f, m =>
    x.ownSteps m ++
      match x.run m with
      | (.done a, m') => (f a).ownSteps m'
      | _ => []
  | .fail _, _ => []
  | .starve, _ => []
  | .step s, m => [⟨s, m⟩]
  | .inScope parent body, m =>
    if parent = Arena.host then [] else (body m.scopes.size).ownSteps (m.pushScope parent)
  | .asCall _ body, m =>
    if m.callDepth < m.maxCallDepth then body.ownSteps m.enterCall else []

namespace Eval

variable {α β : Type} {m : Machine} {own : ScopeId → Prop} {scope : ScopeId}

/-- The own steps of a sequence are those of its first part, and after a value those of its
second. -/
theorem mem_ownSteps_bind {x : Eval α} {f : α → Eval β} {t : Taken} :
    t ∈ (Eval.bind x f).ownSteps m ↔
      t ∈ x.ownSteps m ∨ ∃ a m', x.run m = (.done a, m') ∧ t ∈ (f a).ownSteps m' := by
  rcases hrun : x.run m with ⟨a | e | _, m'⟩ <;> simp [ownSteps, hrun, and_assoc]

/-- All functions of the host are lent. -/
theorem lends_all (m : Machine) : m.Lends fun _ => True :=
  Machine.lends_iff.mpr fun _ _ => trivial

/-- **Code that declares no functions in a scope leaves its functions and its parent alone.** -/
theorem Conforms.linkage_eq {x : Eval α} (hx : x.Conforms (fun _ => True) (.ofVariables own))
    {i : ScopeId} (hi : i < m.scopes.size) :
    (x.run m).2.scopes[i]?.map Scope.linkage = m.scopes[i]?.map Scope.linkage := by
  refine (x.scope_of_taken
    (I := fun s => s.map Scope.linkage = m.scopes[i]?.map Scope.linkage) hi rfl ?_).1
  intro t ht _ hbefore
  have hconforms := ((hx.lends_taken (lends_all m)).2 t ht).2
  have hchange := t.step.perform_change t.machine
  rw [← hbefore]
  exact hchange.linkage_eq hconforms fun h => h.elim id (Nat.not_le.mpr hi)

/-- So do the names mean what they meant there, in every scope that was there before. -/
theorem Conforms.findFunction?_eq {x : Eval α}
    (hx : x.Conforms (fun _ => True) (.ofVariables own)) (hdown : m.scopes.Downward)
    (hlt : scope < m.scopes.size) (name : String) :
    (x.run m).2.scopes.findFunction? scope name = m.scopes.findFunction? scope name :=
  Arena.findOutward_getFunction?_congr hdown _ fun _ hj =>
    hx.linkage_eq (Nat.lt_of_le_of_lt hj hlt)

/-- **A name means the same in all code that a piece of code leads to**: in the blocks and
loops that it enters and in the functions that it calls, at whatever depth. -/
theorem LocalTo.findFunction?_eq {x : Eval α} (hlocal : x.LocalTo scope)
    (hx : x.Conforms (fun _ => True) (.ofVariables own)) (hdown : m.scopes.Downward)
    (hlt : scope < m.scopes.size) (hscope : scope ≠ Arena.host) {i : ScopeId} {name : String}
    {position : Option Position} {m' : Machine}
    (ht : ⟨.findFunction i name position, m'⟩ ∈ x.ownSteps m) :
    i < m'.scopes.size ∧
      m'.scopes.findFunction? i name = m.scopes.findFunction? scope name := by
  induction x generalizing own scope m with
  | pure a => exact absurd ht List.not_mem_nil
  | bind x f ihx ihf =>
      rcases mem_ownSteps_bind.mp ht with ht | ⟨a, m₁, hrun, ht⟩
      · exact ihx hlocal.1 hx.1 hdown hlt hscope ht
      · have hframe := run_frame x m
        have hmeans := hx.1.findFunction?_eq hdown hlt name
        rw [hrun] at hframe hmeans
        have hgives := mayGive_of_run (lends_all m) hrun
        obtain ⟨hi, hfound⟩ :=
          ihf a (hlocal.2 a) (hx.2 a hgives) (Machine.downward_of_frame_eq hdown hframe)
          (Machine.size_eq_of_frame_eq hframe ▸ hlt) hscope ht
        exact ⟨hi, hfound.trans hmeans⟩
  | fail fault => exact absurd ht List.not_mem_nil
  | starve => exact absurd ht List.not_mem_nil
  | step s =>
      cases List.mem_singleton.mp ht
      cases hlocal
      exact ⟨hlt, rfl⟩
  | inScope parent body ih =>
      simp only [ownSteps] at ht
      split at ht
      next => exact absurd ht List.not_mem_nil
      next hparent =>
        -- a scope of the code itself, under its own scope, so no functions are declared there
        obtain rfl : parent = scope := hlocal.1.resolve_right hparent
        have hbody : (body m.scopes.size).Conforms (fun _ => True)
            (.ofVariables (· = m.scopes.size)) :=
          Territory.opened_of_ne hparent _ ▸ hx m.scopes.size
        have hdown' : (m.pushScope parent).scopes.Downward :=
          Machine.downward_withScope (s := .empty (some parent)) hdown
            fun p hp => Option.some.inj hp ▸ hlt
        obtain ⟨hi, hfound⟩ := ih m.scopes.size (hlocal.2 m.scopes.size) hbody hdown'
          m.lt_size_withScope (Nat.ne_of_gt (Nat.lt_of_le_of_lt (Nat.zero_le _) hlt)) ht
        refine ⟨hi, hfound.trans ?_⟩
        exact Machine.findFunction?_withScope hdown (s := .empty (some parent)) rfl hlt name
  | asCall position body ih =>
      simp only [ownSteps] at ht
      split at ht
      · exact ih hlocal hx (m := m.enterCall) hdown hlt hscope ht
      · exact absurd ht List.not_mem_nil

end Eval

/-- The steps of the code of a script, which are taken after its functions are declared. -/
def Script.ownSteps (script : Script) (fuel : Nat) (m : Machine) : List Taken :=
  (Eval.execAll fuel m.scopes.size script.statements).ownSteps (script.hoistedOn m)

/-- **Every call in the code of a script means the function of the script**, or else the
built-in one, or else that of the host. -/
theorem Script.findFunction?_of_mem_ownSteps {script : Script}
    (h : FunctionDef.Apart script.functions) {m : Machine} (hdown : m.scopes.Downward)
    {host : Scope} (hhost : m.scopes[Arena.host]? = some host) {fuel : Nat} {i : ScopeId}
    {name : String} {position : Option Position} {m' : Machine}
    (ht : ⟨.findFunction i name position, m'⟩ ∈ script.ownSteps fuel m) :
    i < m'.scopes.size ∧ m'.scopes.findFunction? i name = script.resolve? host name := by
  have hlt : Arena.host < m.scopes.size := (Array.getElem?_eq_some_iff.mp hhost).1
  have hparent := Scope.parent_ofFunctions script.functions
  have hdown' : (script.hoistedOn m).scopes.Downward :=
    Machine.downward_withScope hdown fun p hp => by
      rw [hparent] at hp
      exact Option.some.inj hp ▸ hlt
  have hlocal := (Eval.localUpTo fuel).execAll m.scopes.size script.statements
  have hconforms := (Eval.conformsUpTo (fun _ => True) fuel).execAll
    (.ofVariables (· = m.scopes.size)) m.scopes.size script.statements fun _ _ _ => rfl
  obtain ⟨hi, hfound⟩ := hlocal.findFunction?_eq hconforms hdown' m.lt_size_withScope
    (Nat.ne_of_gt hlt) ht
  exact ⟨hi, hfound.trans (script.findFunction?_hoistedOn h hdown hhost name)⟩

end Scriptlet
