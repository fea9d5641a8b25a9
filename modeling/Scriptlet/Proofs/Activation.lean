import Mathlib.Data.List.Induction
import Scriptlet.Proofs.Bindings
import Scriptlet.Proofs.Resolution

/-!
# The scope of a call

A function is run in a scope of its own.  Its parameters are bound there to the arguments, one
after the other, and `...` to a list of the other arguments if the function is variadic.  If
all these names are different, the scope holds exactly them (`Machine.activated`), and what is
read from it are the arguments, whatever the scopes of the caller hold
(`Machine.holdsArguments_activated`).  The first name that means the same as one before it
cannot be bound (`Eval.run_bindArguments_of_repeated`).
-/

namespace Scriptlet

/-! ## Names and values -/

/-- The name is the first that means the same as one before it. -/
def Name.Repeated (names : List String) (name : String) : Prop :=
  ∃ before after, names = before ++ name :: after ∧ (before.map Name.fold).Nodup ∧
    Name.fold name ∈ before.map Name.fold

/-- Names of which one is repeated are not all different. -/
theorem Name.Repeated.not_nodup {names : List String} {name : String} (h : Repeated names name) :
    ¬ (names.map Name.fold).Nodup := by
  obtain ⟨before, after, rfl, -, hmem⟩ := h
  rw [List.map_append, List.map_cons]
  intro hnodup
  exact List.disjoint_of_nodup_append hnodup hmem List.mem_cons_self

/-- Of names that are not all different one is the first to be repeated.  By induction from
the end of the list. -/
theorem Name.exists_repeated {names : List String} (h : ¬ (names.map Name.fold).Nodup) :
    ∃ name, Repeated names name := by
  induction names using List.reverseRecOn with
  | nil => exact absurd List.nodup_nil h
  | append_singleton names last ih =>
      by_cases hnodup : (names.map Name.fold).Nodup
      · refine ⟨last, names, [], rfl, hnodup, ?_⟩
        by_contra hmem
        apply h
        rw [List.map_append, List.map_singleton, List.nodup_append]
        exact ⟨hnodup, List.nodup_singleton _, by simpa using hmem⟩
      · obtain ⟨name, before, after, rfl, hbefore, hmem⟩ := ih hnodup
        exact ⟨name, before, after ++ [last], by simp, hbefore, hmem⟩

/-- The names of a list of pairs are those that were paired. -/
theorem Name.map_fold_zip {names : List String} {values : List Value}
    (hlength : names.length ≤ values.length) :
    ((names.zip values).map fun b => Name.fold b.1) = names.map Name.fold := by
  have hnames : (names.zip values).map Prod.fst = names := List.map_fst_zip hlength
  nth_rewrite 2 [← hnames]
  rw [List.map_map]
  rfl

/-- The names that a call of the function binds, with their values.  The extra arguments are in
the list `rest`. -/
def Signature.bound (s : Signature) (values : List Value) (rest : ListId) :
    List (String × Value) :=
  s.params.zip values ++ if s.variadic then [(Name.variadic, .list rest)] else []

/-- The names that a call of the function binds. -/
def Signature.names (s : Signature) : List String :=
  s.params ++ if s.variadic then [Name.variadic] else []

/-- A call that is accepted has an argument for every parameter. -/
theorem Signature.length_le_of_accepts {s : Signature} {count : Nat}
    (h : s.accepts count = true) : s.params.length ≤ count := by
  unfold accepts at h
  split at h
  · exact of_decide_eq_true h
  · exact Nat.le_of_eq (beq_iff_eq.mp h).symm

/-- All names are different if the parameters are and none has the name of the extra
arguments. -/
theorem Signature.nodup_names_iff {s : Signature} :
    (s.names.map Name.fold).Nodup ↔ (s.params.map Name.fold).Nodup ∧
      ¬ (s.variadic = true ∧ Name.fold Name.variadic ∈ s.params.map Name.fold) := by
  by_cases hvariadic : s.variadic = true
  · rw [names, if_pos hvariadic, List.map_append, List.map_singleton, List.nodup_append]
    simp [hvariadic]
  · simp [names, hvariadic]

/-- The scope of a call, with names bound in it, the last one first. -/
def Scope.activation (caller : ScopeId) (bound : List (String × Value)) : Scope :=
  ⟨some caller, (bound.map fun b => (Name.fold b.1, ⟨b.1, some b.2⟩)).reverse, []⟩

namespace Machine

/-- The machine with the scope of a call at the end. -/
def opened (m : Machine) (caller : ScopeId) (bound : List (String × Value)) : Machine :=
  { m with scopes := m.scopes.push (.activation caller bound) }

/-- The machine with one more list. -/
def withList (m : Machine) (items : List Value) : Machine :=
  { m with heap := (m.heap.alloc items).2 }

/-- The machine on which a function is run: one more call is in progress, and the scope of the
call holds the arguments, the extra ones in a new list. -/
def activated (m : Machine) (caller : ScopeId) (s : Signature) (values : List Value) : Machine :=
  { m.enterCall with
    scopes := m.scopes.push (.activation caller (s.bound values m.heap.size))
    heap := if s.variadic then (m.heap.alloc (values.drop s.params.length)).2 else m.heap }

end Machine

section Activation

variable {m : Machine} {caller : ScopeId} {bound : List (String × Value)}

/-- The scope of a call has the names that were bound, and no others. -/
theorem Scope.isSome_getVariable?_activation {key : String} :
    ((Scope.activation caller bound).getVariable? key).isSome = true ↔
      key ∈ bound.map fun b => Name.fold b.1 := by
  rw [getVariable?, List.lookup_isSome_iff]
  simp [activation, eq_comm (a := key)]

/-- Names that are all different have the values that were bound to them. -/
theorem Scope.getVariable?_activation (hnodup : (bound.map fun b => Name.fold b.1).Nodup)
    {name : String} {v : Value} (hmem : (name, v) ∈ bound) :
    (Scope.activation caller bound).getVariable? (Name.fold name) = some ⟨name, some v⟩ := by
  have hfind : bound.find? (fun b => Name.fold b.1 == Name.fold name) = some (name, v) := by
    cases hfound : bound.find? fun b => Name.fold b.1 == Name.fold name with
    | none =>
        have hnone := List.find?_eq_none.mp hfound _ hmem
        simp at hnone
    | some b =>
        have hkey : Name.fold b.1 = Name.fold name := by simpa using List.find?_some hfound
        rw [List.inj_on_of_nodup_map hnodup (List.mem_of_find?_eq_some hfound) hmem hkey]
  rw [getVariable?, activation, lookup_reverse_map (fun b : String × Value => Name.fold b.1)
    (fun b => Variable.mk b.1 (some b.2)) hnodup, hfind, Option.map_some]

namespace Machine

/-- The scope that was opened last is the activation with the bound names. -/
theorem getElem?_opened (m : Machine) (caller : ScopeId) (bound : List (String × Value)) :
    (m.opened caller bound).scopes[m.scopes.size]? = some (.activation caller bound) :=
  Array.getElem?_push_size

/-- Binding one more name. -/
theorem declare_opened (m : Machine) (caller : ScopeId) (bound : List (String × Value))
    (name : String) (v : Value) :
    (m.opened caller bound).declare m.scopes.size name (some v) =
      m.opened caller (bound ++ [(name, v)]) := by
  have hscopes : (m.scopes.push (.activation caller bound)).modify m.scopes.size
      (·.addVariable (Name.fold name) ⟨name, some v⟩) =
        m.scopes.push (.activation caller (bound ++ [(name, v)])) := by
    apply Array.ext_getElem?
    intro i
    rw [Array.getElem?_modify, Array.getElem?_push, Array.getElem?_push]
    by_cases hi : m.scopes.size = i
    · subst hi
      simp [Scope.activation, Scope.addVariable]
    · rw [if_neg hi, if_neg (Ne.symm hi), if_neg (Ne.symm hi)]
  simp only [declare, opened, hscopes]

/-- The scope of a call is taken away. -/
theorem keepScopes_opened (m : Machine) (caller : ScopeId) (bound : List (String × Value)) :
    (m.opened caller bound).keepScopes m.scopes.size = m := by
  simp [keepScopes, opened]

end Machine

namespace Eval

variable {position : Option Position} {values : List Value} {s : Signature}

/-- A new name is bound. -/
theorem declareVariable_opened {name : String}
    (hnew : Name.fold name ∉ bound.map fun b => Name.fold b.1) (v : Value) :
    declareVariable m.scopes.size name (some v) position (m.opened caller bound) =
      (.done (), m.opened caller (bound ++ [(name, v)])) := by
  rw [← Scope.isSome_getVariable?_activation, Option.not_isSome_iff_eq_none] at hnew
  rw [← Machine.declare_opened]
  exact Step.perform_declareVariable_of_new (m.getElem?_opened caller bound) hnew

/-- A name that was bound already cannot be bound again. -/
theorem declareVariable_opened_of_mem {name : String}
    (hmem : Name.fold name ∈ bound.map fun b => Name.fold b.1) (v : Value) :
    declareVariable m.scopes.size name (some v) position (m.opened caller bound) =
      (.failed ⟨.variableAlreadyDefined name, position⟩, m.opened caller bound) :=
  Step.perform_declareVariable_of_old (m.getElem?_opened caller bound)
    (Scope.isSome_getVariable?_activation.mpr hmem)

/-- Names that are all different are bound one after the other. -/
theorem run_bindParams_append (before : List (String × Value))
    (hnodup : ((bound ++ before).map fun b => Name.fold b.1).Nodup) (params : List String)
    (values : List Value) :
    bindParams m.scopes.size position (before.map Prod.fst ++ params)
        (before.map Prod.snd ++ values) (m.opened caller bound) =
      bindParams m.scopes.size position params values (m.opened caller (bound ++ before)) := by
  induction before generalizing bound with
  | nil => rw [List.append_nil]; rfl
  | cons b before ih =>
      have hnew : Name.fold b.1 ∉ bound.map fun b => Name.fold b.1 := by
        intro hmem
        rw [List.map_append, List.map_cons] at hnodup
        exact List.disjoint_of_nodup_append hnodup hmem List.mem_cons_self
      rw [List.append_cons] at hnodup ⊢
      exact Run.bind_eq_of_done (declareVariable_opened hnew b.2) (ih hnodup)

/-- The first parameters are bound if their names are all different. -/
theorem run_bindParams_split (m : Machine) (caller : ScopeId) (position : Option Position)
    {before : List String} (after : List String) (hlength : before.length ≤ values.length)
    (hnodup : (before.map Name.fold).Nodup) :
    bindParams m.scopes.size position (before ++ after) values (m.pushScope caller) =
      bindParams m.scopes.size position after (values.drop before.length)
        (m.opened caller (before.zip values)) := by
  have hnames : (before.zip values).map Prod.fst = before := List.map_fst_zip hlength
  have htaken : (before.zip values).map Prod.snd = values.take before.length := by
    rw [List.zip_eq_zip_take_min, Nat.min_eq_left hlength, List.map_snd_zip]
    simp [hlength]
  calc bindParams m.scopes.size position (before ++ after) values (m.pushScope caller)
      = bindParams m.scopes.size position ((before.zip values).map Prod.fst ++ after)
          ((before.zip values).map Prod.snd ++ values.drop before.length) (m.opened caller []) := by
        rw [hnames, htaken, List.take_append_drop]
        rfl
    _ = _ := by
        rw [← Name.map_fold_zip hlength] at hnodup
        exact run_bindParams_append (before.zip values) hnodup after _

/-- All parameters are bound if their names are all different. -/
theorem run_bindParams (m : Machine) (caller : ScopeId) (position : Option Position)
    {params : List String} (hlength : params.length ≤ values.length)
    (hnodup : (params.map Name.fold).Nodup) :
    bindParams m.scopes.size position params values (m.pushScope caller) =
      (.done (), m.opened caller (params.zip values)) := by
  have hsplit := run_bindParams_split m caller position [] hlength hnodup
  rw [List.append_nil] at hsplit
  exact hsplit

/-- The arguments are bound if all names are different. -/
theorem run_bindArguments (hlength : s.params.length ≤ values.length)
    (hnodup : (s.names.map Name.fold).Nodup) :
    bindArguments s values m.scopes.size position (m.enterCall.pushScope caller) =
      (.done (), m.activated caller s values) := by
  rw [Signature.names, List.map_append] at hnodup
  have hparams := run_bindParams m.enterCall caller position hlength
    (List.Nodup.of_append_left hnodup)
  refine Run.bind_eq_of_done hparams ?_
  unfold Machine.activated Signature.bound
  by_cases hvariadic : s.variadic = true
  · have hnew : Name.fold Name.variadic ∉ (s.params.zip values).map fun b => Name.fold b.1 := by
      rw [Name.map_fold_zip hlength]
      intro hmem
      exact List.disjoint_of_nodup_append hnodup hmem (by simp [hvariadic])
    rw [if_pos hvariadic, if_pos hvariadic, if_pos hvariadic]
    exact declareVariable_opened (m := m.enterCall.withList (values.drop s.params.length)) hnew
      (.list m.heap.size)
  · rw [if_neg hvariadic, if_neg hvariadic, if_neg hvariadic, List.append_nil]
    rfl

/-- A parameter that repeats another cannot be bound. -/
theorem run_bindArguments_of_repeated (hlength : s.params.length ≤ values.length) {param : String}
    (hrepeated : Name.Repeated s.params param) :
    ∃ bound, bindArguments s values m.scopes.size position (m.enterCall.pushScope caller) =
      (.failed ⟨.variableAlreadyDefined param, position⟩, m.enterCall.opened caller bound) := by
  obtain ⟨before, after, hparams, hnodup, hmem⟩ := hrepeated
  have hlt : before.length < values.length := by
    rw [hparams, List.length_append, List.length_cons] at hlength
    omega
  have hle : before.length ≤ values.length := Nat.le_of_lt hlt
  have hbefore := run_bindParams_split m.enterCall caller position (param :: after) hle hnodup
  rw [List.drop_eq_getElem_cons hlt, ← hparams] at hbefore
  rw [← Name.map_fold_zip hle] at hmem
  have hfailed := hbefore.trans (Run.bind_failed (declareVariable_opened_of_mem hmem _) _)
  exact ⟨before.zip values, Run.bind_failed hfailed _⟩

/-- The extra arguments cannot be bound if a parameter is called `...` as well. -/
theorem run_bindArguments_of_mem (hlength : s.params.length ≤ values.length)
    (hvariadic : s.variadic = true) (hnodup : (s.params.map Name.fold).Nodup)
    (hmem : Name.fold Name.variadic ∈ s.params.map Name.fold) :
    bindArguments s values m.scopes.size position (m.enterCall.pushScope caller) =
      (.failed ⟨.variableAlreadyDefined Name.variadic, position⟩,
        (m.enterCall.withList (values.drop s.params.length)).opened caller
          (s.params.zip values)) := by
  refine Run.bind_eq_of_done (run_bindParams m.enterCall caller position hlength hnodup) ?_
  rw [if_pos hvariadic]
  rw [← Name.map_fold_zip hlength] at hmem
  exact declareVariable_opened_of_mem (m := m.enterCall.withList (values.drop s.params.length))
    hmem (.list m.heap.size)

end Eval

end Activation

/-! ## What is read from the scope -/

/-- The scope of a call holds the arguments: it has the names that the call binds and no others,
every parameter is read as its argument, in whatever case its name is written, and the extra
arguments are those beyond the parameters.  They are in the list `rest`. -/
structure Machine.HoldsArguments (m : Machine) (activation : ScopeId) (s : Signature)
    (values : List Value) (rest : ListId) : Prop where
  names : ∀ key, (m.variableAt activation key).isSome = true ↔ key ∈ s.names.map Name.fold
  argument : ∀ {i : Nat} {param spelling : String} {v : Value}, s.params[i]? = some param →
    values[i]? = some v → Name.fold spelling = Name.fold param → ∀ position,
      Eval.readVariable activation spelling position m = (.done v, m)
  extra : s.variadic = true →
    m.variableAt activation (Name.fold Name.variadic) =
        some ⟨Name.variadic, some (.list rest)⟩ ∧
      m.heap.contents rest = values.drop s.params.length ∧ ∀ position,
        Eval.extraArguments activation position m = (.done (values.drop s.params.length), m)

section Activated

variable {s : Signature} {values : List Value}

/-- What a call binds has the names of the parameters, and `...` if the function is
variadic. -/
theorem Signature.map_fold_bound (hlength : s.params.length ≤ values.length) (rest : ListId) :
    ((s.bound values rest).map fun b => Name.fold b.1) = s.names.map Name.fold := by
  rw [bound, names, List.map_append, List.map_append, Name.map_fold_zip hlength]
  by_cases hvariadic : s.variadic = true <;> simp [hvariadic]

/-- A parameter is bound to the argument at its place. -/
theorem Signature.mem_bound_of_getElem? {i : Nat} {param : String} {v : Value} (rest : ListId)
    (hparam : s.params[i]? = some param) (hvalue : values[i]? = some v) :
    (param, v) ∈ s.bound values rest := by
  have hzip : (s.params.zip values)[i]? = some (param, v) := by
    simp [List.getElem?_zip_eq_some, hparam, hvalue]
  exact List.mem_append_left _ (List.mem_of_getElem? hzip)

/-- **The scope of a call holds the arguments**, whatever the scopes of the caller hold. -/
theorem Machine.holdsArguments_activated (m : Machine) (caller : ScopeId)
    (hlength : s.params.length ≤ values.length) (hnames : (s.names.map Name.fold).Nodup) :
    (m.activated caller s values).HoldsArguments m.scopes.size s values m.heap.size := by
  have hscope : (m.activated caller s values).scopes[m.scopes.size]? =
      some (.activation caller (s.bound values m.heap.size)) := Array.getElem?_push_size
  have hlt := (Array.getElem?_eq_some_iff.mp hscope).1
  have hnodup := hnames
  rw [← Signature.map_fold_bound hlength m.heap.size] at hnodup
  have hget : ∀ {name : String} {v : Value}, (name, v) ∈ s.bound values m.heap.size →
      (Scope.activation caller (s.bound values m.heap.size)).getVariable? (Name.fold name) =
        some ⟨name, some v⟩ := Scope.getVariable?_activation hnodup
  refine ⟨?_, ?_, ?_⟩
  · intro key
    rw [variableAt_of_getElem? hscope, Scope.isSome_getVariable?_activation,
      Signature.map_fold_bound hlength]
  · intro i param spelling v hparam hvalue hspelling position
    have hfind : (m.activated caller s values).scopes.findVariable? m.scopes.size spelling =
        some ⟨param, some v⟩ := by
      apply Arena.findVariable?_eq_self hscope
      rw [hspelling, hget (Signature.mem_bound_of_getElem? m.heap.size hparam hvalue)]
    simp only [Eval.run, Step.perform, Step.inArena, if_pos hlt, hfind]
  · intro hvariadic
    have hrest : (Scope.activation caller (s.bound values m.heap.size)).getVariable?
        (Name.fold Name.variadic) = some ⟨Name.variadic, some (.list m.heap.size)⟩ := by
      apply hget
      simp [Signature.bound, hvariadic]
    have hcontents : (m.activated caller s values).heap.contents m.heap.size =
        values.drop s.params.length := by
      simp only [activated, if_pos hvariadic]
      exact Heap.contents_alloc_new m.heap _
    refine ⟨by rw [variableAt_of_getElem? hscope, hrest], hcontents, fun position => ?_⟩
    simp only [Eval.run, Step.perform, Step.inArena, if_pos hlt,
      Arena.findVariable?_eq_self hscope hrest, hcontents]

end Activated

end Scriptlet
