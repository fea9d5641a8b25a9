import Scriptlet.Proofs.Bindings
import Scriptlet.Proofs.CallLimit
import Scriptlet.Proofs.Datum
import Scriptlet.Proofs.Safety

/-!
# What a run does to the lists that were there

Without the host, a list never gets longer or shorter.  Its elements change one at a time,
and only where a step of the run writes to this list and this index
(`Step.Change.list_cases`).

Three constructs make lists: a list of expressions, the sum of two lists, and a call with
extra arguments.  The list that they make is one that no variable and no list has referred to
(`Machine.NewList`).  Nothing refers to it because on a sound machine all references are to
lists in the heap, and the new one goes to its end.
-/

namespace Scriptlet

namespace Machine

variable {m m' : Machine} {id : ListId}

/-- A variable holds the list, or a list does. -/
def Refers (m : Machine) (id : ListId) : Prop :=
  (∃ (i : ScopeId) (s : Scope) (key name : String),
    m.scopes[i]? = some s ∧ s.getVariable? key = some ⟨name, some (.list id)⟩) ∨
  ∃ other, .list id ∈ m.heap.contents other

/-- Between the two machines a list of these items was made, and no other list was touched.
Before, nothing referred to it. -/
structure NewList (m : Machine) (items : List Value) (id : ListId) (m' : Machine) : Prop where
  size_le : m.heap.size ≤ id
  unreferred : ¬ m.Refers id
  contents_eq : m'.heap.contents id = items
  kept : m.heap.Extends m'.heap

/-- On a sound machine every list that is referred to is in the heap. -/
theorem Sound.lt_size_of_refers (hm : m.Sound) (h : m.Refers id) : id < m.heap.size := by
  rcases h with ⟨i, s, key, name, hs, hget⟩ | ⟨other, hmem⟩
  · exact hm.vars i s hs key name _ hget
  · exact hm.cells other _ hmem

/-- What is not in the heap later was not referred to before. -/
theorem Sound.not_refers (hm : m.Sound) (hlater : m.Later m') (hid : m'.heap.size ≤ id) :
    ¬ m.Refers id := by
  intro hrefers
  have hlt : id < m.heap.size := hm.lt_size_of_refers hrefers
  have hle : m.heap.size ≤ m'.heap.size := hlater.heap_le
  exact Nat.lt_irrefl _ (Nat.lt_of_lt_of_le hlt (Nat.le_trans hle hid))

/-- A list at the end of the heap is new. -/
theorem Sound.newList (hm : m.Sound) {items : List Value}
    (hheap : m'.heap = (m.heap.alloc items).2) : m.NewList items m.heap.size m' where
  size_le := Nat.le_refl _
  unreferred := hm.not_refers (.refl m) (Nat.le_refl _)
  contents_eq := by
    rw [hheap]
    exact Heap.contents_alloc_new m.heap items
  kept := by
    rw [hheap]
    exact Heap.Extends.alloc m.heap items

/-- What is said of the lists alone does not depend on scopes and calls. -/
theorem steady_heap (I : Heap → Prop) : Steady fun m => I m.heap where
  pushScope _ h := h
  keepScopes _ h := h
  enterCall h := h
  leaveCall h := h

end Machine

/-! ## Elements -/

namespace Step

/-- The list and the index to which a step writes.  Only an assignment to an element takes
such a step, after it has found the two. -/
def written? {α : Type} : Step α → Option (ListId × Nat)
  | .writeElement id i _ _ => some (id, i)
  | _ => none

variable {α : Type} {s : Step α} {m m' : Machine} {lent : HostFunction → Prop}
  {own : Territory} {id : ListId}

/-- A step of code without the host leaves a list as it is or writes one of its elements. -/
theorem Change.list_cases (h : s.Change m m') (hs : s.Conforms lent own) (hpush : ¬ lent .push)
    (hclear : ¬ lent .clear) (hid : id < m.heap.size) :
    m'.heap.contents id = m.heap.contents id ∨ ∃ i v,
      s.written? = some (id, i) ∧ m'.heap.contents id = (m.heap.contents id).set i v := by
  cases h with
  | made => exact .inl (Heap.contents_alloc_of_lt _ _ hid)
  | joined => exact .inl (Heap.contents_alloc_of_lt _ _ hid)
  | @written other i v _ _ =>
      by_cases hsame : other = id
      · subst hsame
        exact .inr ⟨i, v, rfl, Heap.contents_modify_self _ _ hid⟩
      · exact .inl (Heap.contents_modify_of_ne _ _ hsame)
  | appended => exact absurd hs hpush
  | cleared => exact absurd hs hclear
  | _ => exact .inl rfl

end Step

namespace Eval

variable {α : Type} {x : Eval α} {m : Machine} {lent : HostFunction → Prop}
  {own : Territory} {id : ListId}

/-- What holds of the elements of a list holds after a run if every write to the list keeps
it. -/
theorem Conforms.contents_of_writes (hx : x.Conforms lent own) (hm : m.Lends lent)
    (hpush : ¬ lent .push) (hclear : ¬ lent .clear) (hid : id < m.heap.size)
    {I : List Value → Prop} (hI : I (m.heap.contents id))
    (hwrite : ∀ t ∈ x.taken m, ∀ {i}, t.step.written? = some (id, i) →
      ∀ {items v}, I items → I (items.set i v)) :
    I ((x.run m).2.heap.contents id) := by
  have hsteady := steady_of_taken
    (Machine.steady_heap fun h => id < h.size ∧ I (h.contents id)) x ⟨hid, hI⟩ ?_
  · exact hsteady.1.2
  · rintro ⟨s, m'⟩ ht ⟨hlt, hitems⟩
    have hchange := s.perform_change m'
    have hconforms := ((hx.lends_taken hm).2 _ ht).2
    refine ⟨Nat.lt_of_lt_of_le hlt hchange.later.heap_le, ?_⟩
    rcases hchange.list_cases hconforms hpush hclear hlt with hsame | ⟨i, v, hwritten, hset⟩
    · rw [hsame]
      exact hitems
    · rw [hset]
      exact hwrite _ ht hwritten hitems

/-- **Without the host, lists keep their length.** -/
theorem Conforms.length_contents (hx : x.Conforms lent own) (hm : m.Lends lent)
    (hpush : ¬ lent .push) (hclear : ¬ lent .clear) (hid : id < m.heap.size) :
    ((x.run m).2.heap.contents id).length = (m.heap.contents id).length := by
  refine hx.contents_of_writes hm hpush hclear hid
    (I := fun items => items.length = (m.heap.contents id).length) rfl ?_
  intro t _ i _ items v hlength
  rw [List.length_set, hlength]

/-- **Without the host, an element changes only where a step writes to it.** -/
theorem Conforms.exists_write (hx : x.Conforms lent own) (hm : m.Lends lent)
    (hpush : ¬ lent .push) (hclear : ¬ lent .clear) (hid : id < m.heap.size) {i : Nat}
    (hchanged : ((x.run m).2.heap.contents id)[i]? ≠ (m.heap.contents id)[i]?) :
    ∃ t ∈ x.taken m, t.step.written? = some (id, i) := by
  by_contra hnone
  refine hchanged (hx.contents_of_writes hm hpush hclear hid
    (I := fun items => items[i]? = (m.heap.contents id)[i]?) rfl ?_)
  intro t ht j hwritten items v hitems
  have hne : j ≠ i := by
    rintro rfl
    exact hnone ⟨t, ht, hwritten⟩
  rw [List.getElem?_set_ne hne, hitems]

/-! ## New lists -/

variable {n : Nat} {scope : ScopeId} {m₁ m₂ : Machine}

/-- A list of expressions gives a list at the end of the heap. -/
theorem eval_list {es : List Expr} {values : List Value}
    (hvalues : evalAll n scope es m = (.done values, m₁)) (p : Position) :
    eval (n + 1) scope (.list p es) m =
      (.done (.list m₁.heap.size), { m₁ with heap := (m₁.heap.alloc values).2 }) :=
  Run.bind_done hvalues _

/-- The sum of two lists is a list at the end of the heap. -/
theorem eval_add {left right : Expr} {a b : ListId}
    (hleft : eval n scope left m = (.done (.list a), m₁))
    (hright : eval n scope right m₁ = (.done (.list b), m₂)) (p q : Position) :
    eval (n + 2) scope (.binary p .add q left right) m =
      (.done (.list m₂.heap.size),
        { m₂ with heap := (m₂.heap.alloc (m₂.heap.contents a ++ m₂.heap.contents b)).2 }) :=
  (Run.bind_done hleft _).trans (Run.bind_done hright _)

/-- A call has come to the point at which its function is run, on `entered`: the function was
found and takes the arguments, these have `values` and leave `before`, one more call may be in
progress, and the parameters are bound. -/
structure Enters (n : Nat) (scope : ScopeId) (name : String) (arguments : List Expr)
    (position : Option Position) (m : Machine) (f : Callable) (values : List Value)
    (before entered : Machine) : Prop where
  scope_lt : scope < m.scopes.size
  found : m.scopes.findFunction? scope name = some f
  accepts : f.signature.accepts arguments.length
  evaluated : evalAll n scope arguments m = (.done values, before)
  depth_lt : before.callDepth < before.maxCallDepth
  bound : bindArguments f.signature values before.scopes.size position
    (before.enterCall.pushScope scope) = (.done (), entered)

/-- Binding parameters makes no list. -/
theorem heap_bindParams {activation : ScopeId} {position : Option Position} {params : List String}
    {values : List Value} (h : bindParams activation position params values m = (.done (), m₁)) :
    m₁.heap = m.heap := by
  induction params generalizing values m with
  | nil =>
      cases h
      rfl
  | cons param params ih =>
      cases values with
      | nil => cases h
      | cons value values =>
          obtain ⟨_, m', hdeclared, hrest⟩ := Run.bind_eq_done_iff.mp h
          obtain ⟨_, rfl⟩ := Step.eq_of_perform_declareVariable hdeclared
          exact (ih hrest).trans rfl

/-- The extra arguments of a variadic function are bound to a list at the end of the heap. -/
theorem bindArguments_variadic {s : Signature} (hvariadic : s.variadic = true)
    {values : List Value} {activation : ScopeId} {position : Option Position}
    (h : bindArguments s values activation position m = (.done (), m₁)) :
    m₁.heap = (m.heap.alloc (values.drop s.params.length)).2 ∧
      m₁.variableAt activation (Name.fold Name.variadic) =
        some ⟨Name.variadic, some (.list m.heap.size)⟩ := by
  obtain ⟨_, m', hparams, hrest⟩ := Run.bind_eq_done_iff.mp h
  have hheap := heap_bindParams hparams
  rw [if_pos hvariadic] at hrest
  obtain ⟨extra, m'', hlist, hdeclared⟩ := Run.bind_eq_done_iff.mp hrest
  cases hlist
  obtain ⟨⟨scope, hscope⟩, rfl⟩ := Step.eq_of_perform_declareVariable hdeclared
  rw [← hheap]
  refine ⟨rfl, ?_⟩
  rw [Machine.variableAt_of_getElem? (Machine.getElem?_declare hscope _ _),
    Scope.getVariable?_addVariable_self]
  rfl

namespace Enters

variable {name : String} {arguments : List Expr} {position : Option Position} {f : Callable}
  {values : List Value} {before entered : Machine}

/-- From there on the call is a run of its function. -/
theorem call_fst (h : Enters n scope name arguments position m f values before entered) :
    (call (n + 1) scope name arguments position m).1 =
      (invoke n f before.scopes.size position entered).1 := by
  have hfound := Step.perform_findFunction_of_some h.scope_lt h.found position
  let body : Eval (Option Value) := inScope scope fun activation => do
    bindArguments f.signature values activation position
    invoke n f activation position
  have hcall : call (n + 1) scope name arguments position m = asCall position body before := by
    refine (Run.bind_done hfound _).trans ?_
    dsimp only
    rw [if_pos h.accepts]
    exact Run.bind_done h.evaluated _
  have hinner : Run.bind (bindArguments f.signature values before.scopes.size position).run
      (fun _ => (invoke n f before.scopes.size position).run) (before.enterCall.pushScope scope) =
        invoke n f before.scopes.size position entered := Run.bind_done h.bound _
  have hfst := congrArg Prod.fst hinner
  rw [hcall, run_asCall position body h.depth_lt]
  exact hfst

/-- The list of the extra arguments of a call is new. -/
theorem newList (h : Enters n scope name arguments position m f values before entered)
    (hbefore : before.Sound) (hvariadic : f.signature.variadic = true) :
    entered.variableAt before.scopes.size (Name.fold Name.variadic) =
        some ⟨Name.variadic, some (.list before.heap.size)⟩ ∧
      before.NewList (values.drop f.signature.params.length) before.heap.size entered := by
  obtain ⟨hheap, hvariable⟩ := bindArguments_variadic hvariadic h.bound
  exact ⟨hvariable, hbefore.newList hheap⟩

end Enters

end Eval

/-! ## Tasks -/

/-- **The list storage frame.**  On a machine that knows no function of the host, every list
that is there keeps its length in every task, however the task ends, and its element at an
index changes only if a step of the run, that of an assignment to an element, writes there.

A list of expressions gives a list that nothing referred to before, and so does the sum of two
lists, which leaves its operands alone and holds the elements of the one and then those of the
other.  So is the list of the extra arguments on which the function of a variadic call is
run. -/
theorem Task.list_storage_frame {m : Machine} (hm : m.Sound)
    (hnoHost : ∀ f, m.Knows f → ¬ f.IsHost) (fuel : Nat) :
    (∀ {α : Type} (task : Task α) (id : ListId), id < m.heap.size →
      ((task.toEval fuel m).2.heap.contents id).length = (m.heap.contents id).length ∧
      ∀ i : Nat, ((task.toEval fuel m).2.heap.contents id)[i]? ≠ (m.heap.contents id)[i]? →
        ∃ t ∈ (task.toEval fuel).taken m, t.step.written? = some (id, i)) ∧
    (∀ scope < m.scopes.size, ∀ p es values m₁,
      Eval.evalAll fuel scope es m = (.done values, m₁) →
      ∃ id m', Eval.eval (fuel + 1) scope (.list p es) m = (.done (.list id), m') ∧
        m₁.NewList values id m' ∧ ¬ m.Refers id) ∧
    (∀ scope < m.scopes.size, ∀ p q left right a b m₁ m₂,
      Eval.eval fuel scope left m = (.done (.list a), m₁) →
      Eval.eval fuel scope right m₁ = (.done (.list b), m₂) →
      ∃ id m', Eval.eval (fuel + 2) scope (.binary p .add q left right) m =
          (.done (.list id), m') ∧
        m₂.NewList (m₂.heap.contents a ++ m₂.heap.contents b) id m' ∧ ¬ m.Refers id ∧
        m'.heap.contents a = m₂.heap.contents a ∧ m'.heap.contents b = m₂.heap.contents b) ∧
    (∀ scope name arguments position f values before entered,
      Eval.Enters fuel scope name arguments position m f values before entered →
      f.signature.variadic = true →
      (Eval.call (fuel + 1) scope name arguments position m).1 =
          (Eval.invoke fuel f before.scopes.size position entered).1 ∧
        ∃ id, entered.variableAt before.scopes.size (Name.fold Name.variadic) =
            some ⟨Name.variadic, some (.list id)⟩ ∧
          before.NewList (values.drop f.signature.params.length) id entered ∧
          ¬ m.Refers id) := by
  have hlends : m.Lends fun _ => False :=
    Machine.lends_iff.mpr fun g hg => hnoHost (.host g) hg trivial
  have hready : ∀ {scope}, scope < m.scopes.size → m.Ready False scope :=
    fun hscope => ⟨hm, False.elim, hscope⟩
  refine ⟨?_, ?_, ?_, ?_⟩
  · intro α task id hid
    have hconforms : (task.toEval fuel).Conforms (fun _ => False) (.ofVariables fun _ => True) :=
      task.conforms_toEval fuel fun _ => trivial
    exact ⟨hconforms.length_contents hlends not_false not_false hid,
      fun i hchanged => hconforms.exists_write hlends not_false not_false hid hchanged⟩
  · intro scope hscope p es values m₁ hvalues
    obtain ⟨hready₁, hlater, _⟩ :=
      ((Eval.safeUpTo False fuel).evalAll (hready hscope) False.elim).of_done
        (hready hscope) hvalues
    exact ⟨_, _, Eval.eval_list hvalues p, hready₁.sound.newList rfl,
      hm.not_refers hlater (Nat.le_refl _)⟩
  · intro scope hscope p q left right a b m₁ m₂ hleft hright
    obtain ⟨hready₁, hlater₁, ha⟩ :=
      ((Eval.safeUpTo False fuel).eval (hready hscope) False.elim).of_done (hready hscope) hleft
    obtain ⟨hready₂, hlater₂, hb⟩ :=
      ((Eval.safeUpTo False fuel).eval hready₁ False.elim).of_done hready₁ hright
    have ha₂ : a < m₂.heap.size := hlater₂.has ha
    let items := m₂.heap.contents a ++ m₂.heap.contents b
    have hnew : m₂.NewList items m₂.heap.size { m₂ with heap := (m₂.heap.alloc items).2 } :=
      hready₂.sound.newList rfl
    exact ⟨_, _, Eval.eval_add hleft hright p q, hnew,
      hm.not_refers (hlater₁.trans hlater₂) (Nat.le_refl _), hnew.kept.contents_eq a ha₂,
      hnew.kept.contents_eq b hb⟩
  · intro scope name arguments position f values before entered henters hvariadic
    have hstart := hready henters.scope_lt
    obtain ⟨hbefore, hlater, _⟩ :=
      ((Eval.safeUpTo False fuel).evalAll hstart False.elim).of_done hstart henters.evaluated
    obtain ⟨hvariable, hnew⟩ := henters.newList hbefore.sound hvariadic
    exact ⟨henters.call_fst, _, hvariable, hnew, hm.not_refers hlater (Nat.le_refl _)⟩

/-- The function `rest(...) { return ...; }`. -/
def FunctionDef.rest : FunctionDef :=
  ⟨⟨"main", 1, 1⟩, ⟨"rest", [], true⟩, ⟨"main", 1, 11⟩,
    [.returns ⟨"main", 1, 13⟩ (some (.var ⟨"main", 1, 20⟩ Name.variadic))]⟩

/-- A machine whose host has the list `row` of 1 and 2, and the function. -/
def Machine.withRow : Machine :=
  (Session.defineFunction (.script .rest) (Session.defineVariable "row" (.list 0)
    (Eval.newList [.int 1, .int 2] (Machine.initial 8)).2).2).2

/-- The expression `row[0] = row`. -/
def Expr.fillWithItself : Expr :=
  .assignElement ⟨"main", 1, 1⟩ ⟨"main", 1, 1⟩ "row" (.literal ⟨"main", 1, 5⟩ (.int 0))
    (.var ⟨"main", 1, 10⟩ "row")

/-- An assignment to the first element leaves the second alone.  The sum of the list and itself
is new, and so is the list that the function gives. -/
theorem Task.list_storage_frame_withRow :
    (((Task.eval 0 .fillWithItself).toEval 9 Machine.withRow).2.heap.contents 0)[1]? =
      some (.int 2) ∧
    (∃ id m', Eval.eval 11 0 (.binary ⟨"main", 1, 1⟩ .add ⟨"main", 1, 5⟩
        (.var ⟨"main", 1, 1⟩ "row") (.var ⟨"main", 1, 7⟩ "row")) Machine.withRow =
          (.done (.list id), m') ∧
      m'.heap.contents id = [.int 1, .int 2, .int 1, .int 2] ∧ ¬ Machine.withRow.Refers id) ∧
    (Eval.call 10 0 "rest" [.var ⟨"main", 1, 6⟩ "row"] none Machine.withRow).1 =
        .done (some (.list 1)) ∧
      ¬ Machine.withRow.Refers 1 := by
  have hsetUp : Machine.withRow.SetUp := by
    have hlisted := (Machine.SetUp.initial 8).perform (.newList [.int 1, .int 2]) (by
      intro v hv
      rcases List.mem_pair.mp hv with rfl | rfl <;> trivial)
    have hnamed := hlisted.perform (.declareVariable Arena.host "row" (some (.list 0)) none)
      ⟨hlisted.orderly.size_pos, fun v hv => Option.some.inj hv ▸ Nat.one_pos⟩
    exact hnamed.perform (.declareFunction Arena.host (.script .rest) none) hnamed.orderly.size_pos
  have hnoHost : ∀ f, Machine.withRow.Knows f → ¬ f.IsHost := by
    intro f hf
    rcases (Step.perform_change _ _).knows hf with hf | hf
    · rcases (Step.perform_change _ _).knows hf with hf | hf
      · rcases (Step.perform_change _ _).knows hf with hf | hf
        · exact absurd hf (Machine.not_knows_initial 8 f)
        · exact hf.elim
      · exact hf.elim
    · exact hf ▸ id
  have hscope : 0 < Machine.withRow.scopes.size := hsetUp.orderly.size_pos
  obtain ⟨hkept, _, hsum, hvariadic⟩ := list_storage_frame hsetUp.sound hnoHost 9
  refine ⟨?_, ?_, ?_⟩
  · by_contra hchanged
    obtain ⟨t, ht, hwritten⟩ :=
      (hkept (.eval 0 .fillWithItself) 0 (by decide +kernel)).2 1 hchanged
    have htaken : ((Task.eval 0 .fillWithItself).toEval 9).taken Machine.withRow =
      [⟨.readVariable 0 "row" (some ⟨"main", 1, 10⟩), Machine.withRow⟩,
        ⟨.readVariable 0 "row" (some ⟨"main", 1, 1⟩), Machine.withRow⟩,
        ⟨.listItems 0 (some ⟨"main", 1, 1⟩), Machine.withRow⟩,
        ⟨.writeElement 0 0 (.list 0) (some ⟨"main", 1, 1⟩), Machine.withRow⟩] := rfl
    rw [htaken] at ht
    simp only [List.mem_cons, List.not_mem_nil, or_false] at ht
    rcases ht with rfl | rfl | rfl | rfl <;> simp [Step.written?] at hwritten
  · obtain ⟨id, m', hdone, hnew, hunreferred, _⟩ := hsum 0 hscope ⟨"main", 1, 1⟩
      ⟨"main", 1, 5⟩ (.var ⟨"main", 1, 1⟩ "row") (.var ⟨"main", 1, 7⟩ "row") 0 0 Machine.withRow
      Machine.withRow rfl rfl
    exact ⟨id, m', hdone, hnew.contents_eq, hunreferred⟩
  · let entered := (Eval.bindArguments FunctionDef.rest.signature [.list 0] 1 none
      (Machine.withRow.enterCall.pushScope 0)).2
    obtain ⟨hcall, id, hextra, _, hunreferred⟩ := hvariadic 0 "rest"
      [.var ⟨"main", 1, 6⟩ "row"] none (.script .rest) [.list 0] Machine.withRow entered
      ⟨hscope, rfl, rfl, rfl, by decide +kernel, rfl⟩ rfl
    have hid : id = 1 := by
      have hlist : entered.variableAt 1 (Name.fold Name.variadic) =
          some ⟨Name.variadic, some (.list 1)⟩ := by decide +kernel
      have hsame := hextra.symm.trans hlist
      simpa using hsame
    refine ⟨hcall.trans ?_, hid ▸ hunreferred⟩
    decide +kernel

end Scriptlet
