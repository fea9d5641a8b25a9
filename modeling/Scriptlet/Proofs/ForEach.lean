import Mathlib.Data.List.Chain
import Scriptlet.Proofs.ListStorage

/-!
# The rounds of a `foreach` loop

A `foreach` loop reads its list anew before every round, and only the length of the
list could make it visit an index twice or leave one out.  Without the functions of the
host that change lengths, lists keep theirs whatever the body does
(`Eval.Conforms.length_contents`).  The loop variable is declared in the scope of the
loop, where it stays, so every round finds it there and nowhere else.

`Eval.Rounds` says which rounds a loop makes from an index on and how it ends after
them.  One round keeps what the next one needs (`Eval.Entered.after_round`), and so the loop
visits each index once and in order, by induction on the fuel
(`Eval.Entered.forEachRounds_rounds`).
-/

namespace Scriptlet

/-- A round of a loop: the machine that it finds, the machine on which the body begins, the
fuel for the body, and how the body ends. -/
structure Round where
  before : Machine
  start : Machine
  fuel : Nat
  ending : Outcome Fault Flow × Machine

/-- How a loop ends after a round of which the body has ended so; `none` if it goes on. -/
def Outcome.loopEnding? : Outcome Fault Flow → Option (Outcome Fault Flow)
  | .done flow => flow.afterRound.map .done
  | .failed fault => some (.failed fault)
  | .outOfFuel => some .outOfFuel

/-- A variable that was filled has the value. -/
theorem Step.perform_readVariable_fill {m : Machine} {scope : ScopeId} {name : String}
    (h : m.Declares scope (Name.fold name)) (v : Value) (position : Option Position) :
    (Step.readVariable scope name position).perform (m.fill scope name v) =
      (.done v, m.fill scope name v) := by
  have hlt := h.lt_size
  obtain ⟨s, hs, hname⟩ := h
  obtain ⟨w, hw⟩ := Option.isSome_iff_exists.mp hname
  have hfilled : (m.fill scope name v).scopes[scope]? =
      some (s.setVariable (Name.fold name) v) := by
    simp [Machine.fill, Array.getElem?_modify, hs]
  have hvariable : (m.fill scope name v).scopes.findVariable? scope name =
      some { w with value := some v } :=
    Arena.findVariable?_eq_self hfilled (by simp [Scope.getVariable?_setVariable, hw])
  have hlt' : scope < (m.fill scope name v).scopes.size := by simpa [Machine.fill] using hlt
  simp only [perform, inArena, if_pos hlt', hvariable]

namespace Eval

variable {m : Machine} {inner : ScopeId} {item : String} {id : ListId} {body : Statement}
  {fuel index n : Nat} {lent : HostFunction → Prop}

/-- The round visits an index of the list: it reads the element that stands there when it begins
and gives the loop variable this value, and then the body is executed. -/
def VisitedBy (inner : ScopeId) (item : String) (id : ListId) (body : Statement) (index : Nat)
    (r : Round) : Prop :=
  ∃ v, (r.before.heap.contents id)[index]? = some v ∧ r.start = r.before.fill inner item v ∧
    (∀ position, readVariable inner item position r.start = (.done v, r.start)) ∧
    exec r.fuel inner body r.start = r.ending

/-- The rounds of a `foreach` loop over a list of `n` elements, from an index and a machine on,
and how the loop ends. -/
structure Rounds (inner : ScopeId) (item : String) (id : ListId) (body : Statement)
    (n fuel index : Nat) (m : Machine) (rounds : List Round)
    (result : Outcome Fault Flow × Machine) : Prop where
  /-- The first round finds the machine. -/
  first : ∀ r ∈ rounds.head?, r.before = m
  /-- Every round but the last lets the loop go on, and the next one finds what it has left. -/
  next : rounds.IsChain fun r r' => r.ending.1.loopEnding? = none ∧ r'.before = r.ending.2
  /-- The rounds visit one index after the other. -/
  each : ∀ k r, rounds[k]? = some r →
    VisitedBy inner item id body (index + k) r ∧ r.fuel + k + 1 = fuel
  /-- No index beyond the list is visited. -/
  length_le : index + rounds.length ≤ n
  /-- Where the last round ends the loop, the loop ends so. -/
  stopped : ∀ r ∈ rounds.getLast?, ∀ o, r.ending.1.loopEnding? = some o →
    result = (o, r.ending.2)
  /-- Where no round does, every index is visited, if there is fuel for that or if the loop is
  known to end. -/
  finished : (∀ r ∈ rounds, r.ending.1.loopEnding? = none) →
    (n < index + fuel ∨ result.1 ≠ .outOfFuel) → index + rounds.length = n ∧
      result = (.done .normal, (rounds.getLast?.map fun r => r.ending.2).getD m)

/-- What a `foreach` loop over a list of `n` elements needs before each round: its variable
is declared in its scope, the list is there, and only `lent` functions of the host are known. -/
structure Entered (lent : HostFunction → Prop) (inner : ScopeId) (item : String) (id : ListId)
    (n : Nat) (m : Machine) : Prop where
  declares : m.Declares inner (Name.fold item)
  id_lt : id < m.heap.size
  length_eq : (m.heap.contents id).length = n
  lends : m.Lends lent

namespace Entered

/-- **One round.**  The body may be any code. -/
theorem after_round (h : Entered lent inner item id n m) (hpush : ¬ lent .push)
    (hclear : ¬ lent .clear) (v : Value) (fuel : Nat) (body : Statement) :
    Entered lent inner item id n (exec fuel inner body (m.fill inner item v)).2 := by
  have hfilled : m.Later (m.fill inner item v) :=
    Machine.later_modify inner fun s _ hs => Scope.isSome_setVariable hs _ v
  have hlends : (m.fill inner item v).Lends lent := by
    intro f hf
    have hknown : m.Knows f ∨ False := Machine.knows_of_modify hf fun s key hkey => .inl hkey
    exact h.lends f (hknown.resolve_right not_false)
  have hconforms : (exec fuel inner body).Conforms lent (.ofVariables fun _ => True) :=
    (conformsUpTo lent fuel).exec _ inner body fun _ => trivial
  have hlater := run_later (exec fuel inner body) (m.fill inner item v)
  refine ⟨hlater.declares (hfilled.declares h.declares), ?_, ?_, (hconforms.lends_taken hlends).1⟩
  · exact Nat.lt_of_lt_of_le h.id_lt hlater.heap_le
  · rw [hconforms.length_contents hlends hpush hclear h.id_lt]
    exact h.length_eq

/-- Past the end of the list the loop ends. -/
theorem run_of_none (h : Entered lent inner item id n m)
    (hnone : (m.heap.contents id)[index]? = none) (p : Position) :
    forEachRounds (fuel + 1) inner p item id index body m = (.done .normal, m) := by
  have hitems : (listItems id (some p)).run m = (.done (m.heap.contents id), m) := if_pos h.id_lt
  refine Run.bind_eq_of_done hitems ?_
  dsimp only
  rw [hnone]
  rfl

/-- Before the end, a round is made; the loop ends with it or goes on with the next index. -/
theorem run_of_some (h : Entered lent inner item id n m) {v : Value}
    (hv : (m.heap.contents id)[index]? = some v) (p : Position)
    {o : Outcome Fault Flow} {m' : Machine}
    (hround : exec fuel inner body (m.fill inner item v) = (o, m')) :
    forEachRounds (fuel + 1) inner p item id index body m =
      match o.loopEnding? with
      | some ending => (ending, m')
      | none => forEachRounds fuel inner p item id (index + 1) body m' := by
  have hitems : (listItems id (some p)).run m = (.done (m.heap.contents id), m) := if_pos h.id_lt
  refine Run.bind_eq_of_done hitems ?_
  dsimp only
  rw [hv]
  refine Run.bind_eq_of_done (Step.perform_fillVariable h.declares v (some p)) ?_
  cases o with
  | done flow =>
      refine Run.bind_eq_of_done hround ?_
      cases flow <;> rfl
  | failed fault => exact Run.bind_failed hround _
  | outOfFuel => exact Run.bind_outOfFuel hround _

end Entered

namespace Rounds

/-- No round is made without fuel. -/
theorem starved (hindex : index ≤ n) :
    Rounds inner item id body n 0 index m [] (.outOfFuel, m) where
  first := by simp
  next := .nil
  each := by simp
  length_le := hindex
  stopped := by simp
  finished _ hfuel := by
    rcases hfuel with hfuel | hends
    · omega
    · exact absurd rfl hends

/-- No round is made past the end of the list. -/
theorem ended : Rounds inner item id body n (fuel + 1) n m [] (.done .normal, m) where
  first := by simp
  next := .nil
  each := by simp
  length_le := Nat.le_refl n
  stopped := by simp
  finished _ _ := ⟨rfl, rfl⟩

variable {r : Round} {rest : List Round} {result : Outcome Fault Flow × Machine}
  {o : Outcome Fault Flow}

/-- A round that ends the loop. -/
theorem last (hbefore : r.before = m) (hr : VisitedBy inner item id body index r)
    (hfuel : r.fuel = fuel) (hindex : index < n) (hends : r.ending.1.loopEnding? = some o) :
    Rounds inner item id body n (fuel + 1) index m [r] (o, r.ending.2) where
  first := by simpa using hbefore
  next := .singleton r
  each k r' hr' := by
    cases k with
    | zero =>
        cases hr'
        exact ⟨hr, by omega⟩
    | succ k => cases hr'
  length_le := hindex
  stopped r' hr' o' ho' := by
    cases hr'
    cases hends.symm.trans ho'
    rfl
  finished hall _ := by
    have hnone := hall r List.mem_cons_self
    cases hends.symm.trans hnone

/-- A round before the others. -/
theorem cons (hbefore : r.before = m) (hr : VisitedBy inner item id body index r)
    (hfuel : r.fuel = fuel) (hgoes : r.ending.1.loopEnding? = none)
    (hrest : Rounds inner item id body n fuel (index + 1) r.ending.2 rest result) :
    Rounds inner item id body n (fuel + 1) index m (r :: rest) result where
  first := by simpa using hbefore
  next := List.isChain_cons.mpr ⟨fun r' hr' => ⟨hgoes, hrest.first r' hr'⟩, hrest.next⟩
  each k r' hr' := by
    cases k with
    | zero =>
        cases hr'
        exact ⟨hr, by omega⟩
    | succ k =>
        obtain ⟨hvisited, hleft⟩ := hrest.each k r' hr'
        have hplace : index + 1 + k = index + (k + 1) := by omega
        exact ⟨hplace ▸ hvisited, by omega⟩
  length_le := by
    have hlength := hrest.length_le
    rw [List.length_cons]
    omega
  stopped r' hr' o ho := by
    rw [List.getLast?_cons, Option.mem_some_iff] at hr'
    cases hlast : rest.getLast? with
    | none =>
        rw [hlast] at hr'
        cases hr'
        cases hgoes.symm.trans ho
    | some x =>
        rw [hlast] at hr'
        cases hr'
        exact hrest.stopped x hlast o ho
  finished hall hfuel := by
    have hfuel' : n < index + 1 + fuel ∨ result.1 ≠ .outOfFuel := hfuel.imp_left (by omega)
    obtain ⟨hlength, hresult⟩ :=
      hrest.finished (fun r' hr' => hall r' (List.mem_cons_of_mem r hr')) hfuel'
    refine ⟨by rw [List.length_cons]; omega, hresult.trans ?_⟩
    rw [List.getLast?_cons]
    cases rest.getLast? <;> rfl

end Rounds

/-- **All rounds.**  By induction on the fuel: before each round the loop has what it needs, and
the list has its length. -/
theorem Entered.forEachRounds_rounds (h : Entered lent inner item id n m) (hpush : ¬ lent .push)
    (hclear : ¬ lent .clear) (hindex : index ≤ n) (p : Position) (fuel : Nat) :
    ∃ rounds, Rounds inner item id body n fuel index m rounds
      (forEachRounds fuel inner p item id index body m) := by
  induction fuel generalizing index m with
  | zero => exact ⟨[], .starved hindex⟩
  | succ fuel ih =>
      by_cases hlt : index < n
      · have hlt' : index < (m.heap.contents id).length := by rwa [h.length_eq]
        obtain ⟨v, hv⟩ : ∃ v, (m.heap.contents id)[index]? = some v :=
          ⟨_, List.getElem?_eq_getElem hlt'⟩
        let r : Round := ⟨m, m.fill inner item v, fuel, exec fuel inner body (m.fill inner item v)⟩
        have hvisited : VisitedBy inner item id body index r :=
          ⟨v, hv, rfl, fun position => Step.perform_readVariable_fill h.declares v position, rfl⟩
        have hround : exec fuel inner body (m.fill inner item v) = (r.ending.1, r.ending.2) := rfl
        rw [h.run_of_some hv p hround]
        cases hending : r.ending.1.loopEnding? with
        | some o => exact ⟨[r], .last rfl hvisited rfl hlt hending⟩
        | none =>
            have hafter := h.after_round hpush hclear v fuel body
            obtain ⟨rest, hrest⟩ := ih hafter hlt
            exact ⟨r :: rest, .cons rfl hvisited rfl hending hrest⟩
      · have hend : index = n := by omega
        subst hend
        have hnone : (m.heap.contents id)[index]? = none :=
          List.getElem?_eq_none (by rw [h.length_eq])
        rw [h.run_of_none hnone]
        exact ⟨[], .ended⟩

/-- **A `foreach` loop visits each index of its list once, live and in order.**  The collection
gives a list, and the functions of the host that change lengths are not known.  Round `k` finds
what the round before has left and begins with the loop variable bound to the element that then
stands at index `k`, whatever the rounds before have done: to this element, to the loop
variable, or to the variable that the collection was read from.  At most as many rounds are
made as the list has elements, and exactly so many if none ends in `break`, `return` or an
error, given the fuel. -/
theorem forEach_visits_each_index {m m₁ : Machine} (hm : m.Sound) {scope : ScopeId}
    (hscope : scope < m.scopes.size) (hpush : ¬ m.Knows (.host .push))
    (hclear : ¬ m.Knows (.host .clear)) {fuel : Nat} {collection : Expr} {id : ListId}
    (hcollection : eval fuel scope collection m = (.done (.list id), m₁)) (p : Position)
    (item : String) (body : Statement) :
    ∃ rounds result,
      exec (fuel + 1) scope (.forEach p item collection body) m =
        (result.1, result.2.keepScopes m₁.scopes.size) ∧
      Rounds m₁.scopes.size item id body (m₁.heap.contents id).length fuel 0
        ((m₁.pushScope scope).declare m₁.scopes.size item none) rounds result := by
  let lent : HostFunction → Prop := fun f => f ≠ .push ∧ f ≠ .clear
  have hlends : m.Lends lent := by
    refine Machine.lends_iff.mpr fun g hg => ⟨?_, ?_⟩
    · rintro rfl
      exact hpush hg
    · rintro rfl
      exact hclear hg
  have hlends₁ : m₁.Lends lent := by
    have hconforms : (eval fuel scope collection).Conforms lent (.ofVariables fun _ => False) :=
      (conformsUpTo lent fuel).eval _ scope collection
    have hafter := (hconforms.lends_taken hlends).1
    rwa [hcollection] at hafter
  have hstart : m.Ready False scope := ⟨hm, False.elim, hscope⟩
  obtain ⟨_, _, hid⟩ := ((safeUpTo False fuel).eval hstart False.elim).of_done hstart hcollection
  let entered := (m₁.pushScope scope).declare m₁.scopes.size item none
  have hnew := m₁.getElem?_pushScope_self scope
  have hentered : Entered lent m₁.scopes.size item id (m₁.heap.contents id).length entered :=
    ⟨Machine.declares_declare hnew item none, hid, rfl,
      (hlends₁.pushScope scope).declare _ item none⟩
  obtain ⟨rounds, hrounds⟩ := hentered.forEachRounds_rounds (fun h => h.1 rfl) (fun h => h.2 rfl)
    (Nat.zero_le _) p fuel
  refine ⟨rounds, _, ?_, hrounds⟩
  refine Run.bind_eq_of_done hcollection ?_
  have hbody : (do
      declareVariable m₁.scopes.size item none (some p)
      forEachRounds fuel m₁.scopes.size p item id 0 body : Eval Flow).run (m₁.pushScope scope) =
        (forEachRounds fuel m₁.scopes.size p item id 0 body).run entered :=
    Run.bind_eq_of_done (Step.perform_declareVariable_of_new hnew rfl) rfl
  exact congrArg (fun r => (r.1, r.2.keepScopes m₁.scopes.size)) hbody

end Eval

/-- A machine whose host can print and has the list of 1 and 2 under two names. -/
def Machine.withTwoNames : Machine :=
  (Session.defineVariable "same" (.list 0) (Session.defineVariable "row" (.list 0)
    (Eval.newList [.int 1, .int 2] (Session.start 8 [.print])).2).2).2

/-- The block `{ print(x); same[1] = 5; row = 0; x = 0; }`. -/
def Statement.printAndDisturb : Statement :=
  .block ⟨"main", 1, 20⟩
    [.ofExpr (.call ⟨"main", 1, 22⟩ "print" [.var ⟨"main", 1, 28⟩ "x"]),
      .ofExpr (.assignElement ⟨"main", 1, 32⟩ ⟨"main", 1, 32⟩ "same"
        (.literal ⟨"main", 1, 37⟩ (.int 1)) (.literal ⟨"main", 1, 42⟩ (.int 5))),
      .ofExpr (.assign ⟨"main", 1, 45⟩ ⟨"main", 1, 45⟩ "row" (.literal ⟨"main", 1, 51⟩ (.int 0))),
      .ofExpr (.assign ⟨"main", 1, 54⟩ ⟨"main", 1, 54⟩ "x" (.literal ⟨"main", 1, 58⟩ (.int 0)))]

namespace Eval

/-- The loop `foreach (x in row)` prints 1, and then the 5 that its first round has put in the
place of the 2. -/
theorem forEach_visits_each_index_withTwoNames :
    let loop : Statement :=
      .forEach ⟨"main", 1, 1⟩ "x" (.var ⟨"main", 1, 15⟩ "row") .printAndDisturb
    (exec 31 0 loop Machine.withTwoNames).1 = .done .normal ∧
    (exec 31 0 loop Machine.withTwoNames).2.output = #["1", "5"] ∧
    ∃ rounds result,
      exec 31 0 loop Machine.withTwoNames = (result.1, result.2.keepScopes 1) ∧
      Rounds 1 "x" 0 .printAndDisturb 2 30 0
        ((Machine.withTwoNames.pushScope 0).declare 1 "x" none) rounds result := by
  have hsetUp : Machine.withTwoNames.SetUp := by
    have hlisted := (Session.setUp_start 8 [.print]).perform (.newList [.int 1, .int 2]) (by
      intro v hv
      rcases List.mem_pair.mp hv with rfl | rfl <;> trivial)
    have hnamed := hlisted.perform (.declareVariable Arena.host "row" (some (.list 0)) none)
      ⟨hlisted.orderly.size_pos, fun v hv => Option.some.inj hv ▸ Nat.one_pos⟩
    exact hnamed.perform (.declareVariable Arena.host "same" (some (.list 0)) none)
      ⟨hnamed.orderly.size_pos, fun v hv => Option.some.inj hv ▸ Nat.one_pos⟩
  have hprint : ∀ f, Machine.withTwoNames.Knows f → f = .host .print := by
    intro f hf
    have hlisted := ((Step.perform_change _ _).knows hf).resolve_right id
    have hstarted := ((Step.perform_change _ _).knows hlisted).resolve_right id
    have hdefined := ((Step.perform_change _ _).knows hstarted).resolve_right id
    have hinitial := (Step.perform_change _ _).knows hdefined
    exact (hinitial.resolve_left (Machine.not_knows_initial 8 f)).symm
  have hpush : ¬ Machine.withTwoNames.Knows (.host .push) := by
    intro hknown
    cases hprint _ hknown
  have hclear : ¬ Machine.withTwoNames.Knows (.host .clear) := by
    intro hknown
    cases hprint _ hknown
  have hrow : eval 30 0 (.var ⟨"main", 1, 15⟩ "row") Machine.withTwoNames =
      (.done (.list 0), Machine.withTwoNames) := rfl
  refine ⟨by decide +kernel, by decide +kernel, ?_⟩
  exact forEach_visits_each_index hsetUp.sound hsetUp.orderly.size_pos hpush hclear hrow
    ⟨"main", 1, 1⟩ "x" .printAndDisturb

end Eval

end Scriptlet
