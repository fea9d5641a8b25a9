import Scriptlet.Proofs.DatumReading
import Scriptlet.Proofs.LikeRuns
import Scriptlet.Session

/-!
# Written values read back

An expression that spells out a datum gives a value that stands for it.  It makes
new lists for this and changes none that is there.  So a script that returns the
text of a value gives an equal one, whatever the lists of the value share and
however they are nested; only the least integer is refused, since its digits
alone are out of range.
-/

namespace Scriptlet

/-! ## What a computation gives if it has enough fuel -/

namespace Eval

variable {α β : Type} {m m' m'' : Machine}

/-- With enough fuel the computation gives the value, and the second machine. -/
def Gives (x : Nat → Eval α) (m : Machine) (a : α) (m' : Machine) : Prop :=
  ∃ enough, ∀ n, enough ≤ n → (x n).run m = (.done a, m')

theorem gives_pure (a : α) (m : Machine) : Gives (fun _ => pure a) m a m :=
  ⟨0, fun _ _ => rfl⟩

/-- What is given with one unit more is given with enough fuel. -/
theorem Gives.of_succ {x : Nat → Eval α} {a : α} (h : Gives (fun n => x (n + 1)) m a m') :
    Gives x m a m' := by
  obtain ⟨enough, hrun⟩ := h
  refine ⟨enough + 1, fun n hn => ?_⟩
  obtain ⟨k, rfl⟩ : ∃ k, n = k + 1 := ⟨n - 1, by omega⟩
  exact hrun k (Nat.le_of_succ_le_succ hn)

/-- A sequence gives what its second part gives on the machine that the first one leaves. -/
theorem Gives.bind {x : Nat → Eval α} {f : Nat → α → Eval β} {a : α} {b : β}
    (hx : Gives x m a m') (hf : Gives (fun n => f n a) m' b m'') :
    Gives (fun n => x n >>= f n) m b m'' := by
  obtain ⟨enough, hrun⟩ := hx
  obtain ⟨enough', hrun'⟩ := hf
  refine ⟨max enough enough', fun n hn => ?_⟩
  exact Run.bind_eq_of_done (hrun n (by omega)) (hrun' n (by omega))

/-- A new list is given as the next one of the heap. -/
theorem gives_newList (items : List Value) (m : Machine) :
    Gives (fun _ => newList items) m (.list (m.heap.alloc items).1)
      { m with heap := (m.heap.alloc items).2 } :=
  ⟨0, fun _ _ => rfl⟩

/-! ## Expressions that spell out data -/

/-- What is asked of an expression that spells out a datum: from every machine it gives
a value that stands for the datum, and only makes new lists. -/
def Restores (scope : ScopeId) (e : Expr) (d : Datum) : Prop :=
  ∀ m : Machine, ∃ v heap, m.heap.Extends heap ∧ heap.Unfolds v d ∧
    Gives (fun n => eval n scope e) m v { m with heap }

/-- Elements that restore their data are evaluated to values that stand for them, on one
heap. -/
theorem exists_gives_evalAll {scope : ScopeId} {es : List Expr} {items : List Datum}
    (h : List.Forall₂ (Restores scope) es items) (m : Machine) :
    ∃ vs heap, m.heap.Extends heap ∧ List.Forall₂ heap.Unfolds vs items ∧
      Gives (fun n => evalAll n scope es) m vs { m with heap } := by
  induction h generalizing m with
  | nil => exact ⟨[], m.heap, .refl m.heap, .nil, .of_succ (gives_pure [] m)⟩
  | cons hhead _ ih =>
      obtain ⟨v, heap, hextends, hv, hgives⟩ := hhead m
      obtain ⟨vs, heap', hextends', hvs, hgives'⟩ := ih { m with heap }
      refine ⟨v :: vs, heap', hextends.trans hextends', .cons (hv.mono hextends') hvs, ?_⟩
      exact .of_succ (hgives.bind (hgives'.bind (gives_pure _ _)))

/-- **An expression that spells out a datum restores it.** -/
theorem restores_of_spells {e : Expr} {d : Datum} (h : e.Spells d) (scope : ScopeId) :
    Restores scope e d := by
  induction d generalizing e with
  | bool b =>
      intro m
      cases h
      exact ⟨.bool b, m.heap, .refl m.heap, .bool b, .of_succ (gives_pure _ m)⟩
  | int n =>
      intro m
      refine ⟨.int n, m.heap, .refl m.heap, .int n, ?_⟩
      cases h with
      | int p => exact .of_succ (gives_pure _ m)
      | @negative p q _ k hneg =>
          have hoperand : Gives (fun n => eval n scope (.literal q (.int k))) m (.int k) m :=
            .of_succ (gives_pure _ m)
          rw [← hneg]
          exact .of_succ (hoperand.bind (gives_pure _ m))
  | list items ih =>
      intro m
      cases h with
      | list p hspells =>
          have helements : List.Forall₂ (Restores scope) _ items :=
            forall₂_imp_of_mem hspells fun d hd _ h => ih d hd h
          obtain ⟨vs, heap, hextends, hvs, hgives⟩ := exists_gives_evalAll helements m
          have hlist := hgives.bind (gives_newList vs { m with heap })
          exact ⟨_, _, hextends.trans (.alloc heap vs), .alloc hvs, .of_succ hlist⟩

/-! ## Scripts that return data -/

/-- A scope that a computation opens is gone when it has given its value. -/
theorem gives_inScope {body : Nat → ScopeId → Eval α} {parent : ScopeId} {a : α} {heap : Heap}
    {s : Scope} (h : Gives (fun n => body n m.scopes.size) (m.pushScope parent) a
      ({ m with heap }.withScope s)) :
    Gives (fun n => inScope parent (body n)) m a { m with heap } := by
  obtain ⟨enough, hrun⟩ := h
  refine ⟨enough, fun n hn => ?_⟩
  have hkeep : ({ m with heap }.withScope s).keepScopes m.scopes.size = { m with heap } :=
    Machine.keepScopes_withScope { m with heap }
  simp only [run]
  rw [hrun n hn, hkeep]

/-- A script that returns what spells out a datum gives a value that stands for it. -/
theorem exists_gives_execute {e : Expr} {d : Datum} (h : e.Spells d) (name : String)
    (p : Position) (m : Machine) :
    ∃ v heap, m.heap.Extends heap ∧ heap.Unfolds v d ∧
      Gives (fun n => execute n ⟨name, [.returns p (some e)], []⟩) m (some v)
        { m with heap } := by
  let s := (Scope.empty (some Arena.host)).withBuiltins Builtin.all
  obtain ⟨v, heap, hextends, hv, hvalue⟩ :=
    restores_of_spells h m.scopes.size (m.withScope s)
  refine ⟨v, heap, hextends, hv, .of_succ (gives_inScope (s := s) ?_)⟩
  have hbuiltins : Gives (fun _ => declareBuiltins m.scopes.size Builtin.all)
      (m.pushScope Arena.host) () (m.withScope s) :=
    ⟨0, fun _ _ => run_declareBuiltins_all m Arena.host⟩
  have hreturn : Gives (fun n => exec n m.scopes.size (.returns p (some e))) (m.withScope s)
      (.returned (some v) p) { m.withScope s with heap } :=
    .of_succ (hvalue.bind (gives_pure _ _))
  have hall : Gives (fun n => execAll n m.scopes.size [.returns p (some e)]) (m.withScope s)
      (.returned (some v) p) { m.withScope s with heap } :=
    .of_succ (hreturn.bind (gives_pure _ _))
  exact hbuiltins.bind ((gives_pure () _).bind (hall.bind (gives_pure (some v) _)))

end Eval

namespace Session

/-- **A written value reads back.**  The script that returns the text of a value gives
a value that stands for the same datum, and is equal to the first, if the least
integer is nowhere in it.  If it is, the text is no script. -/
theorem runText_render {m : Machine} {v : Value} {d : Datum} (hv : m.heap.Unfolds v d)
    (name : String) :
    (¬ d.Mentions Int32.minValue → ∃ v' heap, heap.Unfolds v d ∧ heap.Unfolds v' d ∧
      heap.equal v v' = true ∧ ∃ enough, ∀ fuel, enough ≤ fuel →
        runText fuel name ("return " ++ m.heap.render v ++ ";") m =
          (.done (some v'), { m with heap })) ∧
    (d.Mentions Int32.minValue → ∃ p, ∀ fuel,
      runText fuel name ("return " ++ m.heap.render v ++ ";") m =
        (.failed (.parse ⟨.literalOutOfRange "2147483648", some p⟩), m)) := by
  rw [hv.render_eq]
  constructor
  · intro hmin
    obtain ⟨p, e, htext, hspells⟩ := (Datum.readable hmin).ofText_return name
    obtain ⟨v', heap, hextends, hv', enough, hrun⟩ :=
      Eval.exists_gives_execute hspells name p m
    have hkept := hv.mono hextends
    refine ⟨v', heap, hkept, hv', hkept.equal_eq_true hv', enough, fun fuel hfuel => ?_⟩
    simp only [runText, htext, hrun fuel hfuel]
  · intro hmin
    obtain ⟨p, htext⟩ := (Datum.refused hmin).ofText_return name
    refine ⟨p, fun fuel => ?_⟩
    simp only [runText, htext, Datum.leastInteger]

/-- A heap with a list of integers, a list that holds this list twice, one that holds
both of these and one that is empty, and a list with the least integer. -/
def sharedLists : Heap :=
  ⟨#[[.int (-7), .int 2147483647], [.list 0, .list 0, .bool true], [.list 1, .list 3, .list 0], [],
    [.list 0, .int (-2147483648)]]⟩

/-- Shared and nested lists with negative integers read back, and the least integer does
not. -/
theorem runText_render_sharedLists :
    let m := { Machine.initial 128 with heap := sharedLists }
    let pair := Datum.list [.int (-7), .int 2147483647]
    let nested := Datum.list [.list [pair, pair, .bool true], .list [], pair]
    let least := Datum.list [pair, .int Int32.minValue]
    (sharedLists.Unfolds (.list 2) nested ∧ ¬ nested.Mentions Int32.minValue ∧
      ∃ v' heap, heap.Unfolds (.list 2) nested ∧ heap.Unfolds v' nested ∧
        heap.equal (.list 2) v' = true ∧ ∃ enough, ∀ fuel, enough ≤ fuel →
          runText fuel "s" ("return " ++ sharedLists.render (.list 2) ++ ";") m =
            (.done (some v'), { m with heap })) ∧
    (sharedLists.Unfolds (.list 4) least ∧ least.Mentions Int32.minValue ∧
      ∃ p, ∀ fuel, runText fuel "s" ("return " ++ sharedLists.render (.list 4) ++ ";") m =
        (.failed (.parse ⟨.literalOutOfRange "2147483648", some p⟩), m)) := by
  intro m pair nested least
  have hpair : sharedLists.Unfolds (.list 0) pair :=
    .list (by decide) (.cons (.int _) (.cons (.int _) .nil))
  have hpairs : sharedLists.Unfolds (.list 1) (.list [pair, pair, .bool true]) :=
    .list (by decide) (.cons hpair (.cons hpair (.cons (.bool true) .nil)))
  have hempty : sharedLists.Unfolds (.list 3) (.list []) := .list (by decide) .nil
  have hnested : sharedLists.Unfolds (.list 2) nested :=
    .list (by decide) (.cons hpairs (.cons hempty (.cons hpair .nil)))
  have hleast : sharedLists.Unfolds (.list 4) least :=
    .list (by decide) (.cons hpair (.cons (.int _) .nil))
  have hgreatest : (2147483647 : Int32) ≠ Int32.minValue := by decide
  have hnone : ¬ nested.Mentions Int32.minValue := by
    simp [nested, pair, hgreatest]
  have hmin : least.Mentions Int32.minValue := by
    simp [least]
  have hread := runText_render (m := m) hnested "s"
  have hrefused := runText_render (m := m) hleast "s"
  exact ⟨⟨hnested, hnone, hread.1 hnone⟩, hleast, hmin, hrefused.2 hmin⟩

end Session

end Scriptlet
