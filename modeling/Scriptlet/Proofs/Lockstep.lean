import Scriptlet.Run

/-!
# Computations in lockstep

Two computations are compared by running them side by side, on states that are related.
They go in lockstep (`Run.Lockstep`) if they always end in the same kind of way, with
related values or related errors, and on related states.

Lockstep is kept by sequencing (`Run.Lockstep.bind`), so it has to be shown of single
steps only.  Reading a script and running one are both computations of this kind.
-/

namespace Scriptlet.Run

variable {σ ε α β : Type} {S S' : σ → σ → Prop} {E E' : ε → ε → Prop} {R : α → α → Prop}
  {Q : β → β → Prop}

/-- Two computations have ended in the same kind of way: with values that `R` relates or
errors that `E` relates, on states that `S` relates. -/
inductive Ends (S : σ → σ → Prop) (E : ε → ε → Prop) (R : α → α → Prop) :
    Outcome ε α × σ → Outcome ε α × σ → Prop where
  | done {a b : α} {s t : σ} (h : R a b) (hs : S s t) : Ends S E R (.done a, s) (.done b, t)
  | failed {e f : ε} {s t : σ} (h : E e f) (hs : S s t) :
      Ends S E R (.failed e, s) (.failed f, t)
  | outOfFuel {s t : σ} (hs : S s t) : Ends S E R (.outOfFuel, s) (.outOfFuel, t)

/-- However two computations have ended, their states are related. -/
theorem Ends.state {r r' : Outcome ε α × σ} (h : Ends S E R r r') : S r.2 r'.2 := by
  cases h with
  | done _ hs | failed _ hs | outOfFuel hs => exact hs

/-- Related errors and states may be taken for what is related less closely. -/
theorem Ends.imp {r r' : Outcome ε α × σ} (h : Ends S E R r r') (hS : ∀ {s t}, S s t → S' s t)
    (hE : ∀ {e f}, E e f → E' e f) : Ends S' E' R r r' := by
  cases h with
  | done h hs => exact .done h (hS hs)
  | failed h hs => exact .failed (hE h) (hS hs)
  | outOfFuel hs => exact .outOfFuel (hS hs)

/-- If the values are the same, one computation has given what the other has. -/
theorem Ends.done_eq {r r' : Outcome ε α × σ} (h : Ends S E Eq r r') {a : α}
    (hr : r.1 = .done a) : r'.1 = .done a := by
  cases h with
  | done h _ => exact h ▸ hr
  | failed | outOfFuel => cases hr

/-- If values and errors are the same, the computations have ended in the same way. -/
theorem Ends.fst_eq {r r' : Outcome ε α × σ} (h : Ends S Eq Eq r r') : r.1 = r'.1 := by
  cases h with
  | done h _ => rw [h]
  | failed h _ => rw [h]
  | outOfFuel _ => rfl

/-- If one computation has failed, so has the other, with a related error. -/
theorem Ends.exists_failed {r r' : Outcome ε α × σ} (h : Ends S E R r r') {e : ε}
    (hr : r.1 = .failed e) : ∃ e', r'.1 = .failed e' ∧ E e e' := by
  cases h with
  | failed h _ =>
      cases hr
      exact ⟨_, rfl, h⟩
  | done | outOfFuel => cases hr

/-- Two sequences whose first parts give values end as their second parts do. -/
theorem Ends.bind_done {x y : Run σ ε α} {f g : α → Run σ ε β} {a b : α} {s t s' t' : σ}
    (hx : x s = (.done a, s')) (hy : y t = (.done b, t')) (h : Ends S E Q (f a s') (g b t')) :
    Ends S E Q ((x >>= f) s) ((y >>= g) t) := by
  rw [Run.bind_done hx, Run.bind_done hy]
  exact h

/-- Two computations that end in the same kind of way from all related states. -/
def Lockstep (S : σ → σ → Prop) (E : ε → ε → Prop) (R : α → α → Prop) (x y : Run σ ε α) : Prop :=
  ∀ ⦃s t : σ⦄, S s t → Ends S E R (x s) (y t)

namespace Lockstep

/-- Related values are given in lockstep. -/
theorem pure {a b : α} (h : R a b) :
    Lockstep S E R (Pure.pure a : Run σ ε α) (Pure.pure b) :=
  fun _ _ hs => .done h hs

/-- Related errors are raised in lockstep. -/
theorem fail {e f : ε} (h : E e f) : Lockstep S E R (Run.fail e : Run σ ε α) (Run.fail f) :=
  fun _ _ hs => .failed h hs

theorem starve : Lockstep S E R (Run.starve : Run σ ε α) Run.starve :=
  fun _ _ hs => .outOfFuel hs

/-- **Sequences go in lockstep** if their first parts do and, after related values, their
second parts. -/
theorem bind {x y : Run σ ε α} {f g : α → Run σ ε β} (hx : Lockstep S E R x y)
    (hf : ∀ a b, R a b → Lockstep S E Q (f a) (g b)) : Lockstep S E Q (x >>= f) (y >>= g) := by
  intro s t hs
  show Ends S E Q (Run.bind x f s) (Run.bind y g t)
  have hfirst := hx hs
  unfold Run.bind
  generalize x s = r, y t = r' at hfirst
  cases hfirst with
  | done h hs' => exact hf _ _ h hs'
  | failed h hs' => exact .failed h hs'
  | outOfFuel hs' => exact .outOfFuel hs'

/-- Optional results go in lockstep if they are related, and so are the errors that stand
for missing ones. -/
theorem ofOption {e f : ε} (h : E e f) {a? b? : Option α} (hab : Option.Rel R a? b?) :
    Lockstep S E R (Run.ofOption e a?) (Run.ofOption f b?) := by
  cases hab with
  | none => exact fail h
  | some hab => exact pure hab

end Lockstep

end Scriptlet.Run
