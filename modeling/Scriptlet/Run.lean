/-!
# Computations over a state that may fail or run out of fuel

Reading a script and running one have the same shape.  Both walk through a
state (the tokens that are left, the machine), both may stop with an error,
and in both the state reached at the error stays visible: the tokens an
unfinished reading leaves behind, the effects a failed script has had.

Fuel bounds the depth of a recursion that the data alone does not bound.  That
the fuel ran out is an ending of its own, so no theorem can mistake it for a
result of the computation.
-/

namespace Scriptlet

/-- How a computation ended. -/
inductive Outcome (ε α : Type) where
  /-- It gave a value. -/
  | done (value : α)
  /-- It stopped with an error. -/
  | failed (error : ε)
  /-- Its fuel was used up before it could end. -/
  | outOfFuel
  deriving DecidableEq

namespace Outcome

variable {ε α : Type}

/-- The value or the error; `starved` stands for a computation without an end. -/
def toExcept (starved : ε) : Outcome ε α → Except ε α
  | .done a => .ok a
  | .failed e => .error e
  | .outOfFuel => .error starved

end Outcome

/-- A computation that reads and changes a state `σ`.  Every ending carries the
state that was reached, an error included. -/
def Run (σ ε α : Type) : Type :=
  σ → Outcome ε α × σ

namespace Run

variable {σ ε α β : Type}

/-- Gives `a` and leaves the state alone. -/
@[always_inline, inline]
protected def pure (a : α) : Run σ ε α :=
  fun s => (.done a, s)

/-- Continues with `f` after a value; any other ending is the ending of the whole. -/
@[always_inline, inline]
protected def bind (x : Run σ ε α) (f : α → Run σ ε β) : Run σ ε β :=
  fun s =>
    match x s with
    | (.done a, s') => f a s'
    | (.failed e, s') => (.failed e, s')
    | (.outOfFuel, s') => (.outOfFuel, s')

@[always_inline]
instance : Monad (Run σ ε) where
  pure := Run.pure
  bind := Run.bind

/-- Stops with the error `e`. -/
@[always_inline, inline]
def fail (e : ε) : Run σ ε α :=
  fun s => (.failed e, s)

/-- Ends for want of fuel. -/
@[always_inline, inline]
def starve : Run σ ε α :=
  fun s => (.outOfFuel, s)

/-- Looks at the state. -/
@[always_inline, inline]
def read (f : σ → α) : Run σ ε α :=
  fun s => (.done (f s), s)

/-- Changes the state. -/
@[always_inline, inline]
def update (f : σ → σ) : Run σ ε Unit :=
  fun s => (.done (), f s)

/-- The value of an optional result; without one the error `e`. -/
@[always_inline, inline]
def ofOption (e : ε) : Option α → Run σ ε α
  | some a => Run.pure a
  | none => fail e

/-- After a value a sequence goes on with its second part. -/
theorem bind_done {x : Run σ ε α} {s s' : σ} {a : α} (h : x s = (.done a, s'))
    (f : α → Run σ ε β) : (x >>= f) s = f a s' := by
  show Run.bind x f s = f a s'
  simp only [Run.bind, h]

/-- A sequence goes on from what its first part gives. -/
theorem bind_eq_of_done {x : Run σ ε α} {f : α → Run σ ε β} {s s' : σ} {a : α}
    {r : Outcome ε β × σ} (hx : x s = (.done a, s')) (hf : f a s' = r) : (x >>= f) s = r := by
  rw [bind_done hx, hf]

/-- Two sequences agree that go on in the same way from where they agree. -/
theorem bind_eq_bind {x y : Run σ ε α} {s t : σ} (h : x s = y t) (f : α → Run σ ε β) :
    (x >>= f) s = (y >>= f) t := by
  show Run.bind x f s = Run.bind y f t
  simp only [Run.bind, h]

/-- A failure of the first part is that of the sequence. -/
theorem bind_failed {x : Run σ ε α} {s s' : σ} {e : ε} (h : x s = (.failed e, s'))
    (f : α → Run σ ε β) : (x >>= f) s = (.failed e, s') := by
  show Run.bind x f s = _
  simp only [Run.bind, h]

/-- A first part that runs out of fuel ends the sequence. -/
theorem bind_outOfFuel {x : Run σ ε α} {s s' : σ} (h : x s = (.outOfFuel, s'))
    (f : α → Run σ ε β) : (x >>= f) s = (.outOfFuel, s') := by
  show Run.bind x f s = _
  simp only [Run.bind, h]

/-- A sequence gives a value where both of its parts do. -/
theorem bind_eq_done_iff {x : Run σ ε α} {f : α → Run σ ε β} {s s' : σ} {b : β} :
    (x >>= f) s = (.done b, s') ↔ ∃ a t, x s = (.done a, t) ∧ f a t = (.done b, s') := by
  show Run.bind x f s = _ ↔ _
  unfold Run.bind
  constructor
  · intro h
    rcases hx : x s with ⟨a | e | _, t⟩ <;> rw [hx] at h
    · exact ⟨a, t, rfl, h⟩
    · cases h
    · cases h
  · rintro ⟨a, t, hx, hf⟩
    rw [hx]
    exact hf

/-- The monad laws, so that the sequencing of steps may be regrouped. -/
instance : LawfulMonad (Run σ ε) :=
  LawfulMonad.mk' (Run σ ε)
    (fun x => by
      funext s
      show Run.bind x Run.pure s = x s
      unfold Run.bind
      rcases x s with ⟨_ | _ | _, s'⟩ <;> rfl)
    (fun _ _ => rfl)
    (fun x f g => by
      funext s
      show Run.bind (Run.bind x f) g s = Run.bind x (fun a => Run.bind (f a) g) s
      unfold Run.bind
      rcases x s with ⟨_ | _ | _, s'⟩ <;> rfl)

end Run

end Scriptlet
