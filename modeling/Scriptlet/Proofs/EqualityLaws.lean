import Mathlib
import Scriptlet.Proofs.Equality

/-!
# The laws of equality

Equality of values is symmetric and transitive, and a value is equal to itself
unless it is a double that is not a number.  The comparison goes down into lists
and takes a list to be itself by its number, so the laws are shown for a
comparison that goes down at most so deep, by induction on the depth, and both
ways of finding two lists equal go through each step.  Nothing is asked of the
heap; without cycles the bound on the depth is beyond what a comparison needs
(`Heap.Acyclic.sameContentsWithin_eq`).

The operators `==` and `!=` compare lists by their contents only, and an integer
beside a double as a double.  Both answer from one finding
(`BinaryOp.equality?`), which does not depend on the order of the operands.

That `==` on doubles is symmetric and transitive is taken from the library's
theory of `Float`, which no smaller part of it than the whole brings in.
-/

namespace Scriptlet

/-- A double differs from itself if and only if it is not a number. -/
theorem Double.beq_self_eq_false_iff {x : Float} : (x == x) = false ↔ x.isNaN = true := by
  rw [Float.beq_self_eq_false_iff, Float.isNaN_eq_decide_eq_nan, decide_eq_true_eq]

/-! ## Values -/

namespace Heap

variable {h : Heap} {same : ListId → ListId → Bool} {depth : Nat} {a b c : ListId} {u v w : Value}

/-- Two values that are equal are equal the other way round, if it is so with lists. -/
theorem equalBy_symm (hsame : ∀ a b, same a b = true → same b a = true)
    (hvw : equalBy same v w = true) : equalBy same w v = true := by
  cases v <;> cases w <;> simp only [equalBy, beq_iff_eq, Bool.false_eq_true] at hvw ⊢
  case double.double => exact BEq.symm hvw
  case list.list a b =>
      rw [Bool.or_eq_true, beq_iff_eq] at hvw ⊢
      exact hvw.imp Eq.symm (hsame a b)
  all_goals exact hvw.symm

/-- One list on both sides, or two with equal elements, in each of two
comparisons: the outer lists are one, or they have equal elements. -/
theorem equalBy_trans
    (hsame : ∀ a b c, same a b = true → same b c = true → same a c = true)
    (huv : equalBy same u v = true) (hvw : equalBy same v w = true) :
    equalBy same u w = true := by
  cases u <;> cases v <;> simp only [equalBy, beq_iff_eq, Bool.false_eq_true] at huv <;>
    cases w <;> simp only [equalBy, beq_iff_eq, Bool.false_eq_true] at hvw ⊢
  case double.double.double => exact BEq.trans huv hvw
  case list.list.list a b c =>
      rw [Bool.or_eq_true, beq_iff_eq] at huv hvw ⊢
      rcases huv with rfl | hab
      · exact hvw
      · rcases hvw with rfl | hbc
        · exact .inr hab
        · exact .inr (hsame a b c hab hbc)
  all_goals exact huv.trans hvw

/-- Lists with the same contents have so the other way round.  By induction on the depth. -/
theorem sameContentsWithin_symm (hab : h.sameContentsWithin depth a b = true) :
    h.sameContentsWithin depth b a = true := by
  induction depth generalizing a b with
  | zero => exact hab
  | succ depth ih =>
      rw [sameContentsWithin_succ_iff] at hab ⊢
      exact (hab.imp fun v w hvw => equalBy_symm (fun _ _ => ih) hvw).flip

/-- Lists with the contents of a third have the same contents.  By induction on the
depth. -/
theorem sameContentsWithin_trans (hab : h.sameContentsWithin depth a b = true)
    (hbc : h.sameContentsWithin depth b c = true) : h.sameContentsWithin depth a c = true := by
  induction depth generalizing a b c with
  | zero => exact hab
  | succ depth ih =>
      rw [sameContentsWithin_succ_iff] at hab hbc ⊢
      refine List.forall₂_iff_get.mpr ⟨hab.length_eq.trans hbc.length_eq, fun i hi hi' => ?_⟩
      have hi'' : i < (h.contents b).length := hab.length_eq ▸ hi
      exact equalBy_trans (fun _ _ _ => ih) (hab.get hi hi'') (hbc.get hi'' hi')

/-- Comparing contents does not depend on the order. -/
theorem sameContents_comm : h.sameContents a b = h.sameContents b a :=
  Bool.eq_iff_iff.mpr ⟨sameContentsWithin_symm, sameContentsWithin_symm⟩

/-- Equality does not depend on the order. -/
theorem equal_comm : h.equal v w = h.equal w v :=
  Bool.eq_iff_iff.mpr
    ⟨equalBy_symm fun _ _ => sameContentsWithin_symm,
      equalBy_symm fun _ _ => sameContentsWithin_symm⟩

/-- Values that are equal to a third are equal. -/
theorem equal_trans (huv : h.equal u v = true) (hvw : h.equal v w = true) :
    h.equal u w = true :=
  equalBy_trans (fun _ _ _ => sameContentsWithin_trans) huv hvw

/-- A value is equal to itself unless it is a double that is not a number. -/
theorem equal_self_eq_true_iff : h.equal v v = true ↔ ∀ x, v = .double x → x.isNaN = false := by
  cases v with
  | double x =>
      rw [equal, equalBy, ← Bool.not_eq_false, Double.beq_self_eq_false_iff]
      simp
  | list id => simp [equal, equalBy]
  | bool x | int x | str x => simp [equal, equalBy]

end Heap

/-! ## The operators `==` and `!=` -/

namespace BinaryOp

variable {h : Heap} {a b : Value}

/-- What the operators `==` and `!=` find out about their operands, where they are
defined: whether two values of one kind are equal, lists by their contents, or
two numbers of which one is a double. -/
def equality? (h : Heap) : Value → Value → Option Bool
  | .list a, .list b => some (h.sameContents a b)
  | .int a, .int b => some (a == b)
  | .str a, .str b => some (a == b)
  | .bool a, .bool b => some (a == b)
  | a, b => do return (← a.number?) == (← b.number?)

/-- The operator `==` answers what was found out, and fails where nothing can be. -/
theorem apply_equal : BinaryOp.equal.apply h a b =
    (equality? h a b).elim (.error .undefinedForKinds) fun x => .ok (.bool x, h) := by
  cases a <;> cases b <;> rfl

/-- The operator `!=` answers the opposite, and fails where nothing can be found out. -/
theorem apply_notEqual : BinaryOp.notEqual.apply h a b =
    (equality? h a b).elim (.error .undefinedForKinds) fun x => .ok (.bool !x, h) := by
  cases a <;> cases b <;> rfl

/-- What is found out does not depend on the order of the operands. -/
theorem equality?_comm : equality? h a b = equality? h b a := by
  cases a <;> cases b
  case list.list => exact congrArg some Heap.sameContents_comm
  case int.int | str.str | bool.bool => exact congrArg some BEq.comm
  case int.double | double.int | double.double => exact congrArg some (BEq.comm (α := Float))
  all_goals rfl

/-- The operators are defined for two values of one kind and for two numbers. -/
theorem isSome_equality?_iff : (equality? h a b).isSome = true ↔
    a.kind = b.kind ∨ a.number?.isSome = true ∧ b.number?.isSome = true := by
  cases a <;> cases b <;> simp [equality?, Value.number?, Value.kind]

end BinaryOp

/-- **Equality is symmetric and transitive, and reflexive on what holds no double
that is not a number; `!=` is defined where `==` is and answers the opposite, and
neither depends on the order of the operands.**  They are defined for two values
of one kind and for an integer beside a double. -/
theorem Heap.equality_laws (h : Heap) :
    (∀ v w, h.equal v w = h.equal w v) ∧
    (∀ u v w, h.equal u v = true → h.equal v w = true → h.equal u w = true) ∧
    (∀ v, ¬ h.HoldsNaN v → h.equal v v = true) ∧
    (∀ x, h.HoldsNaN (.double x) ↔ x.isNaN = true) ∧
    (∀ a b : Value, (a.kind = b.kind ∨ a.number?.isSome = true ∧ b.number?.isSome = true) ∧
        (∃ x, BinaryOp.equal.apply h a b = .ok (.bool x, h) ∧
          BinaryOp.notEqual.apply h a b = .ok (.bool !x, h)) ∨
      ¬ (a.kind = b.kind ∨ a.number?.isSome = true ∧ b.number?.isSome = true) ∧
        BinaryOp.equal.apply h a b = .error .undefinedForKinds ∧
          BinaryOp.notEqual.apply h a b = .error .undefinedForKinds) ∧
    ∀ a b, BinaryOp.equal.apply h a b = BinaryOp.equal.apply h b a ∧
      BinaryOp.notEqual.apply h a b = BinaryOp.notEqual.apply h b a := by
  have hnan : ∀ x, h.HoldsNaN (.double x) ↔ x.isNaN = true := by
    intro x
    rw [← Double.beq_self_eq_false_iff]
    constructor
    · intro hx
      cases hx with
      | here hx => exact hx
    · exact .here
  refine ⟨fun v w => equal_comm, fun u v w => equal_trans, fun v hv => ?_, hnan, fun a b => ?_,
    fun a b => ?_⟩
  · refine equal_self_eq_true_iff.mpr fun x hx => ?_
    subst hx
    rwa [hnan, Bool.not_eq_true] at hv
  · rw [← BinaryOp.isSome_equality?_iff (h := h), BinaryOp.apply_equal, BinaryOp.apply_notEqual]
    cases BinaryOp.equality? h a b with
    | none => exact .inr ⟨Bool.false_ne_true, rfl, rfl⟩
    | some x => exact .inl ⟨rfl, x, rfl, rfl⟩
  · simp only [BinaryOp.apply_equal, BinaryOp.apply_notEqual, BinaryOp.equality?_comm (a := a),
      and_self]

end Scriptlet
