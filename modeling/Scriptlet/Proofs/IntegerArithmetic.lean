import Mathlib.Data.Int.ModEq
import Mathlib.Data.Rat.Floor
import Scriptlet.Value.Operation

/-!
# What the operators do with integers

An operation on two integers is the operation on whole numbers, brought back into the range of
thirty-two bits with sign (`Integer.wrap`): the result is the one number of that range which
differs from the exact one by a multiple of `2 ^ 32`.  Division is cut off toward zero, and only
the quotient of the least integer by `-1` is beyond the range (`Integer.IsQuotient`).  A shift
takes its amount modulo thirty-two, so a negative amount is one between zero and thirty-one too
(`Integer.shiftAmount`).

What can fail is division by zero, and the operators of truth values.
-/

namespace Scriptlet

namespace Integer

/-! ## The range of thirty-two bits -/

/-- The number from `-2 ^ 31` up to `2 ^ 31 - 1` that differs from `x` by a multiple of
`2 ^ 32`. -/
def wrap (x : Int) : Int := (x + 2147483648) % 4294967296 - 2147483648

/-- A number differs by a multiple of `2 ^ 32` from what it is brought to. -/
theorem wrap_modEq (x : Int) : wrap x ≡ x [ZMOD 4294967296] := by
  unfold wrap Int.ModEq
  omega

/-- Numbers that differ by a multiple of `2 ^ 32` are brought to the same one. -/
theorem wrap_eq_of_modEq {x y : Int} (h : x ≡ y [ZMOD 4294967296]) : wrap x = wrap y := by
  unfold Int.ModEq at h
  unfold wrap
  omega

/-- The balanced remainder of the library is the number that is brought into the range. -/
theorem bmod_eq_wrap (x : Int) : x.bmod (2 ^ 32) = wrap x := by
  rw [Int.bmod_def]
  unfold wrap
  norm_num
  split <;> omega

/-! ## Division -/

/-- `q` and `r` are what the division of `a` by `b` gives and leaves.  The quotient is cut off
toward zero and the remainder is on the same side of zero as `a`.  One quotient, that of the
least integer by `-1`, is beyond the range and comes back as the least integer. -/
structure IsQuotient (a b q r : Int) : Prop where
  division : q * b + r ≡ a [ZMOD 4294967296]
  smaller : r.natAbs < b.natAbs
  sign : r = 0 ∨ r.sign = a.sign
  cutOff : ¬ (a = -2147483648 ∧ b = -1) → q = a.tdiv b
  beyond : a = -2147483648 → b = -1 → q = -2147483648 ∧ r = 0

/-- A remainder is smaller than the divisor. -/
theorem natAbs_tmod_lt (x : Int) {y : Int} (hy : y ≠ 0) :
    (x.tmod y).natAbs < y.natAbs := by
  rw [Int.natAbs_tmod]
  exact Nat.mod_lt _ (Int.natAbs_pos.mpr hy)

/-- A remainder is zero or on the same side of zero as the dividend. -/
theorem tmod_eq_zero_or_sign (x y : Int) : x.tmod y = 0 ∨ (x.tmod y).sign = x.sign := by
  have hsign := Int.sign_tmod x y
  by_cases hdvd : y ∣ x
  · rw [if_pos hdvd] at hsign
    exact .inl (Int.sign_eq_zero_iff_zero.mp hsign)
  · rw [if_neg hdvd] at hsign
    exact .inr hsign

/-- But for the one quotient that is beyond the range, division is that of whole numbers. -/
theorem toInt_div_eq {a b : Int32} (h : ¬ (a.toInt = -2147483648 ∧ b.toInt = -1)) :
    (a / b).toInt = a.toInt.tdiv b.toInt := by
  by_cases ha : a = Int32.minValue
  · have hb : b ≠ -1 := by
      intro hb
      exact h ⟨by rw [ha]; rfl, by rw [hb]; rfl⟩
    exact Int32.toInt_div_of_ne_right a b hb
  · exact Int32.toInt_div_of_ne_left a b ha

/-- The two results of a division belong together. -/
theorem isQuotient_div_mod {a b : Int32} (hb : b ≠ 0) :
    IsQuotient a.toInt b.toInt (a / b).toInt (a % b).toInt := by
  have hb' : b.toInt ≠ 0 := fun h => hb (Int32.toInt_inj.mp h)
  have hwhole : a.toInt.tdiv b.toInt * b.toInt + a.toInt.tmod b.toInt = a.toInt := by
    rw [mul_comm]
    exact Int.mul_tdiv_add_tmod _ _
  have hdiv : (a / b).toInt ≡ a.toInt.tdiv b.toInt [ZMOD 4294967296] := by
    rw [Int32.toInt_div, bmod_eq_wrap]
    exact wrap_modEq _
  rw [Int32.toInt_mod]
  refine ⟨?_, natAbs_tmod_lt _ hb', tmod_eq_zero_or_sign _ _, toInt_div_eq, ?_⟩
  · calc (a / b).toInt * b.toInt + a.toInt.tmod b.toInt
        ≡ a.toInt.tdiv b.toInt * b.toInt + a.toInt.tmod b.toInt [ZMOD 4294967296] :=
          (hdiv.mul_right _).add_right _
      _ ≡ a.toInt [ZMOD 4294967296] := by rw [hwhole]
  · intro hmin hneg
    rw [Int32.toInt_div, hmin, hneg]
    decide

/-! ## Shifts -/

/-- The amount of a shift: the remainder of `b` by thirty-two, from zero to thirty-one. -/
def shiftAmount (b : Int) : Nat := (b % 32).toNat

example : shiftAmount (-1) = 31 ∧ shiftAmount 33 = 1 := by decide

/-- The amount of a shift, taken modulo thirty-two as bits, is the shift amount of the
integer. -/
theorem toNat_smod (b : Int32) : (b.toBitVec.smod 32).toNat = shiftAmount b.toInt := by
  have hmod : (b.toBitVec.smod 32).toInt = b.toInt % 32 := by
    rw [BitVec.toInt_smod]
    exact Int.fmod_eq_emod_of_nonneg _ (by decide)
  have hlt := (b.toBitVec.smod 32).isLt
  rw [BitVec.toInt_eq_toNat_bmod, bmod_eq_wrap] at hmod
  unfold wrap at hmod
  unfold shiftAmount
  omega

/-- A shift to the left multiplies by a power of two, brought back into the range. -/
theorem toInt_shiftLeft (a b : Int32) :
    (a <<< b).toInt = wrap (a.toInt * 2 ^ shiftAmount b.toInt) := by
  have hbits : (a.toBitVec.toNat : Int) ≡ a.toInt [ZMOD 4294967296] := by
    show _ ≡ a.toBitVec.toInt [ZMOD _]
    rw [BitVec.toInt_eq_toNat_bmod, bmod_eq_wrap]
    exact (wrap_modEq _).symm
  rw [← Int32.toInt_toBitVec, Int32.toBitVec_shiftLeft, BitVec.shiftLeft_eq', toNat_smod,
    BitVec.toInt_shiftLeft, bmod_eq_wrap, Nat.shiftLeft_eq]
  push_cast
  exact wrap_eq_of_modEq (hbits.mul_right _)

/-- A shift to the right divides by a power of two and rounds down. -/
theorem toInt_shiftRight (a b : Int32) :
    (a >>> b).toInt = ⌊(a.toInt : ℚ) / 2 ^ shiftAmount b.toInt⌋ := by
  have hfloor := Rat.floor_intCast_div_natCast a.toInt (2 ^ shiftAmount b.toInt)
  push_cast at hfloor
  rw [hfloor, ← Int32.toInt_toBitVec, Int32.toBitVec_shiftRight, BitVec.toInt_sshiftRight',
    toNat_smod, Int.shiftRight_eq_div_pow]
  push_cast
  rfl

end Integer

/-! ## The operators -/

open Integer

namespace BinaryOp

variable {h : Heap} {a b : Int32}

/-- Between the two integers the operator gives the integer `x`, and the heap stays as it is. -/
def Gives (op : BinaryOp) (h : Heap) (a b : Int32) (x : Int) : Prop :=
  ∃ c : Int32, op.apply h (.int a) (.int b) = .ok (.int c, h) ∧ c.toInt = x

/-- Division by another integer than zero gives the quotient. -/
theorem gives_div (hb : b ≠ 0) : div.Gives h a b (a / b).toInt := by
  refine ⟨a / b, ?_, rfl⟩
  simp [apply, onInts?, hb, Except.map]

/-- The remainder by another integer than zero is given. -/
theorem gives_mod (hb : b ≠ 0) : mod.Gives h a b (a % b).toInt := by
  refine ⟨a % b, ?_, rfl⟩
  simp [apply, onInts?, hb, Except.map]

/-- Between integers nothing fails but a division by zero and what is no operation on values. -/
theorem apply_ints_eq_error_iff {op : BinaryOp} {fault : OperandFault} :
    op.apply h (.int a) (.int b) = .error fault ↔
      b = 0 ∧ (op = div ∨ op = mod) ∧ fault = .divisionByZero ∨
        (op = and ∨ op = or) ∧ fault = .undefinedForKinds := by
  cases op with
  | div | mod =>
      by_cases hb : b = 0
      · simp only [apply, onInts?, hb, Except.map]
        grind
      · simp [apply, onInts?, hb, Except.map]
  | and | or =>
      simp only [apply, onInts?]
      grind
  | _ => simp [apply, onInts?, Except.map]

end BinaryOp

/-- **Integer operators are exact up to multiples of `2 ^ 32`.**  Sums, differences, products and
shifts to the left are the exact ones, brought back into the range; a shift to the right is the
exact quotient, rounded down.  A division by anything but zero gives a quotient and a remainder
that belong together.  Of all operators between two integers only a division by zero fails, and
the two that are defined for truth values alone; of those before one only `!`. -/
theorem integer_operators_exact (h : Heap) (a b : Int32) :
    BinaryOp.add.Gives h a b (wrap (a.toInt + b.toInt)) ∧
    BinaryOp.sub.Gives h a b (wrap (a.toInt - b.toInt)) ∧
    BinaryOp.mul.Gives h a b (wrap (a.toInt * b.toInt)) ∧
    (b ≠ 0 → ∃ q r, BinaryOp.div.Gives h a b q ∧ BinaryOp.mod.Gives h a b r ∧
      IsQuotient a.toInt b.toInt q r) ∧
    BinaryOp.shiftLeft.Gives h a b (wrap (a.toInt * 2 ^ shiftAmount b.toInt)) ∧
    BinaryOp.shiftRight.Gives h a b ⌊(a.toInt : ℚ) / 2 ^ shiftAmount b.toInt⌋ ∧
    (∀ op fault, BinaryOp.apply op h (.int a) (.int b) = .error fault ↔
      b = 0 ∧ (op = .div ∨ op = .mod) ∧ fault = .divisionByZero ∨
        (op = .and ∨ op = .or) ∧ fault = .undefinedForKinds) ∧
    OperandFault.divisionByZero.text = "division by zero" ∧
    (∃ c : Int32, UnaryOp.negate.apply (.int a) = .ok (.int c) ∧ c.toInt = wrap (-a.toInt)) ∧
    (∃ c : Int32, UnaryOp.complement.apply (.int a) = .ok (.int c) ∧
      c.toInt = wrap (-a.toInt - 1)) ∧
    ∀ op fault, UnaryOp.apply op (.int a) = .error fault ↔ op = .not ∧ fault = .notBoolean := by
  refine ⟨⟨a + b, rfl, ?_⟩, ⟨a - b, rfl, ?_⟩, ⟨a * b, rfl, ?_⟩, ?_,
    ⟨a <<< b, rfl, toInt_shiftLeft a b⟩, ⟨a >>> b, rfl, toInt_shiftRight a b⟩,
    fun op fault => BinaryOp.apply_ints_eq_error_iff, rfl, ⟨-a, rfl, ?_⟩, ⟨~~~a, rfl, ?_⟩, ?_⟩
  · rw [Int32.toInt_add, bmod_eq_wrap]
  · rw [Int32.toInt_sub, bmod_eq_wrap]
  · rw [Int32.toInt_mul, bmod_eq_wrap]
  · intro hb
    exact ⟨_, _, BinaryOp.gives_div hb, BinaryOp.gives_mod hb, isQuotient_div_mod hb⟩
  · rw [Int32.toInt_neg, bmod_eq_wrap]
  · rw [Int32.toInt_not, bmod_eq_wrap]
  · intro op fault
    cases op <;> simp only [UnaryOp.apply] <;> grind

end Scriptlet
