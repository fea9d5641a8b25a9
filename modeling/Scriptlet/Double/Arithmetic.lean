import Scriptlet.Double.Basic

/-!
# Exact operations on doubles

The remainder of a division that is cut off toward zero, and the integer part
as a 32-bit integer.  Both are computed on the dyadic shape and are exact.
-/

namespace Scriptlet.Double

/-- The remainder of `x / y` with the quotient cut off toward zero.  It has the
sign of `x`.  There is none for an infinite `x` or a zero `y`. -/
def remainder (x y : Float) : Float :=
  match shape x, shape y with
  | .finite _ _ _, .infinite _ => x
  | .finite negative m e, .finite _ m' e' =>
    if m' == 0 then notANumber
    else
      let unit := min e e'
      let dividend := m * Nat.pow 2 (e - unit).toNat
      let divisor := m' * Nat.pow 2 (e' - unit).toNat
      ofMagnitude negative (dividend % divisor) unit
  | _, _ => notANumber

/-- The integer part of `mantissa · 2 ^ exponent`. -/
def integerPart (mantissa : Nat) (exponent : Int) : Nat :=
  if exponent < 0 then mantissa / Nat.pow 2 (-exponent).toNat
  else mantissa * Nat.pow 2 exponent.toNat

/-- The double cut off toward zero, if that is a 32-bit integer. -/
def truncate? (x : Float) : Option Int32 :=
  match shape x with
  | .finite negative m e =>
    let whole : Int := integerPart m e
    let value := if negative then -whole else whole
    if Int32.minValue.toInt ≤ value ∧ value ≤ Int32.maxValue.toInt then
      some (Int32.ofInt value)
    else none
  | _ => none

/-- A 32-bit integer as a double. -/
def ofInt32 (n : Int32) : Float :=
  Float.ofInt n.toInt

end Scriptlet.Double
