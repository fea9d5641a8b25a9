/-!
# The shape of a double

A double is not a number, an infinity, or a signed dyadic number
`mantissa · 2 ^ exponent` with a mantissa below `2 ^ 53` and an exponent of at
least `-1074`.  `Double.shape` reads this off the sixty-four bits, and
`Double.ofMagnitude` puts a dyadic number that fits back together.  Everything
that must be exact (the decimal text, the remainder, the integer part) is
integer arithmetic on the shape.
-/

namespace Scriptlet.Double

/-- What a double stands for. -/
inductive Shape where
  | nan
  | infinite (negative : Bool)
  /-- The number `± mantissa · 2 ^ exponent`; a zero keeps its sign. -/
  | finite (negative : Bool) (mantissa : Nat) (exponent : Int)
  deriving DecidableEq

/-- The least exponent, that of the subnormal numbers. -/
def minExponent : Int := -1074

/-- The mantissa of a power of two, the least one of a normal number. -/
def hiddenBit : Nat := Nat.pow 2 52

/-- Reads the fields of the sixty-four bits. -/
def shape (x : Float) : Shape :=
  let bits := x.toBits.toNat
  let negative := bits / Nat.pow 2 63 == 1
  let field : Nat := bits / Nat.pow 2 52 % Nat.pow 2 11
  let fraction : Nat := bits % Nat.pow 2 52
  if field == 2047 then
    if fraction == 0 then .infinite negative else .nan
  else if field == 0 then
    .finite negative fraction minExponent
  else
    .finite negative (hiddenBit + fraction) (minExponent + field - 1)

/-- The positive infinity. -/
def infinity : Float := 1.0 / 0.0

/-- The value that is not a number. -/
def notANumber : Float := 0.0 / 0.0

/-- The double `± mantissa · 2 ^ exponent`, for a mantissa below `2 ^ 53` and an
exponent of at least `minExponent` whose product is in range. -/
def ofMagnitude (negative : Bool) (mantissa : Nat) (exponent : Int) : Float :=
  let sign := if negative then Nat.pow 2 63 else 0
  if mantissa == 0 then
    Float.ofBits (UInt64.ofNat sign)
  else
    -- shift the leading bit into place, as far as the least exponent allows
    let room := 52 - mantissa.log2
    let shift := min room (exponent - minExponent).toNat
    let scaled := mantissa * Nat.pow 2 shift
    let field := (exponent - shift - minExponent).toNat
    -- the hidden bit carries into the exponent field and makes the number a normal one
    Float.ofBits (UInt64.ofNat (sign + field * Nat.pow 2 52 + scaled))

end Scriptlet.Double
