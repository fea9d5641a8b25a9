import Scriptlet.Digits
import Scriptlet.Double.Basic

/-!
# Doubles as decimal text

A finite double is written with the fewest decimal digits that read back as the
same double, always positionally.  The numbers that read back as `m · 2 ^ e`
form an interval around it, which holds its ends when `m` is even.  The fewest
digits belong to the coarsest decimal grid that has a point in this interval,
and on that grid only the two neighbours of the number need to be looked at.
-/

namespace Scriptlet.Double

/-- A decimal number `digits · 10 ^ exponent`. -/
structure Decimal where
  digits : Nat
  exponent : Int
  deriving DecidableEq

/-- The interval of the numbers that read back as one positive double.  The
number and the two ends are fractions over `denominator`. -/
structure Interval where
  low : Nat
  value : Nat
  high : Nat
  denominator : Nat
  /-- The ends belong to the interval. -/
  closed : Bool

/-- The interval around `m · 2 ^ e`, in quarters of the last place.  Below a
power of two the doubles are twice as dense, so there the lower end is nearer. -/
def interval (m : Nat) (e : Int) : Interval :=
  let quarter := Nat.pow 2 (e - 2).toNat
  let value := 4 * m * quarter
  let below := if m == hiddenBit && minExponent < e then quarter else 2 * quarter
  { low := value - below
    value := value
    high := value + 2 * quarter
    denominator := Nat.pow 2 (2 - e).toNat
    closed := m % 2 == 0 }

/-- The fraction `n · 10 ^ k`, brought over the same denominator as the ends of
the interval times `scale k`. -/
def Interval.point (i : Interval) (n : Nat) (k : Int) : Nat :=
  n * Nat.pow 10 k.toNat * i.denominator

/-- The factor that clears a negative power of ten. -/
def scale (k : Int) : Nat := Nat.pow 10 (-k).toNat

/-- Whether `n · 10 ^ k` reads back as the double. -/
def Interval.holds (i : Interval) (n : Nat) (k : Int) : Bool :=
  let p := i.point n k
  if i.closed then
    i.low * scale k ≤ p && p ≤ i.high * scale k
  else
    i.low * scale k < p && p < i.high * scale k

/-- The point of the grid `10 ^ k` that reads back as the double and lies nearest
to it, if there is one.  Of two that are equally near the greater is taken. -/
def Interval.nearest? (i : Interval) (k : Int) : Option Nat :=
  let lower := i.value * scale k / (Nat.pow 10 k.toNat * i.denominator)
  match i.holds lower k, i.holds (lower + 1) k with
  | true, true =>
    let target := 2 * i.value * scale k
    if target < i.point lower k + i.point (lower + 1) k then some lower else some (lower + 1)
  | true, false => some lower
  | false, true => some (lower + 1)
  | false, false => none

/-- A power of ten above every grid that can meet the interval around `m · 2 ^ e`:
a point there is below `2 ^ (e + bits of m + 1)`, and `log₁₀ 2 < 0.30103`. -/
def coarsest (m : Nat) (e : Int) : Int :=
  ((e + m.log2 + 2) * 30103).fdiv 100000 + 1

/-- The number `m · 2 ^ e` in full. -/
def exactDecimal (m : Nat) (e : Int) : Decimal :=
  if e < 0 then ⟨m * Nat.pow 5 (-e).toNat, e⟩ else ⟨m * Nat.pow 2 e.toNat, 0⟩

/-- How many grids are tried: seventeen digits always suffice, and the first few
grids may lie above the number. -/
def gridCount : Nat := 24

/-- The fewest digits that read back as `m · 2 ^ e`, and of these the nearest. -/
def shortest (m : Nat) (e : Int) : Decimal :=
  let i := interval m e
  let found : Option Decimal := (List.range gridCount).findSome? fun (step : Nat) =>
    let k : Int := coarsest m e - step
    (i.nearest? k).map fun n => ⟨n, k⟩
  found.getD (exactDecimal m e)

/-- A decimal number without an exponent: the digits, with zeros up to the point
or a point among them. -/
def Decimal.text (d : Decimal) : String :=
  let digits := d.digits.repr
  if 0 ≤ d.exponent then
    digits ++ String.ofList (List.replicate d.exponent.toNat '0')
  else
    let places := (-d.exponent).toNat
    let padded := List.replicate (places + 1 - digits.length) '0' ++ digits.toList
    let whole := padded.length - places
    String.ofList (padded.take whole) ++ "." ++ String.ofList (padded.drop whole)

/-- A double as text.  A negative zero keeps its sign, and that which is not a
number has none. -/
def text (x : Float) : String :=
  match shape x with
  | .nan => "NaN"
  | .infinite negative => if negative then "-inf" else "inf"
  | .finite negative m e =>
    let magnitude := if m == 0 then "0" else (shortest m e).text
    if negative then "-" ++ magnitude else magnitude

/-- The double nearest to a decimal number, ties going to the even mantissa.  Far
out of range the answer is known without computing the power of ten. -/
def ofDecimal (d : Decimal) : Float :=
  let width : Int := d.digits.repr.length
  if d.digits == 0 then 0.0
  else if 400 < width + d.exponent then infinity
  else if width + d.exponent < -400 then 0.0
  else if 0 ≤ d.exponent then Float.ofScientific d.digits false d.exponent.toNat
  else Float.ofScientific d.digits true (-d.exponent).toNat

/-- Whether a character starts the exponent of a decimal number. -/
def isExponentMark (c : Char) : Bool := c == 'e' || c == 'E'

/-- The parts of an unsigned decimal number as it is written. -/
structure Parts where
  whole : List Char
  fraction : List Char
  /-- What follows the mark of the exponent, if there is one. -/
  exponent : Option (List Char)

namespace Parts

/-- Cuts a text at the mark of an exponent, and what stands before it at the point. -/
def ofText (text : List Char) : Parts :=
  let mantissa := text.takeWhile fun c => !isExponentMark c
  { whole := mantissa.takeWhile (· != '.')
    fraction := (mantissa.dropWhile (· != '.')).drop 1
    exponent := (text.dropWhile fun c => !isExponentMark c).tail? }

/-- Whether the parts make a number: digits around the point, on one side of it at
least, and digits with or without a sign in the exponent. -/
def wellFormed (p : Parts) : Bool :=
  Digits.isNumber (p.whole ++ p.fraction) && p.exponent.all Digits.isSignedNumber

/-- The number that the parts make. -/
def decimal (p : Parts) : Decimal :=
  ⟨Digits.value (p.whole ++ p.fraction),
    (p.exponent.map Digits.signedValue).getD 0 - p.fraction.length⟩

end Parts

/-- The double that an unsigned decimal number denotes. -/
def ofText (text : String) : Float :=
  ofDecimal (Parts.ofText text.toList).decimal

/-- The doubles that are written as words, in letters of either case. -/
def ofWord? (text : List Char) : Option Float :=
  let word := text.map Char.toLower
  if word = "inf".toList ∨ word = "infinity".toList then some infinity
  else if word = "nan".toList then some notANumber
  else none

/-- The double that a text without a sign spells out, if it does so. -/
def ofUnsigned? (text : List Char) : Option Float :=
  if (Parts.ofText text).wellFormed then some (ofDecimal (Parts.ofText text).decimal)
  else ofWord? text

/-- The double that a text spells out, if it does so: a number or a word, with a sign
or without one. -/
def ofText? (text : String) : Option Float :=
  match Digits.splitSign text.toList with
  | (true, unsigned) => (ofUnsigned? unsigned).map (- ·)
  | (false, unsigned) => ofUnsigned? unsigned

/-- A number has no sign in front of it. -/
theorem Parts.splitSign_of_wellFormed {text : List Char}
    (h : (Parts.ofText text).wellFormed = true) : Digits.splitSign text = (false, text) := by
  rw [wellFormed, Bool.and_eq_true] at h
  obtain ⟨-, hdigits⟩ := Digits.isNumber_iff.mp h.1
  unfold Digits.splitSign
  -- a sign would be among the characters before the point
  split
  · cases hdigits '-' List.mem_cons_self
  · cases hdigits '+' List.mem_cons_self
  · rfl

/-- An unsigned decimal number spells out the double that it denotes. -/
theorem ofText?_of_wellFormed {text : String}
    (h : (Parts.ofText text.toList).wellFormed = true) : ofText? text = some (ofText text) := by
  rw [ofText?, Parts.splitSign_of_wellFormed h]
  exact if_pos h

end Scriptlet.Double
