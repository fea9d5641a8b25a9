import Scriptlet.Double.Decimal
import Scriptlet.Script.Basic
import Scriptlet.Script.ParseError

/-!
# The values of literals

Decimal integers stop at the greatest 32-bit integer, since a minus sign before
them is an operator.  Hexadecimal integers give all thirty-two bits, so
`0xFFFFFFFF` is `-1`.

The text of a token of numbers may be any text.  One that spells out no number of
its kind is refused in the same way as one whose number is out of range.
-/

namespace Scriptlet.Literal

/-- The value of a hexadecimal digit, its letters in either case. -/
def hexDigit? (c : Char) : Option Nat :=
  if '0' ≤ c ∧ c ≤ '9' then some (c.toNat - '0'.toNat)
  else if 'a' ≤ c ∧ c ≤ 'f' then some (c.toNat - 'a'.toNat + 10)
  else if 'A' ≤ c ∧ c ≤ 'F' then some (c.toNat - 'A'.toNat + 10)
  else none

/-- The number that hexadecimal digits stand for; there must be no other character. -/
def hexNumber? (digits : List Char) : Option Nat :=
  digits.foldl (fun n? c => n?.bind fun n => (hexDigit? c).map (16 * n + ·)) (some 0)

/-- The integer whose bits a hexadecimal number gives.  The number may have a plus
sign, needs a digit and must fit into thirty-two bits. -/
def ofHex? (text : List Char) : Option Int32 :=
  let digits := match text with
    | '+' :: cs => cs
    | cs => cs
  if digits.isEmpty then none
  else
    match hexNumber? digits with
    | some n => if n < Nat.pow 2 32 then some (UInt32.ofNat n).toInt32 else none
    | none => none

/-- An integer as a 32-bit integer, if it fits. -/
def ofInt? (n : Int) : Option Int32 :=
  if -2147483648 ≤ n ∧ n ≤ 2147483647 then some (Int32.ofInt n) else none

/-- The integer that a decimal number gives.  The number may have a sign, needs a
digit and must fit into thirty-two bits. -/
def ofDecimal? (text : List Char) : Option Int32 :=
  if Digits.isSignedNumber text then ofInt? (Digits.signedValue text) else none

/-- The value that was found in the text of a number; the text is refused if there
is none. -/
def orOutOfRange (text : String) : Option Literal → Except ParseError.Cause Literal
  | some value => .ok value
  | none => .error (.literalOutOfRange text)

/-- The value of a token that spells one out; `none` for every other token. -/
def read? : Lexeme → Option (Except ParseError.Cause Literal)
  | .string s => some (.ok (.str s))
  | .double text => some (orOutOfRange text ((Double.ofText? text).map .double))
  | .integer text => some (orOutOfRange text ((ofDecimal? text.toList).map .int))
  | .hexInteger text => some (orOutOfRange text ((ofHex? text.toList).map .int))
  | .boolean b => some (.ok (.bool b))
  | _ => none

/-- Digits without a sign stand for a number that is not negative. -/
theorem ofDecimal?_of_isNumber {text : List Char} (h : Digits.isNumber text = true) :
    ofDecimal? text = ofInt? (Digits.value text) := by
  simp only [ofDecimal?, Digits.isSignedNumber, Digits.signedValue,
    Digits.splitSign_of_isNumber h, h, if_true]

-- a sign is read, and what is no number is refused
example : ofDecimal? "-2147483648".toList = some Int32.minValue ∧
    ofDecimal? "+7".toList = some 7 ∧ ofDecimal? "12a".toList = none ∧
    ofDecimal? "-".toList = none := by decide

/-- What is refused is a text of a number, and the error names it. -/
theorem eq_of_read?_eq_error {lexeme : Lexeme} {cause : ParseError.Cause}
    (h : read? lexeme = some (.error cause)) : cause = .literalOutOfRange lexeme.text := by
  cases lexeme with
  | double text | integer text | hexInteger text =>
      simp only [read?, orOutOfRange, Option.some.injEq] at h
      split at h
      · cases h
      · cases h
        rfl
  | _ => cases h

end Scriptlet.Literal
