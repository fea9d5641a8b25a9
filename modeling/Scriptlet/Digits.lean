/-!
# Decimal digits

The ten decimal digits and the numbers that runs of them stand for, with a sign
or without one.
-/

namespace Scriptlet.Digits

/-- A decimal digit. -/
def isDigit (c : Char) : Bool := '0' ≤ c && c ≤ '9'

/-- The number that a run of decimal digits stands for. -/
def value (digits : List Char) : Nat :=
  digits.foldl (fun n c => 10 * n + (c.toNat - '0'.toNat)) 0

/-- Whether a text consists of decimal digits, at least one of them. -/
def isNumber (text : List Char) : Bool := !text.isEmpty && text.all isDigit

/-- Takes the sign off the front of a text, if there is one, and says whether it
is a minus sign. -/
def splitSign : List Char → Bool × List Char
  | '-' :: cs => (true, cs)
  | '+' :: cs => (false, cs)
  | cs => (false, cs)

/-- Whether a text is a number, with a sign or without one. -/
def isSignedNumber (text : List Char) : Bool := isNumber (splitSign text).2

/-- The number that digits with or without a sign stand for. -/
def signedValue (text : List Char) : Int :=
  match splitSign text with
  | (true, digits) => -(value digits : Int)
  | (false, digits) => value digits

/-- A number has digits and nothing else. -/
theorem isNumber_iff {text : List Char} :
    isNumber text = true ↔ text ≠ [] ∧ ∀ c ∈ text, isDigit c = true := by
  simp [isNumber]

/-- A number without a sign is taken as it is. -/
theorem splitSign_of_isNumber {text : List Char} (h : isNumber text = true) :
    splitSign text = (false, text) := by
  obtain ⟨-, hdigits⟩ := isNumber_iff.mp h
  unfold splitSign
  split
  · cases hdigits '-' List.mem_cons_self
  · cases hdigits '+' List.mem_cons_self
  · rfl

/-- A further digit adds itself to ten times the number in front of it. -/
theorem value_append_singleton (digits : List Char) (c : Char) :
    value (digits ++ [c]) = 10 * value digits + (c.toNat - '0'.toNat) := by
  simp [value]

end Scriptlet.Digits
