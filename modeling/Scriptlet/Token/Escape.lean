/-!
# Escapes in strings

A backslash in a string starts an escape.  Seven letters stand for control
characters.  A character may be given by its code: `\x` and one to four
hexadecimal digits, `\o` and one to three digits, or one to three digits right
after the backslash, the first of them included; in the last two forms a digit
is one of `0` to `6` and the code is read in base eight.  Before any other
character the backslash means that character, and a backslash at the very end
means itself.
-/

namespace Scriptlet.Escape

/-- The value of a digit of a hexadecimal escape; its letters are small. -/
def hexDigit? (c : Char) : Option Nat :=
  if '0' ≤ c ∧ c ≤ '9' then some (c.toNat - '0'.toNat)
  else if 'a' ≤ c ∧ c ≤ 'f' then some (c.toNat - 'a'.toNat + 10)
  else none

/-- The value of a digit of an octal escape; seven is none. -/
def octalDigit? (c : Char) : Option Nat :=
  if '0' ≤ c ∧ c ≤ '6' then some (c.toNat - '0'.toNat) else none

/-- The control character that a letter after a backslash stands for. -/
def control? : Char → Option Char
  | 'a' => some '\x07'
  | 'b' => some '\x08'
  | 't' => some '\t'
  | 'v' => some '\x0b'
  | 'n' => some '\n'
  | 'r' => some '\r'
  | 'f' => some '\x0c'
  | _ => none

/-- The values of the digits at the beginning of a text, at most `limit` of them. -/
def digits (digit? : Char → Option Nat) : (limit : Nat) → List Char → List Nat
  | 0, _ => []
  | _ + 1, [] => []
  | limit + 1, c :: cs =>
    match digit? c with
    | some d => d :: digits digit? limit cs
    | none => []

/-- The number that digits stand for in a base. -/
def number (base : Nat) (ds : List Nat) : Nat :=
  ds.foldl (fun n d => base * n + d) 0

/-- The character of a code; a code without one gives the replacement character. -/
def charOfCode (code : Nat) : Char :=
  if code.isValidChar then Char.ofNat code else '\uFFFD'

/-- A character given by the digits after its mark, and how many characters the
escape takes after its backslash.  Without digits it is the mark itself. -/
def coded (mark : Char) (base : Nat) (ds : List Nat) : Char × Nat :=
  match ds with
  | [] => (mark, 1)
  | _ => (charOfCode (number base ds), 1 + ds.length)

/-- The character that an escape stands for, from the text after its backslash,
and how many characters of that text it takes. -/
def read : List Char → Char × Nat
  | [] => ('\\', 0)
  | 'x' :: cs => coded 'x' 16 (digits hexDigit? 4 cs)
  | 'o' :: cs => coded 'o' 8 (digits octalDigit? 3 cs)
  | c :: cs =>
    match octalDigit? c with
    | some _ =>
      let ds := digits octalDigit? 3 (c :: cs)
      (charOfCode (number 8 ds), ds.length)
    | none => ((control? c).getD c, 1)

/-- Decodes a text after passing over its first `skip` characters. -/
def decodeFrom : (skip : Nat) → List Char → List Char
  | _, [] => []
  | skip + 1, _ :: cs => decodeFrom skip cs
  | 0, c :: cs =>
    if c == '\\' then
      let (decoded, taken) := read cs
      decoded :: decodeFrom taken cs
    else
      c :: decodeFrom 0 cs

/-- Replaces every escape of a text by the character it stands for. -/
def decode (raw : List Char) : List Char :=
  decodeFrom 0 raw

end Scriptlet.Escape
