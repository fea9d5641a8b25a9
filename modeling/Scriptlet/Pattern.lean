/-!
# Patterns of characters

A pattern denotes a set of texts (`Pattern.Matches`).  Whether a text begins
with a member of that set, and how long the longest such beginning is, is found
by taking derivatives: the derivative of a pattern by a character denotes what
may follow that character.  A derivative that denotes nothing becomes `never`,
so a search stops at the first character that no longer fits.
-/

namespace Scriptlet

/-- A set of texts, written as a regular expression. -/
inductive Pattern where
  /-- No text at all. -/
  | never
  /-- The empty text only. -/
  | empty
  /-- One character that passes a test. -/
  | char (test : Char → Bool)
  /-- A text of either pattern. -/
  | either (left right : Pattern)
  /-- A text of the first pattern followed by one of the second. -/
  | andThen (first second : Pattern)
  /-- Any number of texts of the pattern, one after the other. -/
  | many (item : Pattern)

namespace Pattern

/-- The texts that a pattern denotes. -/
inductive Matches : Pattern → List Char → Prop where
  | empty : Matches .empty []
  | char {test : Char → Bool} {c : Char} (h : test c = true) : Matches (.char test) [c]
  | left {p q : Pattern} {s : List Char} (h : Matches p s) : Matches (.either p q) s
  | right {p q : Pattern} {s : List Char} (h : Matches q s) : Matches (.either p q) s
  | andThen {p q : Pattern} {s t : List Char} (hp : Matches p s) (hq : Matches q t) :
      Matches (.andThen p q) (s ++ t)
  | none {p : Pattern} : Matches (.many p) []
  | more {p : Pattern} {s t : List Char} (hp : Matches p s) (hq : Matches (.many p) t) :
      Matches (.many p) (s ++ t)

/-- One given character. -/
def only (c : Char) : Pattern := .char (· == c)

/-- One given text. -/
def literal : List Char → Pattern
  | [] => .empty
  | c :: cs => .andThen (only c) (literal cs)

/-- At least one text of the pattern. -/
def many1 (p : Pattern) : Pattern := .andThen p (.many p)

/-- A text of the pattern, or nothing. -/
def opt (p : Pattern) : Pattern := .either p .empty

/-- Whether the pattern denotes the empty text. -/
def nullable : Pattern → Bool
  | .never => false
  | .empty => true
  | .char _ => false
  | .either p q => p.nullable || q.nullable
  | .andThen p q => p.nullable && q.nullable
  | .many _ => true

/-- `either`, where a side that denotes nothing is dropped. -/
def join : Pattern → Pattern → Pattern
  | .never, q => q
  | p, .never => p
  | p, q => .either p q

/-- `andThen`, which denotes nothing if a part does, and drops an empty first part. -/
def chain : Pattern → Pattern → Pattern
  | .never, _ => .never
  | _, .never => .never
  | .empty, q => q
  | p, q => .andThen p q

/-- What may follow the character `c` in a text of the pattern. -/
def derivative (c : Char) : Pattern → Pattern
  | .never => .never
  | .empty => .never
  | .char test => if test c then .empty else .never
  | .either p q => join (p.derivative c) (q.derivative c)
  | .andThen p q =>
    if p.nullable then join (chain (p.derivative c) q) (q.derivative c)
    else chain (p.derivative c) q
  | .many p => chain (p.derivative c) (.many p)

/-- The length of the longest beginning of a text that the pattern denotes. -/
def longest? : Pattern → List Char → Option Nat
  | .never, _ => none
  | p, [] => if p.nullable then some 0 else none
  | p, c :: cs =>
    match (p.derivative c).longest? cs with
    | some n => some (n + 1)
    | none => if p.nullable then some 0 else none

end Pattern

end Scriptlet
