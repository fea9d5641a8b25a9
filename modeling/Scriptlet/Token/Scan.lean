import Scriptlet.Digits
import Scriptlet.Pattern
import Scriptlet.Token.Escape
import Scriptlet.Script.ParseError

/-!
# Cutting text into tokens

Each kind of token, and each kind of layout between tokens, is a rule with a
pattern.  At every place the rule with the longest match applies, and of rules
whose matches are equally long the one that stands first in `Rule.all`: a
keyword or a truth value is stronger than a name.  Each line is cut on its own,
so no token spans two lines.
-/

namespace Scriptlet

/-- The kinds of pieces that a line is made of. -/
inductive Rule where
  | comment
  | blank
  | string
  | hexInteger
  | double
  | integer
  | boolean (value : Bool)
  | keyword (word : Keyword)
  | identifier
  | symbol (mark : Symbol)
  deriving DecidableEq

namespace Rule

/-- Every rule, a stronger one before a weaker one. -/
def all : List Rule :=
  [.comment, .blank, .string, .hexInteger, .double, .integer, .boolean true, .boolean false]
    ++ Keyword.all.map .keyword ++ [.identifier] ++ Symbol.all.map .symbol

/-- No rule is missing. -/
theorem mem_all (r : Rule) : r ∈ all := by
  cases r with
  | keyword k => simp [all, Keyword.mem_all]
  | symbol s => simp [all, Symbol.mem_all]
  | boolean b => cases b <;> simp [all]
  | _ => simp [all]

/-- A digit of a hexadecimal number, its letters in either case. -/
def isHexDigit (c : Char) : Bool :=
  Digits.isDigit c || ('a' ≤ c && c ≤ 'f') || ('A' ≤ c && c ≤ 'F')

/-- A character that may start a name. -/
def isNameStart (c : Char) : Bool :=
  ('a' ≤ c && c ≤ 'z') || ('A' ≤ c && c ≤ 'Z') || c == '_'

/-- A character that may continue a name. -/
def isNamePart (c : Char) : Bool := isNameStart c || Digits.isDigit c

/-- A character that ends a line. -/
def isLineEnd (c : Char) : Bool := c == '\r' || c == '\n'

/-- A character that only separates tokens. -/
def isBlank (c : Char) : Bool :=
  c == ' ' || c == '\t' || c == '\x0c' || c == '\x0b' || isLineEnd c

open Pattern in
/-- A run of decimal digits. -/
def digitsPattern : Pattern := many1 (.char Digits.isDigit)

open Pattern in
/-- An exponent with its mark and an optional sign. -/
def exponentPattern : Pattern :=
  .andThen (.char fun c => c == 'e' || c == 'E')
    (.andThen (opt (.char fun c => c == '+' || c == '-')) digitsPattern)

open Pattern in
/-- The texts to which a rule applies. -/
def pattern : Rule → Pattern
  | .comment => .andThen (literal ['/', '/']) (.many (.char fun c => !isLineEnd c))
  | .blank => many1 (.char isBlank)
  | .string =>
    .andThen (only '"')
      (.andThen
        (.many (.either
          (.char fun c => !(c == '"' || c == '\\' || isLineEnd c))
          (.andThen (only '\\') (.char fun c => !isLineEnd c))))
        (only '"'))
  | .hexInteger =>
    .andThen (only '0') (.andThen (.char fun c => c == 'x' || c == 'X') (many1 (.char isHexDigit)))
  | .double =>
    .either
      (.andThen (.many (.char Digits.isDigit))
        (.andThen (only '.') (.andThen digitsPattern (opt exponentPattern))))
      (.andThen digitsPattern exponentPattern)
  | .integer => digitsPattern
  | .boolean value => literal (Lexeme.booleanText value).toList
  | .keyword word => literal word.text.toList
  | .identifier => .andThen (.char isNameStart) (.many (.char isNamePart))
  | .symbol mark => literal mark.text.toList

/-- The token that a piece of text gives; layout gives none. -/
def lexeme? (piece : List Char) : Rule → Option Lexeme
  | .comment => none
  | .blank => none
  | .string => some (.string (String.ofList (Escape.decode (piece.drop 1).dropLast)))
  | .hexInteger => some (.hexInteger (String.ofList (piece.drop 2)))
  | .double => some (.double (String.ofList piece))
  | .integer => some (.integer (String.ofList piece))
  | .boolean value => some (.boolean value)
  | .keyword word => some (.keyword word)
  | .identifier => some (.identifier (String.ofList piece))
  | .symbol mark => some (.symbol mark)

/-- Takes the longer of two matches, and the first if they are equally long. -/
def longer (best candidate : Option (Rule × Nat)) : Option (Rule × Nat) :=
  match best, candidate with
  | some (r, n), some (r', n') => if n < n' then some (r', n') else some (r, n)
  | none, c => c
  | b, none => b

/-- The rule that applies at the beginning of a text, with the length of its match. -/
def longest? (text : List Char) : Option (Rule × Nat) :=
  all.foldl (fun best r => longer best ((r.pattern.longest? text).map (r, ·))) none

end Rule

namespace Token

/-- Cuts a line into tokens.  The first `skip` characters belong to a piece that
has been dealt with; `here` is the place of the first character. -/
def scanFrom (here : Position) : (skip : Nat) → List Char → Except ParseError (List Token)
  | _, [] => .ok []
  | skip + 1, _ :: cs => scanFrom { here with column := here.column + 1 } skip cs
  | 0, c :: cs =>
    match Rule.longest? (c :: cs) with
    | none => .error ⟨.unknownToken (String.singleton c), some here⟩
    | some (rule, length) => do
      let rest ← scanFrom { here with column := here.column + 1 } (length - 1) cs
      match rule.lexeme? ((c :: cs).take length) with
      | some lexeme => pure (⟨lexeme, here⟩ :: rest)
      | none => pure rest

/-- Cuts one line into tokens. -/
def scanLine (script : String) (line : Nat) (text : List Char) : Except ParseError (List Token) :=
  scanFrom ⟨script, line, 1⟩ 0 text

/-- Cuts lines into tokens, the first of them numbered `line`. -/
def scanLinesFrom (script : String) :
    (line : Nat) → List (List Char) → Except ParseError (List Token)
  | _, [] => .ok []
  | line, text :: texts => do
    let tokens ← scanLine script line text
    let rest ← scanLinesFrom script (line + 1) texts
    pure (tokens ++ rest)

/-- Cuts lines into tokens. -/
def scanLines (script : String) (lines : List String) : Except ParseError (List Token) :=
  scanLinesFrom script 1 (lines.map String.toList)

/-- Makes every pair of a carriage return and a line feed a line feed alone. -/
def unifyLineEnds : List Char → List Char
  | [] => []
  | '\r' :: '\n' :: cs => '\n' :: unifyLineEnds cs
  | c :: cs => c :: unifyLineEnds cs

/-- The lines of a text: what stands between line feeds. -/
def linesOf : List Char → List (List Char)
  | [] => [[]]
  | c :: cs =>
    if c == '\n' then [] :: linesOf cs
    else
      match linesOf cs with
      | line :: lines => (c :: line) :: lines
      | [] => [[c]]

/-- Cuts a whole text into tokens. -/
def scan (script : String) (text : String) : Except ParseError (List Token) :=
  scanLinesFrom script 1 (linesOf (unifyLineEnds text.toList))

end Token

end Scriptlet
