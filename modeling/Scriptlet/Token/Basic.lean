import Scriptlet.Position

/-!
# Tokens

The words of the language: what a token says (`Lexeme`) and where it stands.
Keywords and symbols are closed sets; names, numbers and strings carry their
text.  The text of a string has its escapes decoded, that of a hexadecimal
number is without `0x`.
-/

namespace Scriptlet

/-- The reserved words. -/
inductive Keyword where
  | func
  | var
  | foreachWord
  | forWord
  | inWord
  | ifWord
  | elseWord
  | whileWord
  | returnWord
  | breakWord
  | continueWord
  deriving DecidableEq

namespace Keyword

/-- A reserved word as it is written. -/
def text : Keyword → String
  | .func => "func"
  | .var => "var"
  | .foreachWord => "foreach"
  | .forWord => "for"
  | .inWord => "in"
  | .ifWord => "if"
  | .elseWord => "else"
  | .whileWord => "while"
  | .returnWord => "return"
  | .breakWord => "break"
  | .continueWord => "continue"

/-- Every reserved word. -/
def all : List Keyword :=
  [.func, .var, .foreachWord, .forWord, .inWord, .ifWord, .elseWord, .whileWord, .returnWord,
    .breakWord, .continueWord]

/-- No keyword is missing. -/
theorem mem_all (k : Keyword) : k ∈ all := by
  cases k <;> decide

end Keyword

/-- The operators and the marks of punctuation. -/
inductive Symbol where
  | ellipsis
  | lessEqual
  | greaterEqual
  | notEqual
  | equal
  | andAnd
  | orOr
  | shiftLeft
  | shiftRight
  | minus
  | plus
  | tilde
  | bang
  | slash
  | star
  | percent
  | ampersand
  | caret
  | bar
  | question
  | colon
  | assign
  | less
  | greater
  | openParen
  | closeParen
  | openBrace
  | closeBrace
  | openBracket
  | closeBracket
  | semicolon
  | comma
  deriving DecidableEq

namespace Symbol

/-- A symbol as it is written. -/
def text : Symbol → String
  | .ellipsis => "..."
  | .lessEqual => "<="
  | .greaterEqual => ">="
  | .notEqual => "!="
  | .equal => "=="
  | .andAnd => "&&"
  | .orOr => "||"
  | .shiftLeft => "<<"
  | .shiftRight => ">>"
  | .minus => "-"
  | .plus => "+"
  | .tilde => "~"
  | .bang => "!"
  | .slash => "/"
  | .star => "*"
  | .percent => "%"
  | .ampersand => "&"
  | .caret => "^"
  | .bar => "|"
  | .question => "?"
  | .colon => ":"
  | .assign => "="
  | .less => "<"
  | .greater => ">"
  | .openParen => "("
  | .closeParen => ")"
  | .openBrace => "\x7b"
  | .closeBrace => "\x7d"
  | .openBracket => "["
  | .closeBracket => "]"
  | .semicolon => ";"
  | .comma => ","

/-- Every symbol. -/
def all : List Symbol :=
  [.ellipsis, .lessEqual, .greaterEqual, .notEqual, .equal, .andAnd, .orOr, .shiftLeft, .shiftRight,
    .minus, .plus, .tilde, .bang, .slash, .star, .percent, .ampersand, .caret, .bar, .question,
    .colon, .assign, .less, .greater, .openParen, .closeParen, .openBrace, .closeBrace,
    .openBracket, .closeBracket, .semicolon, .comma]

/-- No symbol is missing. -/
theorem mem_all (s : Symbol) : s ∈ all := by
  cases s <;> decide

end Symbol

/-- What a token says. -/
inductive Lexeme where
  /-- A string, its escapes decoded. -/
  | string (value : String)
  /-- A number with a point or an exponent. -/
  | double (digits : String)
  /-- A decimal integer. -/
  | integer (digits : String)
  /-- The digits of a hexadecimal integer. -/
  | hexInteger (digits : String)
  | boolean (value : Bool)
  | identifier (name : String)
  | keyword (word : Keyword)
  | symbol (mark : Symbol)
  deriving DecidableEq

namespace Lexeme

/-- A truth value as it is written. -/
def booleanText (value : Bool) : String :=
  if value then "true" else "false"

/-- The text that messages show for a token. -/
def text : Lexeme → String
  | .string s => s
  | .double s => s
  | .integer s => s
  | .hexInteger s => s
  | .boolean b => booleanText b
  | .identifier s => s
  | .keyword k => k.text
  | .symbol s => s.text

end Lexeme

/-- A word of a script and its place. -/
structure Token where
  lexeme : Lexeme
  position : Position
  deriving DecidableEq

end Scriptlet
