import Scriptlet.Token.Basic

/-!
# Why a text is no script

One cause for each way in which reading a script can fail, and the place it is
seen at.  The place is missing where the text ended too early.
-/

namespace Scriptlet

/-- What is wrong with a text that is no script. -/
inductive ParseError.Cause where
  /-- No token starts with this character. -/
  | unknownToken (text : String)
  /-- A number that no 32-bit integer can hold. -/
  | literalOutOfRange (digits : String)
  | unexpectedEnd
  | identifierExpected
  | statementExpected
  | expressionExpected
  /-- An operator lacks its operand. -/
  | subExpressionExpected
  | symbolExpected (mark : Symbol)
  | keywordExpected (word : Keyword)
  /-- Something follows `...` in a list of parameters. -/
  | ellipsisNotLast
  /-- A token that starts neither a statement nor a function. -/
  | unexpectedToken (text : String)
  deriving DecidableEq

/-- A reason why a text is no script, and where. -/
structure ParseError where
  cause : ParseError.Cause
  position : Option Position
  deriving DecidableEq

namespace ParseError

/-- The wording of a cause. -/
def Cause.text : Cause → String
  | .unknownToken text => "unknown token " ++ text
  | .literalOutOfRange digits => "literal " ++ digits ++ " is out of range"
  | .unexpectedEnd => "unexpected end of file"
  | .identifierExpected => "identifier expected"
  | .statementExpected => "statement expected"
  | .expressionExpected => "expression expected"
  | .subExpressionExpected => "sub-expression expected"
  | .symbolExpected mark => mark.text ++ " expected"
  | .keywordExpected word => word.text ++ " expected"
  | .ellipsisNotLast => "ellipsis should be at the end in the parameter list"
  | .unexpectedToken text => "unexpected token " ++ text

/-- The message of an error, with its place in front if that is known. -/
def message (e : ParseError) : String :=
  Position.locate e.position e.cause.text

end ParseError

end Scriptlet
