import Scriptlet.Name
import Scriptlet.Run
import Scriptlet.Script.Literal
import Scriptlet.Token.Scan

/-!
# Reading scripts from tokens

A parser takes tokens from the front of a list and leaves the others, also
where it fails.  One that answers `none` found nothing it could start with.

The grammar, loosest first:

* script: statements and functions in any order;
* statement: a declaration, an assignment, a call, a loop, a branch, a block,
  `break`, `continue` or `return`;
* expression: an lvalue, `=` and an expression, or a conditional;
* conditional: a binary expression, perhaps with `?` and two more conditionals;
* binary expression: the levels of `BinaryOp.levels` over unary expressions;
* unary expression: operators before a primary expression;
* primary expression: a call, an lvalue, a literal, a list or parentheses.

The functions of the grammar call each other either on fewer tokens or further
down this list, so a fixed number of calls per token bounds their depth.  The
bound is `Parser.fuel`, and it is the fuel that `Parser.parse` hands out.
-/

namespace Scriptlet

/-- A computation that takes tokens from the front of a list. -/
abbrev Parser (α : Type) : Type := Run (List Token) ParseError α

namespace Parser

variable {α : Type}

/-! ## Single tokens -/

/-- The next token, which stays. -/
def peek : Parser (Option Token) :=
  Run.read List.head?

/-- The place of the next token. -/
def nextPosition : Parser (Option Position) :=
  Run.read fun tokens => tokens.head?.map Token.position

/-- Drops the next token. -/
def advance : Parser Unit :=
  Run.update List.tail

/-- Whether the next token is the symbol. -/
def nextIs (mark : Symbol) : List Token → Bool
  | token :: _ => token.lexeme == .symbol mark
  | [] => false

/-- Takes the symbol if it comes next, and says whether it did. -/
def eat (mark : Symbol) : Parser Bool :=
  fun tokens => if nextIs mark tokens then (.done true, tokens.tail) else (.done false, tokens)

/-- Takes the keyword if it comes next, and gives its place. -/
def eatKeyword (word : Keyword) : Parser (Option Position) :=
  fun tokens =>
    match tokens with
    | token :: rest =>
      if token.lexeme == .keyword word then (.done (some token.position), rest)
      else (.done none, tokens)
    | [] => (.done none, tokens)

/-- Fails at the next token with `cause`, or at the end of the tokens for want of one. -/
def failAtNext (cause : ParseError.Cause) : Parser α :=
  fun tokens =>
    match tokens with
    | token :: _ => (.failed ⟨cause, some token.position⟩, tokens)
    | [] => (.failed ⟨.unexpectedEnd, none⟩, tokens)

/-- Takes the symbol, which must come next. -/
def expect (mark : Symbol) : Parser Unit := do
  if ← eat mark then pure () else failAtNext (.symbolExpected mark)

/-- Takes the keyword, which must come next. -/
def expectKeyword (word : Keyword) : Parser Unit := do
  match ← eatKeyword word with
  | some _ => pure ()
  | none => failAtNext (.keywordExpected word)

/-- Takes a name, which must come next. -/
def identifier : Parser String :=
  fun tokens =>
    match tokens with
    | ⟨.identifier name, _⟩ :: rest => (.done name, rest)
    | _ => failAtNext .identifierExpected tokens

/-- Takes one of the operators if it comes next. -/
def operatorAmong (ops : List BinaryOp) : Parser (Option (BinaryOp × Position)) :=
  fun tokens =>
    match tokens with
    | ⟨.symbol mark, p⟩ :: rest =>
      match BinaryOp.ofSymbol? mark with
      | some op => if ops.contains op then (.done (some (op, p)), rest) else (.done none, tokens)
      | none => (.done none, tokens)
    | _ => (.done none, tokens)

/-- Takes a unary operator if it comes next. -/
def unaryOperator : Parser (Option (UnaryOp × Position)) :=
  fun tokens =>
    match tokens with
    | ⟨.symbol mark, p⟩ :: rest =>
      match UnaryOp.ofSymbol? mark with
      | some op => (.done (some (op, p)), rest)
      | none => (.done none, tokens)
    | _ => (.done none, tokens)

/-- Takes a name and the parenthesis right after it, the beginning of a call. -/
def callHead : Parser (Option (Position × String)) :=
  fun tokens =>
    match tokens with
    | ⟨.identifier name, p⟩ :: ⟨.symbol .openParen, _⟩ :: rest => (.done (some (p, name)), rest)
    | _ => (.done none, tokens)

/-- Takes what an lvalue starts with: a name, or `...`. -/
def lvalueHead : Parser (Option (Position × String)) :=
  fun tokens =>
    match tokens with
    | ⟨.identifier name, p⟩ :: rest => (.done (some (p, name)), rest)
    | ⟨.symbol .ellipsis, p⟩ :: rest => (.done (some (p, Name.variadic)), rest)
    | _ => (.done none, tokens)

/-- Takes the next token, which is given, if it spells out a value. -/
def literal (lexeme : Lexeme) (p : Position) : Parser (Option Expr) :=
  match Literal.read? lexeme with
  | none => pure none
  | some (.ok value) => do
    advance
    pure (some (.literal p value))
  | some (.error cause) => Run.fail ⟨cause, some p⟩

/-! ## Combinators -/

/-- What `p` gives, which must be something.  Otherwise fails with `cause` at the
token that `p` was to start with. -/
def required (cause : ParseError.Cause) (p : Parser (Option α)) : Parser α :=
  fun tokens =>
    match tokens with
    | [] => failAtNext cause tokens
    | token :: _ =>
      (p >>= fun result => Run.ofOption ⟨cause, some token.position⟩ result) tokens

/-- Takes an lvalue and the `=` after it.  Without either nothing is taken, not
even if the lvalue is malformed: what is wrong with it is for others to say. -/
def assignmentHead (lvalue : Parser (Option LValue)) : Parser (Option LValue) :=
  fun tokens =>
    match lvalue tokens with
    | (.done (some target), rest) =>
      if nextIs .assign rest then (.done (some target), rest.tail) else (.done none, tokens)
    | (.outOfFuel, rest) => (.outOfFuel, rest)
    | _ => (.done none, tokens)

/-! ## Expressions -/

mutual

/-- Reads an expression. -/
def expression : Nat → Parser Expr
  | 0 => Run.starve
  | n + 1 => required .expressionExpected (optionalExpression n)

/-- Reads an expression, if one starts here. -/
def optionalExpression : Nat → Parser (Option Expr)
  | 0 => Run.starve
  | n + 1 => do
    match ← assignmentHead (lvalue n) with
    | some target =>
      let value ← expression n
      pure (some (target.assign target.position value))
    | none => conditional n

/-- Reads a condition and perhaps two branches. -/
def conditional : Nat → Parser (Option Expr)
  | 0 => Run.starve
  | n + 1 => do
    match ← binary n BinaryOp.levels with
    | none => pure none
    | some condition =>
      if ← eat .question then
        let thenBranch ← required .expressionExpected (conditional n)
        expect .colon
        let elseBranch ← required .expressionExpected (conditional n)
        pure (some (.conditional condition.position condition thenBranch elseBranch))
      else
        pure (some condition)

/-- Reads operands between operators of the levels, the first level the loosest. -/
def binary : Nat → List (List BinaryOp) → Parser (Option Expr)
  | 0, _ => Run.starve
  | n + 1, [] => unary n
  | n + 1, ops :: tighter => do
    match ← binary n tighter with
    | none => pure none
    | some left =>
      let whole ← chain n ops tighter left
      pure (some whole)

/-- Reads the operators of one level, with their right operands, after `left`. -/
def chain : Nat → List BinaryOp → List (List BinaryOp) → Expr → Parser Expr
  | 0, _, _, _ => Run.starve
  | n + 1, ops, tighter, left => do
    match ← operatorAmong ops with
    | none => pure left
    | some (op, p) =>
      match ← binary n tighter with
      | some right => chain n ops tighter (.binary left.position op p left right)
      | none =>
        let next ← nextPosition
        Run.fail ⟨.subExpressionExpected, some (next.getD p)⟩

/-- Reads operators before a primary expression. -/
def unary : Nat → Parser (Option Expr)
  | 0 => Run.starve
  | n + 1 => do
    match ← unaryOperator with
    | none => primary n
    | some (op, p) =>
      match ← unary n with
      | some operand => pure (some (.unary p op operand))
      | none =>
        let next ← nextPosition
        Run.fail ⟨.subExpressionExpected, next⟩

/-- Reads a call, an lvalue, a literal, a list, or an expression in parentheses. -/
def primary : Nat → Parser (Option Expr)
  | 0 => Run.starve
  | n + 1 => do
    match ← call n with
    | some e => pure (some e)
    | none =>
      match ← lvalue n with
      | some target => pure (some target.read)
      | none =>
        match ← peek with
        | none => pure none
        | some ⟨.symbol .openBracket, p⟩ =>
          advance
          let elements ← separated n .closeBracket
          pure (some (.list p elements))
        | some ⟨.symbol .openParen, _⟩ =>
          advance
          let inner ← expression n
          expect .closeParen
          pure (some inner)
        | some ⟨lexeme, p⟩ => literal lexeme p

/-- Reads a variable or an element of one. -/
def lvalue : Nat → Parser (Option LValue)
  | 0 => Run.starve
  | n + 1 => do
    match ← lvalueHead with
    | none => pure none
    | some (p, name) =>
      if ← eat .openBracket then
        let index ← expression n
        expect .closeBracket
        pure (some (.element p name index))
      else
        pure (some (.var p name))

/-- Reads a call: a name, a parenthesis right after it, and arguments. -/
def call : Nat → Parser (Option Expr)
  | 0 => Run.starve
  | n + 1 => do
    match ← callHead with
    | none => pure none
    | some (p, name) =>
      let arguments ← separated n .closeParen
      pure (some (.call p name arguments))

/-- Reads expressions between commas up to the closing symbol. -/
def separated : Nat → Symbol → Parser (List Expr)
  | 0, _ => Run.starve
  | n + 1, closing => do
    if ← eat closing then pure [] else separated1 n closing

/-- Reads at least one expression, and more after commas, up to the closing symbol. -/
def separated1 : Nat → Symbol → Parser (List Expr)
  | 0, _ => Run.starve
  | n + 1, closing => do
    let first ← expression n
    if ← eat .comma then
      let others ← separated1 n closing
      pure (first :: others)
    else
      expect closing
      pure [first]

end

/-! ## Statements -/

/-- Reads the counter that a `for` loop may declare, up to the `=` after it. -/
def loopCounter : Parser (Option String) := do
  match ← eatKeyword .var with
  | none => pure none
  | some _ =>
    let name ← identifier
    expect .assign
    pure (some name)

mutual

/-- Reads a statement, if one starts here. -/
def statement : Nat → Parser (Option Statement)
  | 0 => Run.starve
  | n + 1 => do
    match ← peek with
    | none => pure none
    | some ⟨.keyword word, p⟩ => keywordStatement n word p
    | some ⟨.symbol .openBrace, _⟩ => block n
    | some _ =>
      match ← assignmentHead (lvalue n) with
      | some target =>
        let value ← expression n
        expect .semicolon
        pure (some (.ofExpr (target.assign target.position value)))
      | none =>
        match ← call n with
        | none => pure none
        | some e =>
          expect .semicolon
          pure (some (.ofExpr e))

/-- Reads the statement that starts with the keyword at the front. -/
def keywordStatement : Nat → Keyword → Position → Parser (Option Statement)
  | 0, _, _ => Run.starve
  | n + 1, word, p =>
    match word with
    | .var => do
      advance
      let name ← identifier
      if ← eat .assign then
        let value ← expression n
        expect .semicolon
        pure (some (.declare p name (some value)))
      else
        expect .semicolon
        pure (some (.declare p name none))
    | .forWord => do
      advance
      expect .openParen
      let counter ← loopCounter
      let start ← expression n
      expect .semicolon
      let condition ← expression n
      expect .semicolon
      let step ← expression n
      expect .closeParen
      let body ← requiredStatement n
      pure (some (.forLoop p counter start condition step body))
    | .foreachWord => do
      advance
      expect .openParen
      let _ ← eatKeyword .var
      let item ← identifier
      expectKeyword .inWord
      let collection ← expression n
      expect .closeParen
      let body ← requiredStatement n
      pure (some (.forEach p item collection body))
    | .ifWord => do
      advance
      expect .openParen
      let condition ← expression n
      expect .closeParen
      let thenBranch ← requiredStatement n
      match ← eatKeyword .elseWord with
      | some _ =>
        let elseBranch ← requiredStatement n
        pure (some (.ifElse p condition thenBranch (some elseBranch)))
      | none => pure (some (.ifElse p condition thenBranch none))
    | .whileWord => do
      advance
      expect .openParen
      let condition ← expression n
      expect .closeParen
      let body ← requiredStatement n
      pure (some (.whileLoop p condition body))
    | .breakWord => do
      advance
      expect .semicolon
      pure (some (.breaks p))
    | .continueWord => do
      advance
      expect .semicolon
      pure (some (.continues p))
    | .returnWord => do
      advance
      if ← eat .semicolon then
        pure (some (.returns p none))
      else
        let value ← expression n
        expect .semicolon
        pure (some (.returns p (some value)))
    | .func => pure none
    | .inWord => pure none
    | .elseWord => pure none

/-- Reads a statement where there must be one. -/
def requiredStatement : Nat → Parser Statement
  | 0 => Run.starve
  | n + 1 => required .statementExpected (statement n)

/-- Reads a block, if one starts here. -/
def block : Nat → Parser (Option Statement)
  | 0 => Run.starve
  | n + 1 => do
    match ← peek with
    | some ⟨.symbol .openBrace, p⟩ =>
      advance
      let statements ← blockBody n
      pure (some (.block p statements))
    | _ => pure none

/-- Reads statements up to the closing brace. -/
def blockBody : Nat → Parser (List Statement)
  | 0 => Run.starve
  | n + 1 => do
    if ← eat .closeBrace then pure []
    else
      let first ← requiredStatement n
      let others ← blockBody n
      pure (first :: others)

end

/-! ## Functions and scripts -/

/-- Takes the comma that stands before every parameter but the first. -/
def separator (first : Bool) : Parser Unit :=
  if first then pure () else expect .comma

/-- Reads parameters up to the closing parenthesis, and says whether `...` stands
last among them. -/
def parameters : Nat → (first : Bool) → Parser (List String × Bool)
  | 0, _ => Run.starve
  | n + 1, first => do
    if ← eat .closeParen then pure ([], false)
    else
      separator first
      if ← eat .ellipsis then
        if ← eat .closeParen then pure ([], true)
        else
          let next ← nextPosition
          Run.fail ⟨.ellipsisNotLast, next⟩
      else
        let name ← identifier
        let (names, variadic) ← parameters n false
        pure (name :: names, variadic)

/-- Reads a function, if one starts here. -/
def function : Nat → Parser (Option FunctionDef)
  | 0 => Run.starve
  | n + 1 => do
    match ← eatKeyword .func with
    | none => pure none
    | some p =>
      let name ← identifier
      expect .openParen
      let (params, variadic) ← parameters n true
      match ← block n with
      | some (.block bodyPosition body) =>
        pure (some ⟨p, ⟨name, params, variadic⟩, bodyPosition, body⟩)
      | _ =>
        let next ← nextPosition
        Run.fail ⟨.symbolExpected .openBrace, next⟩

/-- Reads statements and functions up to the end of the tokens. -/
def items : Nat → Parser (List Statement × List FunctionDef)
  | 0 => Run.starve
  | n + 1 => do
    match ← peek with
    | none => pure ([], [])
    | some token =>
      match ← statement n with
      | some s =>
        let (statements, functions) ← items n
        pure (s :: statements, functions)
      | none =>
        match ← function n with
        | some f =>
          let (statements, functions) ← items n
          pure (statements, f :: functions)
        | none => Run.fail ⟨.unexpectedToken token.lexeme.text, some token.position⟩

/-- Fuel that is enough to read the tokens: between two tokens no more than
twenty-four functions of the grammar call each other. -/
def fuel (tokens : List Token) : Nat :=
  24 * (tokens.length + 1)

/-- Runs a parser of the grammar on tokens, and gives what it leaves as well. -/
def parse (p : Nat → Parser α) (tokens : List Token) : Except ParseError α × List Token :=
  let (outcome, rest) := p (fuel tokens) tokens
  (outcome.toExcept ⟨.unexpectedEnd, none⟩, rest)

end Parser

namespace Script

/-- An end of the tokens that came too early is shown at the last of them. -/
def atLastToken (tokens : List Token) (e : ParseError) : ParseError :=
  match e.cause, tokens.getLast? with
  | .unexpectedEnd, some last => { e with position := some last.position }
  | _, _ => e

/-- Reads a script from tokens. -/
def ofTokens (name : String) (tokens : List Token) : Except ParseError Script :=
  match (Parser.parse Parser.items tokens).1 with
  | .ok (statements, functions) => .ok ⟨name, statements, functions⟩
  | .error e => .error (atLastToken tokens e)

/-- Reads a script from its text. -/
def ofText (name : String) (text : String) : Except ParseError Script := do
  ofTokens name (← Token.scan name text)

/-- Reads a script from its lines. -/
def ofLines (name : String) (lines : List String) : Except ParseError Script := do
  ofTokens name (← Token.scanLines name lines)

end Script

end Scriptlet
