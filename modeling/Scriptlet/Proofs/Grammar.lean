import Scriptlet.Script.Parser

/-!
# The grammar

Which tokens spell which trees, as rules and without a parser.  A `Phrase` is a
nonterminal of the grammar of expressions together with the tree that it stands
for; `Phrase.Derives` says which tokens it derives.  Statements, functions and
scripts follow in the same way.

The rules read tokens from left to right and leave none out.  Grouping is a
matter of the rules alone: an operation of some level has a left operand of the
same level and a right operand of the next tighter one, so a chain of operators
of one level groups to the left, and parentheses are the only way from a tight
place back to a whole expression.  They leave no node.

Two statements could share an `else`.  The rule for a branch with an `else` asks
that its first part cannot take an `else` itself (`Statement.takesElse`), so an
`else` belongs to the nearest `if` that can take it.
-/

namespace Scriptlet

/-- The name that an lvalue begins with, if a token can begin one. -/
def Lexeme.lvalueName? : Lexeme → Option String
  | .identifier name => some name
  | .symbol .ellipsis => some Name.variadic
  | _ => none

/-- A nonterminal of the grammar of expressions, and the tree that it stands for. -/
inductive Phrase where
  | expression (e : Expr)
  | conditional (e : Expr)
  /-- Operands between operators of these levels, the first level the loosest. -/
  | binary (levels : List (List BinaryOp)) (e : Expr)
  | unary (e : Expr)
  | primary (e : Expr)
  | lvalue (target : LValue)
  | call (e : Expr)
  /-- What stands between the brackets of a list or the parentheses of a call. -/
  | elements (es : List Expr)
  /-- The same, if it is not empty. -/
  | elements1 (es : List Expr)

/-- The tokens that a phrase derives. -/
inductive Phrase.Derives : Phrase → List Token → Prop where
  /-- expression: lvalue `=` expression -/
  | assignment {target : LValue} {value : Expr} {ts ts' : List Token} {q : Position}
      (htarget : Derives (.lvalue target) ts) (hvalue : Derives (.expression value) ts') :
      Derives (.expression (target.assign target.position value))
        (ts ++ ⟨.symbol .assign, q⟩ :: ts')
  /-- expression: conditional -/
  | ofConditional {e : Expr} {ts : List Token} (h : Derives (.conditional e) ts) :
      Derives (.expression e) ts
  /-- conditional: binary `?` conditional `:` conditional -/
  | choice {condition thenBranch elseBranch : Expr} {ts ts' ts'' : List Token} {q q' : Position}
      (hcondition : Derives (.binary BinaryOp.levels condition) ts)
      (hthen : Derives (.conditional thenBranch) ts')
      (helse : Derives (.conditional elseBranch) ts'') :
      Derives (.conditional (.conditional condition.position condition thenBranch elseBranch))
        (ts ++ ⟨.symbol .question, q⟩ :: (ts' ++ ⟨.symbol .colon, q'⟩ :: ts''))
  /-- conditional: binary -/
  | ofBinary {e : Expr} {ts : List Token} (h : Derives (.binary BinaryOp.levels e) ts) :
      Derives (.conditional e) ts
  /-- binary, level: binary of this level, operator, binary of the next level -/
  | operation {ops : List BinaryOp} {tighter : List (List BinaryOp)} {op : BinaryOp}
      {left right : Expr} {ts ts' : List Token} {p : Position} (hop : op ∈ ops)
      (hleft : Derives (.binary (ops :: tighter) left) ts)
      (hright : Derives (.binary tighter right) ts') :
      Derives (.binary (ops :: tighter) (.binary left.position op p left right))
        (ts ++ ⟨.symbol op.symbol, p⟩ :: ts')
  /-- binary, level: binary of the next level -/
  | ofTighter {ops : List BinaryOp} {tighter : List (List BinaryOp)} {e : Expr}
      {ts : List Token} (h : Derives (.binary tighter e) ts) :
      Derives (.binary (ops :: tighter) e) ts
  /-- binary, no level left: unary -/
  | ofUnary {e : Expr} {ts : List Token} (h : Derives (.unary e) ts) : Derives (.binary [] e) ts
  /-- unary: operator, unary -/
  | operator {op : UnaryOp} {operand : Expr} {ts : List Token} {p : Position}
      (h : Derives (.unary operand) ts) :
      Derives (.unary (.unary p op operand)) (⟨.symbol op.symbol, p⟩ :: ts)
  /-- unary: primary -/
  | ofPrimary {e : Expr} {ts : List Token} (h : Derives (.primary e) ts) : Derives (.unary e) ts
  /-- primary: call -/
  | ofCall {e : Expr} {ts : List Token} (h : Derives (.call e) ts) : Derives (.primary e) ts
  /-- primary: lvalue -/
  | ofLValue {target : LValue} {ts : List Token} (h : Derives (.lvalue target) ts) :
      Derives (.primary target.read) ts
  /-- primary: a token that spells out a value -/
  | literal {lexeme : Lexeme} {value : Literal} {p : Position}
      (h : Literal.read? lexeme = some (.ok value)) :
      Derives (.primary (.literal p value)) [⟨lexeme, p⟩]
  /-- primary: `[` elements `]` -/
  | list {es : List Expr} {ts : List Token} {p q : Position} (h : Derives (.elements es) ts) :
      Derives (.primary (.list p es))
        (⟨.symbol .openBracket, p⟩ :: (ts ++ [⟨.symbol .closeBracket, q⟩]))
  /-- primary: `(` expression `)` -/
  | parentheses {e : Expr} {ts : List Token} {p q : Position} (h : Derives (.expression e) ts) :
      Derives (.primary e) (⟨.symbol .openParen, p⟩ :: (ts ++ [⟨.symbol .closeParen, q⟩]))
  /-- lvalue: name -/
  | named {lexeme : Lexeme} {name : String} {p : Position}
      (hname : lexeme.lvalueName? = some name) : Derives (.lvalue (.var p name)) [⟨lexeme, p⟩]
  /-- lvalue: name `[` expression `]` -/
  | element {lexeme : Lexeme} {name : String} {index : Expr} {ts : List Token}
      {p q q' : Position} (hname : lexeme.lvalueName? = some name)
      (hindex : Derives (.expression index) ts) :
      Derives (.lvalue (.element p name index))
        (⟨lexeme, p⟩ :: ⟨.symbol .openBracket, q⟩ :: (ts ++ [⟨.symbol .closeBracket, q'⟩]))
  /-- call: identifier `(` elements `)` -/
  | call {name : String} {es : List Expr} {ts : List Token} {p q q' : Position}
      (h : Derives (.elements es) ts) :
      Derives (.call (.call p name es))
        (⟨.identifier name, p⟩ :: ⟨.symbol .openParen, q⟩ :: (ts ++ [⟨.symbol .closeParen, q'⟩]))
  /-- elements: nothing -/
  | noElements : Derives (.elements []) []
  /-- elements: elements1 -/
  | ofElements1 {es : List Expr} {ts : List Token} (h : Derives (.elements1 es) ts) :
      Derives (.elements es) ts
  /-- elements1: expression -/
  | lastElement {e : Expr} {ts : List Token} (h : Derives (.expression e) ts) :
      Derives (.elements1 [e]) ts
  /-- elements1: expression `,` elements1 -/
  | moreElements {e : Expr} {es : List Expr} {ts ts' : List Token} {q : Position}
      (h : Derives (.expression e) ts) (hmore : Derives (.elements1 es) ts') :
      Derives (.elements1 (e :: es)) (ts ++ ⟨.symbol .comma, q⟩ :: ts')

/-! ## Statements -/

/-- Whether an `else` after the statement would become a part of it. -/
def Statement.takesElse : Statement → Bool
  | .ifElse _ _ _ none => true
  | .ifElse _ _ _ (some elseBranch) => elseBranch.takesElse
  | .forLoop _ _ _ _ _ body => body.takesElse
  | .forEach _ _ _ body => body.takesElse
  | .whileLoop _ _ body => body.takesElse
  | _ => false

/-- The tokens by which a `for` loop declares a counter, or none. -/
inductive LoopCounter : Option String → List Token → Prop where
  | absent : LoopCounter none []
  | declared {name : String} {p q r : Position} :
      LoopCounter (some name)
        [⟨.keyword .var, p⟩, ⟨.identifier name, q⟩, ⟨.symbol .assign, r⟩]

/-- The word `var` that a `foreach` loop may have before the name of its variable. -/
inductive LoopVar : List Token → Prop where
  | absent : LoopVar []
  | written {p : Position} : LoopVar [⟨.keyword .var, p⟩]

/-- A statement or the statements of a block. -/
inductive Passage where
  | statement (s : Statement)
  | statements (ss : List Statement)

/-- The tokens that a statement, or the inside of a block, derives. -/
inductive Passage.Derives : Passage → List Token → Prop where
  /-- `var` name `;` -/
  | declaration {name : String} {p q r : Position} :
      Derives (.statement (.declare p name none))
        [⟨.keyword .var, p⟩, ⟨.identifier name, q⟩, ⟨.symbol .semicolon, r⟩]
  /-- `var` name `=` expression `;` -/
  | initialization {name : String} {value : Expr} {ts : List Token} {p q r r' : Position}
      (hvalue : Phrase.Derives (.expression value) ts) :
      Derives (.statement (.declare p name (some value)))
        (⟨.keyword .var, p⟩ :: ⟨.identifier name, q⟩ :: ⟨.symbol .assign, r⟩ ::
          (ts ++ [⟨.symbol .semicolon, r'⟩]))
  /-- lvalue `=` expression `;` -/
  | assignment {target : LValue} {value : Expr} {ts ts' : List Token} {q r : Position}
      (htarget : Phrase.Derives (.lvalue target) ts)
      (hvalue : Phrase.Derives (.expression value) ts') :
      Derives (.statement (.ofExpr (target.assign target.position value)))
        (ts ++ ⟨.symbol .assign, q⟩ :: (ts' ++ [⟨.symbol .semicolon, r⟩]))
  /-- call `;` -/
  | call {e : Expr} {ts : List Token} {r : Position} (h : Phrase.Derives (.call e) ts) :
      Derives (.statement (.ofExpr e)) (ts ++ [⟨.symbol .semicolon, r⟩])
  /-- `for (` counter expression `;` expression `;` expression `)` statement -/
  | forLoop {counter : Option String} {start condition step : Expr} {body : Statement}
      {cs ts ts' ts'' us : List Token} {p q r r' q' : Position}
      (hcounter : LoopCounter counter cs)
      (hstart : Phrase.Derives (.expression start) ts)
      (hcondition : Phrase.Derives (.expression condition) ts')
      (hstep : Phrase.Derives (.expression step) ts'')
      (hbody : Derives (.statement body) us) :
      Derives (.statement (.forLoop p counter start condition step body))
        (⟨.keyword .forWord, p⟩ :: ⟨.symbol .openParen, q⟩ :: (cs ++ (ts ++
          ⟨.symbol .semicolon, r⟩ :: (ts' ++ ⟨.symbol .semicolon, r'⟩ ::
            (ts'' ++ ⟨.symbol .closeParen, q'⟩ :: us)))))
  /-- `foreach (` name `in` expression `)` statement, perhaps with `var` before the name -/
  | forEach {item : String} {collection : Expr} {body : Statement} {vs ts us : List Token}
      {p q i r q' : Position} (hvar : LoopVar vs)
      (hcollection : Phrase.Derives (.expression collection) ts)
      (hbody : Derives (.statement body) us) :
      Derives (.statement (.forEach p item collection body))
        (⟨.keyword .foreachWord, p⟩ :: ⟨.symbol .openParen, q⟩ :: (vs ++
          ⟨.identifier item, i⟩ :: ⟨.keyword .inWord, r⟩ ::
            (ts ++ ⟨.symbol .closeParen, q'⟩ :: us)))
  /-- `if (` expression `)` statement -/
  | ifOnly {condition : Expr} {thenBranch : Statement} {ts us : List Token} {p q q' : Position}
      (hcondition : Phrase.Derives (.expression condition) ts)
      (hthen : Derives (.statement thenBranch) us) :
      Derives (.statement (.ifElse p condition thenBranch none))
        (⟨.keyword .ifWord, p⟩ :: ⟨.symbol .openParen, q⟩ ::
          (ts ++ ⟨.symbol .closeParen, q'⟩ :: us))
  /-- `if (` expression `)` statement `else` statement -/
  | ifElse {condition : Expr} {thenBranch elseBranch : Statement} {ts us us' : List Token}
      {p q q' r : Position} (hcondition : Phrase.Derives (.expression condition) ts)
      (hthen : Derives (.statement thenBranch) us) (hnearest : thenBranch.takesElse = false)
      (helse : Derives (.statement elseBranch) us') :
      Derives (.statement (.ifElse p condition thenBranch (some elseBranch)))
        (⟨.keyword .ifWord, p⟩ :: ⟨.symbol .openParen, q⟩ ::
          (ts ++ ⟨.symbol .closeParen, q'⟩ :: (us ++ ⟨.keyword .elseWord, r⟩ :: us')))
  /-- `while (` expression `)` statement -/
  | whileLoop {condition : Expr} {body : Statement} {ts us : List Token} {p q q' : Position}
      (hcondition : Phrase.Derives (.expression condition) ts)
      (hbody : Derives (.statement body) us) :
      Derives (.statement (.whileLoop p condition body))
        (⟨.keyword .whileWord, p⟩ :: ⟨.symbol .openParen, q⟩ ::
          (ts ++ ⟨.symbol .closeParen, q'⟩ :: us))
  /-- A block in braces. -/
  | block {ss : List Statement} {ts : List Token} {p q : Position}
      (h : Derives (.statements ss) ts) :
      Derives (.statement (.block p ss))
        (⟨.symbol .openBrace, p⟩ :: (ts ++ [⟨.symbol .closeBrace, q⟩]))
  /-- `return ;` -/
  | returnNothing {p r : Position} :
      Derives (.statement (.returns p none)) [⟨.keyword .returnWord, p⟩, ⟨.symbol .semicolon, r⟩]
  /-- `return` expression `;` -/
  | returnValue {value : Expr} {ts : List Token} {p r : Position}
      (hvalue : Phrase.Derives (.expression value) ts) :
      Derives (.statement (.returns p (some value)))
        (⟨.keyword .returnWord, p⟩ :: (ts ++ [⟨.symbol .semicolon, r⟩]))
  /-- `break ;` -/
  | breaks {p r : Position} :
      Derives (.statement (.breaks p)) [⟨.keyword .breakWord, p⟩, ⟨.symbol .semicolon, r⟩]
  /-- `continue ;` -/
  | continues {p r : Position} :
      Derives (.statement (.continues p)) [⟨.keyword .continueWord, p⟩, ⟨.symbol .semicolon, r⟩]
  /-- No statement. -/
  | noStatements : Derives (.statements []) []
  /-- A statement and more statements. -/
  | moreStatements {s : Statement} {ss : List Statement} {ts ts' : List Token}
      (h : Derives (.statement s) ts) (hmore : Derives (.statements ss) ts') :
      Derives (.statements (s :: ss)) (ts ++ ts')

/-! ## Functions and scripts -/

/-- The tokens of at least one parameter, and whether the last is `...`. -/
inductive Parameters1 : List String → Bool → List Token → Prop where
  | ellipsis {p : Position} : Parameters1 [] true [⟨.symbol .ellipsis, p⟩]
  | last {name : String} {p : Position} : Parameters1 [name] false [⟨.identifier name, p⟩]
  | more {name : String} {names : List String} {variadic : Bool} {ts : List Token}
      {p q : Position} (h : Parameters1 names variadic ts) :
      Parameters1 (name :: names) variadic
        (⟨.identifier name, p⟩ :: ⟨.symbol .comma, q⟩ :: ts)

/-- The tokens between the parentheses of a function's head. -/
inductive Parameters : List String → Bool → List Token → Prop where
  | absent : Parameters [] false []
  | given {names : List String} {variadic : Bool} {ts : List Token}
      (h : Parameters1 names variadic ts) : Parameters names variadic ts

/-- The tokens that a function derives: `func` name `(` parameters `)` and a block. -/
inductive FunctionDef.Derives : FunctionDef → List Token → Prop where
  | intro {name : String} {params : List String} {variadic : Bool} {bodyPosition : Position}
      {body : List Statement} {ts us : List Token} {p n q q' : Position}
      (hparams : Parameters params variadic ts)
      (hbody : Passage.Derives (.statement (.block bodyPosition body)) us) :
      Derives ⟨p, ⟨name, params, variadic⟩, bodyPosition, body⟩
        (⟨.keyword .func, p⟩ :: ⟨.identifier name, n⟩ :: ⟨.symbol .openParen, q⟩ ::
          (ts ++ ⟨.symbol .closeParen, q'⟩ :: us))

/-- The tokens of statements and functions in any order; each kind in its own
order gives the statements and the functions. -/
inductive Items : List Statement → List FunctionDef → List Token → Prop where
  | nil : Items [] [] []
  | statement {s : Statement} {ss : List Statement} {fs : List FunctionDef}
      {ts ts' : List Token} (h : Passage.Derives (.statement s) ts) (hmore : Items ss fs ts') :
      Items (s :: ss) fs (ts ++ ts')
  | function {f : FunctionDef} {ss : List Statement} {fs : List FunctionDef}
      {ts ts' : List Token} (h : f.Derives ts) (hmore : Items ss fs ts') :
      Items ss (f :: fs) (ts ++ ts')

/-- The tokens that a script derives. -/
def Script.Derives (script : Script) (ts : List Token) : Prop :=
  Items script.statements script.functions ts

end Scriptlet
