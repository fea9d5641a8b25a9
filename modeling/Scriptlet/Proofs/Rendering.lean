import Scriptlet.Proofs.Grammar

/-!
# Renderings of scripts

How a script can be written down as tokens.  The trees come first here: every
expression has a rank, the higher the tighter, and every place where an
expression can stand asks for a rank.  An expression of a lower rank than its
place asks for must be put in parentheses, and any other may be
(`Fragment.Renders`).  Neither the tokens nor the tree need to know where they
are, so positions play no part: `Script.erase` takes them out of a tree.

Not every tree can be written.  `Script.Writable` is what a tree needs: a
spelling for every constant, assignments and calls as the only expressions that
are statements, and no `else` that would be taken by a statement before it.
-/

namespace Scriptlet

/-! ## Trees without positions -/

/-- The position that says nothing. -/
def Position.nowhere : Position :=
  ⟨"", 0, 0⟩

mutual

/-- An expression without its positions. -/
def Expr.erase : Expr → Expr
  | .literal _ value => .literal .nowhere value
  | .var _ name => .var .nowhere name
  | .element _ name index => .element .nowhere name index.erase
  | .unary _ op operand => .unary .nowhere op operand.erase
  | .binary _ op _ left right => .binary .nowhere op .nowhere left.erase right.erase
  | .assign _ _ name value => .assign .nowhere .nowhere name value.erase
  | .assignElement _ _ name index value =>
    .assignElement .nowhere .nowhere name index.erase value.erase
  | .conditional _ condition thenBranch elseBranch =>
    .conditional .nowhere condition.erase thenBranch.erase elseBranch.erase
  | .list _ elements => .list .nowhere (Expr.eraseAll elements)
  | .call _ name arguments => .call .nowhere name (Expr.eraseAll arguments)

/-- Expressions without their positions. -/
def Expr.eraseAll : List Expr → List Expr
  | [] => []
  | e :: es => e.erase :: Expr.eraseAll es

end

mutual

/-- A statement without its positions. -/
def Statement.erase : Statement → Statement
  | .declare _ name value => .declare .nowhere name (value.map Expr.erase)
  | .evaluate _ value => .evaluate .nowhere value.erase
  | .forLoop _ counter start condition step body =>
    .forLoop .nowhere counter start.erase condition.erase step.erase body.erase
  | .forEach _ item collection body => .forEach .nowhere item collection.erase body.erase
  | .ifElse _ condition thenBranch none =>
    .ifElse .nowhere condition.erase thenBranch.erase none
  | .ifElse _ condition thenBranch (some elseBranch) =>
    .ifElse .nowhere condition.erase thenBranch.erase (some elseBranch.erase)
  | .whileLoop _ condition body => .whileLoop .nowhere condition.erase body.erase
  | .block _ statements => .block .nowhere (Statement.eraseAll statements)
  | .returns _ value => .returns .nowhere (value.map Expr.erase)
  | .breaks _ => .breaks .nowhere
  | .continues _ => .continues .nowhere

/-- Statements without their positions. -/
def Statement.eraseAll : List Statement → List Statement
  | [] => []
  | s :: ss => s.erase :: Statement.eraseAll ss

end

/-- A function without its positions. -/
def FunctionDef.erase (f : FunctionDef) : FunctionDef :=
  ⟨.nowhere, f.signature, .nowhere, Statement.eraseAll f.body⟩

/-- A script without its positions. -/
def Script.erase (script : Script) : Script :=
  ⟨script.name, Statement.eraseAll script.statements, script.functions.map FunctionDef.erase⟩

/-! ## Ranks -/

/-- The rank of an operation: the level of its operator, after assignments and
conditionals. -/
def BinaryOp.rank (op : BinaryOp) : Nat :=
  2 + BinaryOp.levels.findIdx fun ops => ops.contains op

/-- How tightly an expression holds together, from 0 for an assignment to 13 for
one that needs no parentheses anywhere. -/
def Expr.rank : Expr → Nat
  | .assign _ _ _ _ => 0
  | .assignElement _ _ _ _ _ => 0
  | .conditional _ _ _ _ => 1
  | .binary _ op _ _ _ => op.rank
  | .unary _ _ _ => 12
  | _ => 13

/-! ## Renderings of expressions -/

/-- A part of an expression that is to be written. -/
inductive Fragment where
  /-- An expression in a place that asks for a rank. -/
  | operand (rank : Nat) (e : Expr)
  /-- An expression without parentheses around it. -/
  | bare (e : Expr)
  /-- What stands between the brackets of a list or the parentheses of a call. -/
  | elements (es : List Expr)
  /-- The same, if it is not empty. -/
  | elements1 (es : List Expr)

/-- The tokens that a fragment can be written as.  Both operands of an operation
stand at its rank, the right one above it, so operators of one level group to
the left; a condition stands above conditionals, the branches beside them. -/
inductive Fragment.Renders : Fragment → List Token → Prop where
  | plain {r : Nat} {e : Expr} {ts : List Token} (hrank : r ≤ e.rank)
      (h : Renders (.bare e) ts) : Renders (.operand r e) ts
  | parenthesized {r : Nat} {e : Expr} {ts : List Token} {p q : Position}
      (h : Renders (.operand 0 e) ts) :
      Renders (.operand r e) (⟨.symbol .openParen, p⟩ :: (ts ++ [⟨.symbol .closeParen, q⟩]))
  | literal {lexeme : Lexeme} {value : Literal} {o p : Position}
      (h : Literal.read? lexeme = some (.ok value)) :
      Renders (.bare (.literal o value)) [⟨lexeme, p⟩]
  | name {lexeme : Lexeme} {name : String} {o p : Position}
      (hname : lexeme.lvalueName? = some name) : Renders (.bare (.var o name)) [⟨lexeme, p⟩]
  | element {lexeme : Lexeme} {name : String} {index : Expr} {ts : List Token}
      {o p q q' : Position} (hname : lexeme.lvalueName? = some name)
      (hindex : Renders (.operand 0 index) ts) :
      Renders (.bare (.element o name index))
        (⟨lexeme, p⟩ :: ⟨.symbol .openBracket, q⟩ :: (ts ++ [⟨.symbol .closeBracket, q'⟩]))
  | unary {op : UnaryOp} {operand : Expr} {ts : List Token} {o p : Position}
      (h : Renders (.operand 12 operand) ts) :
      Renders (.bare (.unary o op operand)) (⟨.symbol op.symbol, p⟩ :: ts)
  | binary {op : BinaryOp} {left right : Expr} {ts ts' : List Token} {o t p : Position}
      (hleft : Renders (.operand op.rank left) ts)
      (hright : Renders (.operand (op.rank + 1) right) ts') :
      Renders (.bare (.binary o op t left right)) (ts ++ ⟨.symbol op.symbol, p⟩ :: ts')
  | assign {lexeme : Lexeme} {name : String} {value : Expr} {ts : List Token}
      {o t p q : Position} (hname : lexeme.lvalueName? = some name)
      (hvalue : Renders (.operand 0 value) ts) :
      Renders (.bare (.assign o t name value)) (⟨lexeme, p⟩ :: ⟨.symbol .assign, q⟩ :: ts)
  | assignElement {lexeme : Lexeme} {name : String} {index value : Expr} {ts ts' : List Token}
      {o t p q q' r : Position} (hname : lexeme.lvalueName? = some name)
      (hindex : Renders (.operand 0 index) ts) (hvalue : Renders (.operand 0 value) ts') :
      Renders (.bare (.assignElement o t name index value))
        (⟨lexeme, p⟩ :: ⟨.symbol .openBracket, q⟩ ::
          (ts ++ ⟨.symbol .closeBracket, q'⟩ :: ⟨.symbol .assign, r⟩ :: ts'))
  | conditional {condition thenBranch elseBranch : Expr} {ts ts' ts'' : List Token}
      {o q q' : Position} (hcondition : Renders (.operand 2 condition) ts)
      (hthen : Renders (.operand 1 thenBranch) ts')
      (helse : Renders (.operand 1 elseBranch) ts'') :
      Renders (.bare (.conditional o condition thenBranch elseBranch))
        (ts ++ ⟨.symbol .question, q⟩ :: (ts' ++ ⟨.symbol .colon, q'⟩ :: ts''))
  | list {es : List Expr} {ts : List Token} {o p q : Position} (h : Renders (.elements es) ts) :
      Renders (.bare (.list o es))
        (⟨.symbol .openBracket, p⟩ :: (ts ++ [⟨.symbol .closeBracket, q⟩]))
  | call {name : String} {es : List Expr} {ts : List Token} {o p q q' : Position}
      (h : Renders (.elements es) ts) :
      Renders (.bare (.call o name es))
        (⟨.identifier name, p⟩ :: ⟨.symbol .openParen, q⟩ :: (ts ++ [⟨.symbol .closeParen, q'⟩]))
  | noElements : Renders (.elements []) []
  | ofElements1 {es : List Expr} {ts : List Token} (h : Renders (.elements1 es) ts) :
      Renders (.elements es) ts
  | lastElement {e : Expr} {ts : List Token} (h : Renders (.operand 0 e) ts) :
      Renders (.elements1 [e]) ts
  | moreElements {e : Expr} {es : List Expr} {ts ts' : List Token} {q : Position}
      (h : Renders (.operand 0 e) ts) (hmore : Renders (.elements1 es) ts') :
      Renders (.elements1 (e :: es)) (ts ++ ⟨.symbol .comma, q⟩ :: ts')

/-! ## Renderings of statements, functions and scripts -/

/-- The tokens that a statement, or the inside of a block, can be written as. -/
inductive Passage.Renders : Passage → List Token → Prop where
  | declaration {name : String} {o p q r : Position} :
      Renders (.statement (.declare o name none))
        [⟨.keyword .var, p⟩, ⟨.identifier name, q⟩, ⟨.symbol .semicolon, r⟩]
  | initialization {name : String} {value : Expr} {ts : List Token} {o p q r r' : Position}
      (hvalue : Fragment.Renders (.operand 0 value) ts) :
      Renders (.statement (.declare o name (some value)))
        (⟨.keyword .var, p⟩ :: ⟨.identifier name, q⟩ :: ⟨.symbol .assign, r⟩ ::
          (ts ++ [⟨.symbol .semicolon, r'⟩]))
  /-- An assignment or a call is a statement itself and not an expression in a
  place for one, so there are no parentheses around the whole of it. -/
  | evaluate {e : Expr} {ts : List Token} {o r : Position} (h : Fragment.Renders (.bare e) ts) :
      Renders (.statement (.evaluate o e)) (ts ++ [⟨.symbol .semicolon, r⟩])
  | forLoop {counter : Option String} {start condition step : Expr} {body : Statement}
      {cs ts ts' ts'' us : List Token} {o p q r r' q' : Position}
      (hcounter : LoopCounter counter cs)
      (hstart : Fragment.Renders (.operand 0 start) ts)
      (hcondition : Fragment.Renders (.operand 0 condition) ts')
      (hstep : Fragment.Renders (.operand 0 step) ts'')
      (hbody : Renders (.statement body) us) :
      Renders (.statement (.forLoop o counter start condition step body))
        (⟨.keyword .forWord, p⟩ :: ⟨.symbol .openParen, q⟩ :: (cs ++ (ts ++
          ⟨.symbol .semicolon, r⟩ :: (ts' ++ ⟨.symbol .semicolon, r'⟩ ::
            (ts'' ++ ⟨.symbol .closeParen, q'⟩ :: us)))))
  | forEach {item : String} {collection : Expr} {body : Statement} {vs ts us : List Token}
      {o p q i r q' : Position} (hvar : LoopVar vs)
      (hcollection : Fragment.Renders (.operand 0 collection) ts)
      (hbody : Renders (.statement body) us) :
      Renders (.statement (.forEach o item collection body))
        (⟨.keyword .foreachWord, p⟩ :: ⟨.symbol .openParen, q⟩ :: (vs ++
          ⟨.identifier item, i⟩ :: ⟨.keyword .inWord, r⟩ ::
            (ts ++ ⟨.symbol .closeParen, q'⟩ :: us)))
  | ifOnly {condition : Expr} {thenBranch : Statement} {ts us : List Token} {o p q q' : Position}
      (hcondition : Fragment.Renders (.operand 0 condition) ts)
      (hthen : Renders (.statement thenBranch) us) :
      Renders (.statement (.ifElse o condition thenBranch none))
        (⟨.keyword .ifWord, p⟩ :: ⟨.symbol .openParen, q⟩ ::
          (ts ++ ⟨.symbol .closeParen, q'⟩ :: us))
  | ifElse {condition : Expr} {thenBranch elseBranch : Statement} {ts us us' : List Token}
      {o p q q' r : Position} (hcondition : Fragment.Renders (.operand 0 condition) ts)
      (hthen : Renders (.statement thenBranch) us) (helse : Renders (.statement elseBranch) us') :
      Renders (.statement (.ifElse o condition thenBranch (some elseBranch)))
        (⟨.keyword .ifWord, p⟩ :: ⟨.symbol .openParen, q⟩ ::
          (ts ++ ⟨.symbol .closeParen, q'⟩ :: (us ++ ⟨.keyword .elseWord, r⟩ :: us')))
  | whileLoop {condition : Expr} {body : Statement} {ts us : List Token} {o p q q' : Position}
      (hcondition : Fragment.Renders (.operand 0 condition) ts)
      (hbody : Renders (.statement body) us) :
      Renders (.statement (.whileLoop o condition body))
        (⟨.keyword .whileWord, p⟩ :: ⟨.symbol .openParen, q⟩ ::
          (ts ++ ⟨.symbol .closeParen, q'⟩ :: us))
  | block {ss : List Statement} {ts : List Token} {o p q : Position}
      (h : Renders (.statements ss) ts) :
      Renders (.statement (.block o ss))
        (⟨.symbol .openBrace, p⟩ :: (ts ++ [⟨.symbol .closeBrace, q⟩]))
  | returnNothing {o p r : Position} :
      Renders (.statement (.returns o none)) [⟨.keyword .returnWord, p⟩, ⟨.symbol .semicolon, r⟩]
  | returnValue {value : Expr} {ts : List Token} {o p r : Position}
      (hvalue : Fragment.Renders (.operand 0 value) ts) :
      Renders (.statement (.returns o (some value)))
        (⟨.keyword .returnWord, p⟩ :: (ts ++ [⟨.symbol .semicolon, r⟩]))
  | breaks {o p r : Position} :
      Renders (.statement (.breaks o)) [⟨.keyword .breakWord, p⟩, ⟨.symbol .semicolon, r⟩]
  | continues {o p r : Position} :
      Renders (.statement (.continues o)) [⟨.keyword .continueWord, p⟩, ⟨.symbol .semicolon, r⟩]
  | noStatements : Renders (.statements []) []
  | moreStatements {s : Statement} {ss : List Statement} {ts ts' : List Token}
      (h : Renders (.statement s) ts) (hmore : Renders (.statements ss) ts') :
      Renders (.statements (s :: ss)) (ts ++ ts')

/-- The tokens that a function can be written as. -/
inductive FunctionDef.Renders : FunctionDef → List Token → Prop where
  | intro {f : FunctionDef} {ts us : List Token} {p n q q' b c : Position}
      (hparams : Parameters f.signature.params f.signature.variadic ts)
      (hbody : Passage.Renders (.statements f.body) us) :
      Renders f (⟨.keyword .func, p⟩ :: ⟨.identifier f.signature.name, n⟩ ::
        ⟨.symbol .openParen, q⟩ :: (ts ++ ⟨.symbol .closeParen, q'⟩ ::
          ⟨.symbol .openBrace, b⟩ :: (us ++ [⟨.symbol .closeBrace, c⟩])))

/-- The tokens that statements and functions can be written as, in any order
between the two kinds. -/
inductive RenderedItems : List Statement → List FunctionDef → List Token → Prop where
  | nil : RenderedItems [] [] []
  | statement {s : Statement} {ss : List Statement} {fs : List FunctionDef}
      {ts ts' : List Token} (h : Passage.Renders (.statement s) ts)
      (hmore : RenderedItems ss fs ts') : RenderedItems (s :: ss) fs (ts ++ ts')
  | function {f : FunctionDef} {ss : List Statement} {fs : List FunctionDef}
      {ts ts' : List Token} (h : f.Renders ts) (hmore : RenderedItems ss fs ts') :
      RenderedItems ss (f :: fs) (ts ++ ts')

/-- The tokens that a script can be written as. -/
def Script.Renders (script : Script) (ts : List Token) : Prop :=
  RenderedItems script.statements script.functions ts

/-! ## Trees that can be written -/

mutual

/-- Every constant of the expression is spelled out by some token. -/
def Expr.Writable : Expr → Prop
  | .literal _ value => ∃ lexeme, Literal.read? lexeme = some (.ok value)
  | .var _ _ => True
  | .element _ _ index => index.Writable
  | .unary _ _ operand => operand.Writable
  | .binary _ _ _ left right => left.Writable ∧ right.Writable
  | .assign _ _ _ value => value.Writable
  | .assignElement _ _ _ index value => index.Writable ∧ value.Writable
  | .conditional _ condition thenBranch elseBranch =>
    condition.Writable ∧ thenBranch.Writable ∧ elseBranch.Writable
  | .list _ elements => Expr.AllWritable elements
  | .call _ _ arguments => Expr.AllWritable arguments

/-- Every one of the expressions is writable. -/
def Expr.AllWritable : List Expr → Prop
  | [] => True
  | e :: es => e.Writable ∧ Expr.AllWritable es

end

/-- Whether an expression is a statement once a semicolon follows it. -/
def Expr.standsAlone : Expr → Bool
  | .assign _ _ _ _ => true
  | .assignElement _ _ _ _ _ => true
  | .call _ _ _ => true
  | _ => false

mutual

/-- The statement has writable parts, its expressions that are statements are
assignments and calls, and no `else` in it follows a statement that would take
it. -/
def Statement.Writable : Statement → Prop
  | .declare _ _ none => True
  | .declare _ _ (some value) => value.Writable
  | .evaluate _ value => value.standsAlone = true ∧ value.Writable
  | .forLoop _ _ start condition step body =>
    start.Writable ∧ condition.Writable ∧ step.Writable ∧ body.Writable
  | .forEach _ _ collection body => collection.Writable ∧ body.Writable
  | .ifElse _ condition thenBranch none => condition.Writable ∧ thenBranch.Writable
  | .ifElse _ condition thenBranch (some elseBranch) =>
    condition.Writable ∧ thenBranch.Writable ∧ thenBranch.takesElse = false ∧ elseBranch.Writable
  | .whileLoop _ condition body => condition.Writable ∧ body.Writable
  | .block _ statements => Statement.AllWritable statements
  | .returns _ none => True
  | .returns _ (some value) => value.Writable
  | .breaks _ => True
  | .continues _ => True

/-- Every one of the statements is writable. -/
def Statement.AllWritable : List Statement → Prop
  | [] => True
  | s :: ss => s.Writable ∧ Statement.AllWritable ss

end

/-- Every statement of the script and of its functions is writable. -/
def Script.Writable (script : Script) : Prop :=
  Statement.AllWritable script.statements ∧
    ∀ f ∈ script.functions, Statement.AllWritable f.body

end Scriptlet
