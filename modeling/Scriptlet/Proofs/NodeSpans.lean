import Scriptlet.Proofs.ParserCompleteness
import Scriptlet.Proofs.ParserSoundness

/-!
# Spans of nodes

Every node of a tree is read from a run of tokens, its span (`Node.ReadFrom`): the parser makes
the node of these tokens and leaves none.  These are the tokens which the grammar derives for the
node (`Node.derives_of_readFrom`, `Node.readFrom_of_derives`).  Within the parentheses around it
a span consists of the node's own tokens and of the spans of the nodes below it, in the order of
the grammar (`Node.consists_of_readFrom`).
-/

namespace Scriptlet

/-! ## Nodes and their spans -/

/-- A node of a tree. -/
inductive Node where
  | expression (e : Expr)
  | lvalue (target : LValue)
  | statement (s : Statement)
  | function (f : FunctionDef)

namespace Node

/-- The parser reads the node from the tokens and leaves none of them. -/
def ReadFrom (ts : List Token) : Node → Prop
  | .expression e => Parser.parse Parser.expression ts = (.ok e, [])
  | .lvalue target => Parser.parse Parser.lvalue ts = (.ok (some target), [])
  | .statement s => Parser.parse Parser.statement ts = (.ok (some s), [])
  | .function f => Parser.parse Parser.function ts = (.ok (some f), [])

/-- The nodes right below a node, from left to right. -/
def children : Node → List Node
  | .expression e =>
    match e with
    | .literal _ _ => []
    | .var p name => [.lvalue (.var p name)]
    | .element p name index => [.lvalue (.element p name index)]
    | .unary _ _ operand => [.expression operand]
    | .binary _ _ _ left right => [.expression left, .expression right]
    | .assign _ p name value => [.lvalue (.var p name), .expression value]
    | .assignElement _ p name index value =>
      [.lvalue (.element p name index), .expression value]
    | .conditional _ condition thenBranch elseBranch =>
      [.expression condition, .expression thenBranch, .expression elseBranch]
    | .list _ elements => elements.map .expression
    | .call _ _ arguments => arguments.map .expression
  | .lvalue (.var _ _) => []
  | .lvalue (.element _ _ index) => [.expression index]
  | .statement s =>
    match s with
    | .declare _ _ value => value.toList.map .expression
    | .evaluate _ value => [.expression value]
    | .forLoop _ _ start condition step body =>
      [.expression start, .expression condition, .expression step, .statement body]
    | .forEach _ _ collection body => [.expression collection, .statement body]
    | .ifElse _ condition thenBranch elseBranch =>
      .expression condition :: .statement thenBranch :: elseBranch.toList.map .statement
    | .whileLoop _ condition body => [.expression condition, .statement body]
    | .block _ statements => statements.map .statement
    | .returns _ value => value.toList.map .expression
    | .breaks _ => []
    | .continues _ => []
  | .function f => [.statement (.block f.bodyPosition f.body)]

end Node

/-! ## What a span consists of -/

/-- A part of a span. -/
inductive Part where
  /-- One token, with its place. -/
  | token (t : Token)
  /-- One token, at any place. -/
  | lexeme (l : Lexeme)
  | node (n : Node)

namespace Part

def node? : Part → Option Node
  | .node n => some n
  | _ => none

/-- A symbol, at any place. -/
abbrev mark (m : Symbol) : Part := .lexeme (.symbol m)

/-- A keyword, at any place. -/
abbrev word (w : Keyword) : Part := .lexeme (.keyword w)

/-- The parts with commas between them. -/
def separated (parts : List Part) : List Part := parts.intersperse (mark .comma)

/-- The parts by which a loop declares its counter. -/
def counter : Option String → List Part
  | none => []
  | some name => [word .var, .lexeme (.identifier name), mark .assign]

/-- The tokens are those of the parts, one part after the other. -/
inductive Spelled : List Part → List Token → Prop where
  | nil : Spelled [] []
  | token {t : Token} {parts : List Part} {ts : List Token} (h : Spelled parts ts) :
      Spelled (.token t :: parts) (t :: ts)
  | lexeme {l : Lexeme} {p : Position} {parts : List Part} {ts : List Token}
      (h : Spelled parts ts) : Spelled (.lexeme l :: parts) (⟨l, p⟩ :: ts)
  | node {n : Node} {parts : List Part} {us ts : List Token} (hn : n.ReadFrom us)
      (h : Spelled parts ts) : Spelled (.node n :: parts) (us ++ ts)

end Part

/-- The parts of a node from left to right. -/
inductive Node.Composed : Node → List Part → Prop where
  | literal {p : Position} {value : Literal} {l : Lexeme}
      (h : Literal.read? l = some (.ok value)) :
      Composed (.expression (.literal p value)) [.lexeme l]
  | read {target : LValue} : Composed (.expression target.read) [.node (.lvalue target)]
  | assign {p : Position} {target : LValue} {value : Expr} :
      Composed (.expression (target.assign p value))
        [.node (.lvalue target), .mark .assign, .node (.expression value)]
  | unary {p : Position} {op : UnaryOp} {operand : Expr} :
      Composed (.expression (.unary p op operand)) [.mark op.symbol, .node (.expression operand)]
  | binary {p : Position} {op : BinaryOp} {q : Position} {left right : Expr} :
      Composed (.expression (.binary p op q left right))
        [.node (.expression left), .token ⟨.symbol op.symbol, q⟩, .node (.expression right)]
  | conditional {p : Position} {condition thenBranch elseBranch : Expr} :
      Composed (.expression (.conditional p condition thenBranch elseBranch))
        [.node (.expression condition), .mark .question, .node (.expression thenBranch),
          .mark .colon, .node (.expression elseBranch)]
  | list {p : Position} {elements : List Expr} :
      Composed (.expression (.list p elements))
        (.mark .openBracket ::
          (Part.separated (elements.map (.node <| .expression ·)) ++ [.mark .closeBracket]))
  | call {p : Position} {name : String} {arguments : List Expr} :
      Composed (.expression (.call p name arguments))
        (.lexeme (.identifier name) :: .mark .openParen ::
          (Part.separated (arguments.map (.node <| .expression ·)) ++ [.mark .closeParen]))
  | named {p : Position} {name : String} {l : Lexeme} (h : l.lvalueName? = some name) :
      Composed (.lvalue (.var p name)) [.lexeme l]
  | element {p : Position} {name : String} {index : Expr} {l : Lexeme}
      (h : l.lvalueName? = some name) :
      Composed (.lvalue (.element p name index))
        [.lexeme l, .mark .openBracket, .node (.expression index), .mark .closeBracket]
  | declaration {p : Position} {name : String} :
      Composed (.statement (.declare p name none))
        [.word .var, .lexeme (.identifier name), .mark .semicolon]
  | initialization {p : Position} {name : String} {value : Expr} :
      Composed (.statement (.declare p name (some value)))
        [.word .var, .lexeme (.identifier name), .mark .assign, .node (.expression value),
          .mark .semicolon]
  | evaluate {p : Position} {value : Expr} :
      Composed (.statement (.evaluate p value)) [.node (.expression value), .mark .semicolon]
  | forLoop {p : Position} {counter : Option String} {start condition step : Expr}
      {body : Statement} :
      Composed (.statement (.forLoop p counter start condition step body))
        (.word .forWord :: .mark .openParen :: (Part.counter counter ++
          [.node (.expression start), .mark .semicolon, .node (.expression condition),
            .mark .semicolon, .node (.expression step), .mark .closeParen,
            .node (.statement body)]))
  | forEach {p : Position} {item : String} {collection : Expr} {body : Statement}
      {var : List Part} (h : var = [] ∨ var = [.word .var]) :
      Composed (.statement (.forEach p item collection body))
        (.word .foreachWord :: .mark .openParen :: (var ++
          [.lexeme (.identifier item), .word .inWord, .node (.expression collection),
            .mark .closeParen, .node (.statement body)]))
  | ifOnly {p : Position} {condition : Expr} {thenBranch : Statement} :
      Composed (.statement (.ifElse p condition thenBranch none))
        [.word .ifWord, .mark .openParen, .node (.expression condition), .mark .closeParen,
          .node (.statement thenBranch)]
  | ifElse {p : Position} {condition : Expr} {thenBranch elseBranch : Statement} :
      Composed (.statement (.ifElse p condition thenBranch (some elseBranch)))
        [.word .ifWord, .mark .openParen, .node (.expression condition), .mark .closeParen,
          .node (.statement thenBranch), .word .elseWord, .node (.statement elseBranch)]
  | whileLoop {p : Position} {condition : Expr} {body : Statement} :
      Composed (.statement (.whileLoop p condition body))
        [.word .whileWord, .mark .openParen, .node (.expression condition), .mark .closeParen,
          .node (.statement body)]
  | block {p : Position} {statements : List Statement} :
      Composed (.statement (.block p statements))
        (.mark .openBrace :: (statements.map (.node <| .statement ·) ++ [.mark .closeBrace]))
  | returnNothing {p : Position} :
      Composed (.statement (.returns p none)) [.word .returnWord, .mark .semicolon]
  | returnValue {p : Position} {value : Expr} :
      Composed (.statement (.returns p (some value)))
        [.word .returnWord, .node (.expression value), .mark .semicolon]
  | breaks {p : Position} :
      Composed (.statement (.breaks p)) [.word .breakWord, .mark .semicolon]
  | continues {p : Position} :
      Composed (.statement (.continues p)) [.word .continueWord, .mark .semicolon]
  | function {p : Position} {name : String} {params : List String} {variadic : Bool}
      {bodyPosition : Position} {body : List Statement} :
      Composed (.function ⟨p, ⟨name, params, variadic⟩, bodyPosition, body⟩)
        (.word .func :: .lexeme (.identifier name) :: .mark .openParen ::
          (Part.separated (params.map (.lexeme <| .identifier ·) ++
              if variadic then [.mark .ellipsis] else []) ++
            [.mark .closeParen, .node (.statement (.block bodyPosition body))]))

/-- The second run of tokens is the first one with parentheses around it, perhaps none. -/
inductive InParentheses : List Token → List Token → Prop where
  | bare {ts : List Token} : InParentheses ts ts
  | around {ts us : List Token} {p q : Position} (h : InParentheses ts us) :
      InParentheses ts (⟨.symbol .openParen, p⟩ :: (us ++ [⟨.symbol .closeParen, q⟩]))

/-- Within the parentheses around it, the node consists of its parts. -/
def Node.Consists (n : Node) (ts : List Token) : Prop :=
  ∃ us parts, InParentheses us ts ∧ n.Composed parts ∧ Part.Spelled parts us

/-! ## Spans are what the grammar derives -/

namespace Parser

variable {α : Type} {p : Nat → Parser α} {ts rest : List Token} {a : α}

/-- Reading succeeds if and only if the parser is done with the fuel for its tokens. -/
theorem parse_eq_iff : parse p ts = (.ok a, rest) ↔ p (fuel ts) ts = (.done a, rest) := by
  unfold parse
  rcases hrun : p (fuel ts) ts with ⟨b | e | _, rest'⟩ <;> simp [Outcome.toExcept]

end Parser

namespace Node

/-- The tokens that a node derives. -/
def Derives : Node → List Token → Prop
  | .expression e => (Phrase.expression e).Derives
  | .lvalue target => (Phrase.lvalue target).Derives
  | .statement s => (Passage.statement s).Derives
  | .function f => f.Derives

variable {n : Node} {ts : List Token}

/-- What is read from tokens is derived from them. -/
theorem derives_of_readFrom (h : n.ReadFrom ts) : n.Derives ts := by
  cases n with
  | expression e =>
      obtain ⟨us, hts, hus⟩ := (Parser.expressionsSound _).expression (Parser.parse_eq_iff.mp h)
      rwa [hts, List.append_nil]
  | lvalue target =>
      obtain ⟨us, hts, hus⟩ := (Parser.expressionsSound _).lvalue (Parser.parse_eq_iff.mp h)
      rwa [hts, List.append_nil]
  | statement s =>
      obtain ⟨us, hts, hus, -⟩ := (Parser.statementsSound _).statement (Parser.parse_eq_iff.mp h)
      rwa [hts, List.append_nil]
  | function f =>
      obtain ⟨us, hts, hus⟩ := Parser.function_done (Parser.parse_eq_iff.mp h)
      rwa [hts, List.append_nil]

/-- What is derived from tokens is read from them. -/
theorem readFrom_of_derives (h : n.Derives ts) : n.ReadFrom ts := by
  have hends : ∀ phrase : Phrase, phrase.EndsBefore [] := fun _ _ _ => rfl
  have hfuel : Parser.fuel ts = 24 * ts.length + 24 := by
    rw [Parser.fuel]
    omega
  cases n with
  | expression e =>
      have hdone := h.parsed (Parser.fuel ts) [] (by omega) (hends _)
      rw [List.append_nil] at hdone
      exact Parser.parse_eq_iff.mpr hdone
  | lvalue target =>
      have hdone := h.parsed (Parser.fuel ts) [] (by omega) (hends _)
      rw [List.append_nil] at hdone
      exact Parser.parse_eq_iff.mpr hdone
  | statement s =>
      have hdone := h.parsed (Parser.fuel ts) [] (by omega) fun _ _ _ => by simp
      rw [List.append_nil] at hdone
      exact Parser.parse_eq_iff.mpr hdone
  | function f =>
      have hdone := Parser.function_of_derives h (n := Parser.fuel ts) (by omega) []
      rw [List.append_nil] at hdone
      exact Parser.parse_eq_iff.mpr hdone

end Node

namespace Phrase

/-- The node that a phrase stands for; the elements of a list are not one node. -/
def node? : Phrase → Option Node
  | .expression e | .conditional e | .binary _ e | .unary e | .primary e | .call e =>
    some (.expression e)
  | .lvalue target => some (.lvalue target)
  | .elements _ | .elements1 _ => none

/-- The levels of an operation are the last ones of all levels. -/
def Standard : Phrase → Prop
  | .binary levels _ => levels <:+ BinaryOp.levels
  | _ => True

variable {phrase : Phrase} {ts : List Token} {e : Expr}

namespace Derives

/-- An operation of any level is an expression. -/
theorem ofBinaryLevels {levels : List (List BinaryOp)} (h : (binary levels e).Derives ts)
    (hlevels : levels <:+ BinaryOp.levels) : (expression e).Derives ts := by
  obtain ⟨looser, hlooser⟩ := hlevels
  have hall : (binary (looser ++ levels) e).Derives ts := by
    clear hlooser
    induction looser with
    | nil => exact h
    | cons ops looser ih => exact .ofTighter ih
  rw [hlooser] at hall
  exact .ofConditional (.ofBinary hall)

/-- An operand is an expression. -/
theorem ofUnaryOperand (h : (unary e).Derives ts) : (expression e).Derives ts :=
  ofBinaryLevels (.ofUnary h) (List.nil_suffix)

/-- A phrase that stands for an expression also is one where any expression may stand. -/
theorem readFrom (h : phrase.Derives ts) (hstandard : phrase.Standard) {n : Node}
    (hn : phrase.node? = some n) : n.ReadFrom ts := by
  apply Node.readFrom_of_derives
  cases phrase with
  | expression e =>
      cases hn
      exact h
  | conditional e =>
      cases hn
      exact .ofConditional h
  | binary levels e =>
      cases hn
      exact h.ofBinaryLevels hstandard
  | unary e =>
      cases hn
      exact h.ofUnaryOperand
  | primary e =>
      cases hn
      exact ofUnaryOperand (.ofPrimary h)
  | call e =>
      cases hn
      exact ofUnaryOperand (.ofPrimary (.ofCall h))
  | lvalue target =>
      cases hn
      exact h
  | elements es => cases hn
  | elements1 es => cases hn

end Derives

end Phrase

/-! ## The parts of a span -/

namespace Part

variable {parts parts' : List Part} {ts ts' : List Token} {n : Node}

/-- Commas are no nodes. -/
theorem filterMap_separated (parts : List Part) :
    (separated parts).filterMap node? = parts.filterMap node? := by
  unfold separated
  induction parts with
  | nil => rfl
  | cons part parts ih =>
      cases parts with
      | nil => rfl
      | cons next parts =>
          rw [List.intersperse_cons_cons, List.filterMap_cons, List.filterMap_cons, ih,
            List.filterMap_cons (l := next :: parts)]
          rfl

namespace Spelled

/-- Parts in a row are spelled by their tokens in a row. -/
theorem append (h : Spelled parts ts) (h' : Spelled parts' ts') :
    Spelled (parts ++ parts') (ts ++ ts') := by
  induction h with
  | nil => exact h'
  | token _ ih => exact .token ih
  | lexeme _ ih => exact .lexeme ih
  | node hn _ ih =>
      rw [List.append_assoc]
      exact .node hn ih

/-- A node is spelled by the tokens that it is read from. -/
theorem last {us : List Token} (hn : n.ReadFrom us) : Spelled [.node n] us := by
  have h := Spelled.node hn .nil
  rwa [List.append_nil] at h

/-- Each node among the parts is read from some of the tokens, which stand together. -/
theorem exists_readFrom (h : Spelled parts ts) (hn : .node n ∈ parts) :
    ∃ us, us <:+: ts ∧ n.ReadFrom us := by
  induction h with
  | nil => cases hn
  | token _ ih | lexeme _ ih =>
      obtain ⟨us, hus, hread⟩ := ih (by simpa using hn)
      exact ⟨us, List.infix_cons hus, hread⟩
  | @node m _ vs ts hm _ ih =>
      rcases List.mem_cons.mp hn with heq | hmore
      · cases heq
        exact ⟨vs, (List.prefix_append _ _).isInfix, hm⟩
      · obtain ⟨us, hus, hread⟩ := ih hmore
        exact ⟨us, hus.trans (List.suffix_append _ _).isInfix, hread⟩

end Spelled

end Part

/-- What stands in parentheses stands among the tokens with them. -/
theorem InParentheses.isInfix {us ts : List Token} (h : InParentheses us ts) : us <:+: ts := by
  induction h with
  | bare => exact List.infix_rfl
  | around _ ih => exact List.infix_cons (ih.trans (List.prefix_append _ _).isInfix)

/-- The parts of a node have all nodes below it, and no others. -/
theorem Node.Composed.children_eq {n : Node} {parts : List Part} (h : n.Composed parts) :
    parts.filterMap Part.node? = n.children := by
  cases h with
  | @read target => cases target <;> rfl
  | @assign _ target _ => cases target <;> rfl
  | list | call | block =>
      simp [Part.filterMap_separated, Node.children, List.filterMap_cons, List.filterMap_map,
        Function.comp_def, Part.node?]
  | @function _ _ _ variadic _ _ =>
      cases variadic <;>
        simp [Part.filterMap_separated, Node.children, List.filterMap_cons, List.filterMap_map,
          Function.comp_def, Part.node?]
  | @forLoop _ counter _ _ _ _ => cases counter <;> rfl
  | forEach hvar => rcases hvar with rfl | rfl <;> rfl
  | _ => rfl

/-- A node without parentheses around it consists of its parts. -/
theorem Node.Consists.of_spelled {n : Node} {parts : List Part} {ts : List Token}
    (hcomposed : n.Composed parts) (hspelled : Part.Spelled parts ts) : n.Consists ts :=
  ⟨ts, parts, .bare, hcomposed, hspelled⟩

namespace Phrase.Derives

variable {phrase : Phrase} {ts : List Token}

/-- Elements are spelled one by one, with commas between them. -/
theorem spelled_elements (h : phrase.Derives ts) {es : List Expr}
    (hes : phrase = .elements es ∨ phrase = .elements1 es) :
    Part.Spelled (Part.separated (es.map (.node <| .expression ·))) ts := by
  induction h generalizing es with
  | noElements =>
      rcases hes with heq | heq <;> cases heq
      exact .nil
  | ofElements1 _ ih =>
      rcases hes with heq | heq <;> cases heq
      exact ih (.inr rfl)
  | lastElement hlast _ =>
      rcases hes with heq | heq <;> cases heq
      exact .last (hlast.readFrom trivial rfl)
  | @moreElements e es' _ _ _ hfirst hmore _ ih =>
      rcases hes with heq | heq <;> cases heq
      obtain ⟨next, others, rfl⟩ : ∃ next others, es' = next :: others := by
        cases hmore <;> exact ⟨_, _, rfl⟩
      exact .node (hfirst.readFrom trivial rfl) (.lexeme (ih (.inr rfl)))
  | _ => rcases hes with heq | heq <;> cases heq

/-- An expression or an lvalue consists of its parts.  The rules that only pass from one level to
the next leave the span as it is. -/
theorem consists (h : phrase.Derives ts) (hstandard : phrase.Standard) {n : Node}
    (hn : phrase.node? = some n) : n.Consists ts := by
  induction h generalizing n with
  | ofConditional _ ih | ofUnary _ ih | ofPrimary _ ih | ofCall _ ih => exact ih trivial hn
  | ofBinary _ ih => exact ih List.suffix_rfl hn
  | ofTighter _ ih => exact ih ((List.suffix_cons _ _).trans hstandard) hn
  | parentheses _ ih =>
      obtain ⟨us, parts, hin, hcomposed, hspelled⟩ := ih trivial hn
      exact ⟨us, parts, .around hin, hcomposed, hspelled⟩
  | assignment htarget hvalue _ _ =>
      cases hn
      refine .of_spelled .assign (.node (htarget.readFrom trivial rfl) (.lexeme ?_))
      exact .last (hvalue.readFrom trivial rfl)
  | choice hcondition hthen helse _ _ _ =>
      cases hn
      refine .of_spelled .conditional ?_
      refine .node (hcondition.readFrom List.suffix_rfl rfl) (.lexeme ?_)
      refine .node (hthen.readFrom trivial rfl) (.lexeme ?_)
      exact .last (helse.readFrom trivial rfl)
  | operation _ hleft hright _ _ =>
      cases hn
      refine .of_spelled .binary (.node (hleft.readFrom hstandard rfl) (.token ?_))
      exact .last (hright.readFrom ((List.suffix_cons _ _).trans hstandard) rfl)
  | operator hoperand _ =>
      cases hn
      exact .of_spelled .unary (.lexeme (.last (hoperand.readFrom trivial rfl)))
  | ofLValue htarget _ =>
      cases hn
      exact .of_spelled .read (.last (htarget.readFrom trivial rfl))
  | literal hvalue =>
      cases hn
      exact .of_spelled (.literal hvalue) (.lexeme .nil)
  | list helements _ =>
      cases hn
      have hspelled := helements.spelled_elements (.inl rfl)
      exact .of_spelled .list (.lexeme (hspelled.append (.lexeme .nil)))
  | call helements _ =>
      cases hn
      have hspelled := helements.spelled_elements (.inl rfl)
      exact .of_spelled .call (.lexeme (.lexeme (hspelled.append (.lexeme .nil))))
  | named hname =>
      cases hn
      exact .of_spelled (.named hname) (.lexeme .nil)
  | element hname hindex _ =>
      cases hn
      refine .of_spelled (.element hname) (.lexeme (.lexeme ?_))
      exact .node (hindex.readFrom trivial rfl) (.lexeme .nil)
  | noElements | ofElements1 _ _ | lastElement _ _ | moreElements _ _ _ _ => cases hn

end Phrase.Derives

namespace Passage.Derives

variable {ts : List Token}

/-- A statement that is derived is read. -/
theorem readFrom {s : Statement} (h : (Passage.statement s).Derives ts) :
    (Node.statement s).ReadFrom ts :=
  Node.readFrom_of_derives h

/-- Statements are spelled one by one. -/
theorem spelled_statements {passage : Passage} (h : passage.Derives ts) {ss : List Statement}
    (hss : passage = .statements ss) :
    Part.Spelled (ss.map (.node <| .statement ·)) ts := by
  induction h generalizing ss with
  | noStatements =>
      cases hss
      exact .nil
  | moreStatements hfirst _ _ ih =>
      cases hss
      exact .node hfirst.readFrom (ih rfl)
  | _ => cases hss

/-- A statement consists of its parts, by cases on its derivation. -/
theorem consists {s : Statement} (h : (Passage.statement s).Derives ts) :
    (Node.statement s).Consists ts := by
  cases h with
  | declaration => exact .of_spelled .declaration (.lexeme (.lexeme (.lexeme .nil)))
  | initialization hvalue =>
      refine .of_spelled .initialization (.lexeme (.lexeme (.lexeme ?_)))
      exact .node (hvalue.readFrom trivial rfl) (.lexeme .nil)
  | @assignment target value us vs q r htarget hvalue =>
      have hassign := (Phrase.Derives.assignment (q := q) htarget hvalue).readFrom trivial rfl
      have hspelled := Part.Spelled.node hassign (.lexeme (l := .symbol .semicolon) (p := r) .nil)
      rw [List.append_assoc, List.cons_append] at hspelled
      exact .of_spelled .evaluate hspelled
  | call hcall => exact .of_spelled .evaluate (.node (hcall.readFrom trivial rfl) (.lexeme .nil))
  | @forLoop counter _ _ _ _ cs _ _ _ _ _ _ _ _ _ hcounter hstart hcondition hstep hbody =>
      have hdeclared : Part.Spelled (Part.counter counter) cs := by
        cases hcounter with
        | absent => exact .nil
        | declared => exact .lexeme (.lexeme (.lexeme .nil))
      refine .of_spelled .forLoop (.lexeme (.lexeme (hdeclared.append ?_)))
      refine .node (hstart.readFrom trivial rfl) (.lexeme ?_)
      refine .node (hcondition.readFrom trivial rfl) (.lexeme ?_)
      exact .node (hstep.readFrom trivial rfl) (.lexeme (.last hbody.readFrom))
  | forEach hvar hcollection hbody =>
      have hcollection := hcollection.readFrom trivial rfl
      cases hvar with
      | absent =>
          refine .of_spelled (.forEach (.inl rfl)) (.lexeme (.lexeme (.lexeme (.lexeme ?_))))
          exact .node hcollection (.lexeme (.last hbody.readFrom))
      | written =>
          refine .of_spelled (.forEach (.inr rfl)) (.lexeme (.lexeme (.lexeme (.lexeme ?_))))
          exact .lexeme (.node hcollection (.lexeme (.last hbody.readFrom)))
  | ifOnly hcondition hthen =>
      refine .of_spelled .ifOnly (.lexeme (.lexeme ?_))
      exact .node (hcondition.readFrom trivial rfl) (.lexeme (.last hthen.readFrom))
  | ifElse hcondition hthen _ helse =>
      refine .of_spelled .ifElse (.lexeme (.lexeme ?_))
      refine .node (hcondition.readFrom trivial rfl) (.lexeme ?_)
      exact .node hthen.readFrom (.lexeme (.last helse.readFrom))
  | whileLoop hcondition hbody =>
      refine .of_spelled .whileLoop (.lexeme (.lexeme ?_))
      exact .node (hcondition.readFrom trivial rfl) (.lexeme (.last hbody.readFrom))
  | block hstatements =>
      have hspelled := hstatements.spelled_statements rfl
      exact .of_spelled .block (.lexeme (hspelled.append (.lexeme .nil)))
  | returnNothing => exact .of_spelled .returnNothing (.lexeme (.lexeme .nil))
  | returnValue hvalue =>
      refine .of_spelled .returnValue (.lexeme ?_)
      exact .node (hvalue.readFrom trivial rfl) (.lexeme .nil)
  | breaks => exact .of_spelled .breaks (.lexeme (.lexeme .nil))
  | continues => exact .of_spelled .continues (.lexeme (.lexeme .nil))

end Passage.Derives

/-- Parameters are spelled one by one with commas between them, and `...` at the end. -/
theorem Parameters1.spelled {names : List String} {variadic : Bool} {ts : List Token}
    (h : Parameters1 names variadic ts) :
    Part.Spelled (Part.separated (names.map (.lexeme <| .identifier ·) ++
      if variadic then [.mark .ellipsis] else [])) ts := by
  induction h with
  | ellipsis | last => exact .lexeme .nil
  | more hmore ih =>
      -- a comma follows because there is a further parameter
      cases hmore <;> exact .lexeme (.lexeme ih)

/-- A function consists of its head, its parameters and its block. -/
theorem FunctionDef.Derives.consists {f : FunctionDef} {ts : List Token} (h : f.Derives ts) :
    (Node.function f).Consists ts := by
  cases h with
  | @intro _ params variadic _ _ us _ _ _ _ _ hparams hbody =>
      have hspelled : Part.Spelled (Part.separated (params.map (.lexeme <| .identifier ·) ++
          if variadic then [.mark .ellipsis] else [])) us := by
        cases hparams with
        | absent => exact .nil
        | given hgiven => exact hgiven.spelled
      refine .of_spelled .function (.lexeme (.lexeme (.lexeme (hspelled.append ?_))))
      exact .lexeme (.last hbody.readFrom)

namespace Node

variable {n c : Node} {ts : List Token}

/-- **A span consists of the parts of its node.** -/
theorem consists_of_readFrom (h : n.ReadFrom ts) : n.Consists ts := by
  have hderives := derives_of_readFrom h
  cases n with
  | expression e => exact Phrase.Derives.consists hderives trivial rfl
  | lvalue target => exact Phrase.Derives.consists hderives trivial rfl
  | statement s => exact Passage.Derives.consists hderives
  | function f => exact FunctionDef.Derives.consists hderives

/-- Within the span of a node there are spans of the nodes below it. -/
theorem exists_readFrom_of_child (h : n.ReadFrom ts) (hc : c ∈ n.children) :
    ∃ us, us <:+: ts ∧ c.ReadFrom us := by
  obtain ⟨vs, parts, hin, hcomposed, hspelled⟩ := consists_of_readFrom h
  rw [← hcomposed.children_eq, List.mem_filterMap] at hc
  obtain ⟨part, hpart, hnode⟩ := hc
  cases part with
  | token _ | lexeme _ => cases hnode
  | node _ =>
      cases hnode
      obtain ⟨us, hus, hread⟩ := hspelled.exists_readFrom hpart
      exact ⟨us, hus.trans hin.isInfix, hread⟩

/-- Between the spans of its operands a binary operation has its operator. -/
theorem operator_of_readFrom {p : Position} {op : BinaryOp} {q : Position} {left right : Expr}
    (h : (expression (.binary p op q left right)).ReadFrom ts) :
    ∃ ls rs, InParentheses (ls ++ ⟨.symbol op.symbol, q⟩ :: rs) ts ∧
      (expression left).ReadFrom ls ∧ (expression right).ReadFrom rs := by
  obtain ⟨us, parts, hin, hcomposed, hspelled⟩ := consists_of_readFrom h
  have hparts : parts =
      [.node (expression left), .token ⟨.symbol op.symbol, q⟩, .node (expression right)] := by
    generalize hn : expression (.binary p op q left right) = n at hcomposed
    cases hcomposed with
    | binary =>
        cases hn
        rfl
    | @read target => cases target <;> cases hn
    | @assign _ target _ => cases target <;> cases hn
    | _ => cases hn
  subst hparts
  obtain _ | _ | _ | ⟨hleft, _ | ⟨_ | _ | _ | ⟨hright, _ | _⟩⟩⟩ := hspelled
  rw [List.append_nil] at hin
  exact ⟨_, _, hin, hleft, hright⟩

end Node

end Scriptlet
