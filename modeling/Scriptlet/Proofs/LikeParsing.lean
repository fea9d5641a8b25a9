import Scriptlet.Proofs.Likeness
import Scriptlet.Proofs.Lockstep
import Scriptlet.Script.Parser

/-!
# Reading scripts with another layout

The same words can stand at other places.  The parser is run beside itself on two lists
of tokens that say the same, one by one, and whose places correspond: it gives trees that
are alike or errors with the same cause at corresponding places, and leaves lists of that
kind (`Parser.alike_items`).

A parser looks ahead on a copy of the tokens and may drop what it found, so lockstep has to
include the tokens that are left in every case, an error included.
-/

namespace Scriptlet

/-- Tokens that say the same, at corresponding places. -/
structure Token.Like (place : Position → Position → Prop) (token token' : Token) : Prop where
  lexeme_eq : token.lexeme = token'.lexeme
  position : place token.position token'.position

/-- Errors with the same cause, at corresponding places or both without one. -/
structure ParseError.Like (place : Position → Position → Prop) (e e' : ParseError) : Prop where
  cause_eq : e.cause = e'.cause
  position : Option.Rel place e.position e'.position

/-- The same names at corresponding places. -/
abbrev Likeness.ofPlace (place : Position → Position → Prop) : Likeness :=
  ⟨Eq, place⟩

/-- Two parsers that go in lockstep on tokens that say the same, to values that `R`
relates. -/
def Parser.Alike {α : Type} (place : Position → Position → Prop) (R : α → α → Prop)
    (x y : Parser α) : Prop :=
  Run.Lockstep (List.Forall₂ (Token.Like place)) (ParseError.Like place) R x y

namespace Parser

variable {α β : Type} {place : Position → Position → Prop} {R : α → α → Prop} {Q : β → β → Prop}
  {ts ts' : List Token}

/-- Related values are given in lockstep. -/
theorem alike_pure {a b : α} (h : R a b) : Alike place R (pure a : Parser α) (pure b) :=
  Run.Lockstep.pure h

theorem alike_starve : Alike place R (Run.starve : Parser α) Run.starve :=
  Run.Lockstep.starve

/-- Both parsers fail with one cause at corresponding places. -/
theorem alike_fail (cause : ParseError.Cause) {p q : Option Position}
    (h : Option.Rel place p q) :
    Alike place R (Run.fail ⟨cause, p⟩ : Parser α) (Run.fail ⟨cause, q⟩) :=
  Run.Lockstep.fail ⟨rfl, h⟩

/-- The rule for sequences: related values lead to second parts that are alike. -/
theorem Alike.bind {x y : Parser α} {f g : α → Parser β} (hx : Alike place R x y)
    (hf : ∀ a b, R a b → Alike place Q (f a) (g b)) : Alike place Q (x >>= f) (y >>= g) :=
  Run.Lockstep.bind hx hf

/-- A sequence whose first part gives the same on both sides. -/
theorem Alike.bind_same {x y : Parser α} {f g : α → Parser β} (hx : Alike place Eq x y)
    (hf : ∀ a, Alike place Q (f a) (g a)) : Alike place Q (x >>= f) (y >>= g) := by
  refine hx.bind ?_
  rintro a _ rfl
  exact hf a

/-! ## Single tokens -/

/-- Two parsers go in lockstep if they do at the end of the tokens and before two tokens that
say the same. -/
theorem alike_of_cases {x y : Parser α}
    (hend : Run.Ends (List.Forall₂ (Token.Like place)) (ParseError.Like place) R (x []) (y []))
    (htoken : ∀ lexeme {p q rest rest'}, place p q → List.Forall₂ (Token.Like place) rest rest' →
      Run.Ends (List.Forall₂ (Token.Like place)) (ParseError.Like place) R
        (x (⟨lexeme, p⟩ :: rest)) (y (⟨lexeme, q⟩ :: rest'))) :
    Alike place R x y := by
  intro ts ts' h
  cases h with
  | nil => exact hend
  | @cons token token' _ _ hlike hrest =>
      obtain ⟨lexeme, p⟩ := token
      obtain ⟨lexeme', q⟩ := token'
      obtain rfl : lexeme = lexeme' := hlike.lexeme_eq
      exact htoken lexeme hlike.position hrest

/-- Like tokens have like first ones. -/
theorem rel_head? (h : List.Forall₂ (Token.Like place) ts ts') :
    Option.Rel (Token.Like place) ts.head? ts'.head? := by
  cases h with
  | nil => exact .none
  | cons htoken _ => exact .some htoken

/-- Like tokens are alike behind the first. -/
theorem forall₂_tail (h : List.Forall₂ (Token.Like place) ts ts') :
    List.Forall₂ (Token.Like place) ts.tail ts'.tail := by
  cases h with
  | nil => exact .nil
  | cons _ hrest => exact hrest

/-- A mark comes next in both lists of tokens or in neither. -/
theorem nextIs_eq (mark : Symbol) (h : List.Forall₂ (Token.Like place) ts ts') :
    nextIs mark ts = nextIs mark ts' := by
  cases h with
  | nil => rfl
  | cons htoken _ => simp only [nextIs, htoken.lexeme_eq]

/-- The next tokens are alike. -/
theorem alike_peek : Alike place (Option.Rel (Token.Like place)) peek peek :=
  fun _ _ h => .done (rel_head? h) h

/-- The places of the next tokens correspond. -/
theorem alike_nextPosition : Alike place (Option.Rel place) nextPosition nextPosition := by
  intro ts ts' h
  refine .done ?_ h
  cases h with
  | nil => exact .none
  | cons htoken _ => exact .some htoken.position

/-- A token is passed in both lists. -/
theorem alike_advance : Alike place Eq advance advance :=
  fun _ _ h => .done rfl (forall₂_tail h)

/-- A mark is found in both lists or in neither. -/
theorem alike_eat (mark : Symbol) : Alike place Eq (eat mark) (eat mark) := by
  intro ts ts' h
  simp only [eat, nextIs_eq mark h]
  split
  · exact .done rfl (forall₂_tail h)
  · exact .done rfl h

/-- A keyword is found in both lists, at corresponding places, or in neither. -/
theorem alike_eatKeyword (word : Keyword) :
    Alike place (Option.Rel place) (eatKeyword word) (eatKeyword word) := by
  refine alike_of_cases (.done .none .nil) fun lexeme {p q rest rest'} hp hrest => ?_
  unfold eatKeyword
  by_cases hword : (lexeme == .keyword word) = true
  · simp only [if_pos hword]
    exact .done (.some hp) hrest
  · simp only [if_neg hword]
    exact .done .none (.cons ⟨rfl, hp⟩ hrest)

/-- Failing at the next token is failing at corresponding places. -/
theorem alike_failAtNext (cause : ParseError.Cause) :
    Alike place R (failAtNext cause : Parser α) (failAtNext cause) :=
  alike_of_cases (.failed ⟨rfl, .none⟩ .nil) fun _ _ _ _ _ hp hrest =>
    .failed ⟨rfl, .some hp⟩ (.cons ⟨rfl, hp⟩ hrest)

/-- Failing at the next token, if there is one. -/
theorem alike_failAtPosition (cause : ParseError.Cause) :
    Alike place R (nextPosition >>= fun next => (Run.fail ⟨cause, next⟩ : Parser α))
      (nextPosition >>= fun next => Run.fail ⟨cause, next⟩) :=
  alike_nextPosition.bind fun _ _ hnext => alike_fail cause hnext

/-- A mark that is missing is missing in both lists, at corresponding places. -/
theorem alike_expect (mark : Symbol) : Alike place Eq (expect mark) (expect mark) := by
  refine (alike_eat mark).bind_same fun found => ?_
  cases found with
  | true => exact alike_pure rfl
  | false => exact alike_failAtNext _

theorem alike_expectKeyword (word : Keyword) :
    Alike place Eq (expectKeyword word) (expectKeyword word) := by
  refine (alike_eatKeyword word).bind fun found found' hfound => ?_
  cases hfound with
  | some _ => exact alike_pure rfl
  | none => exact alike_failAtNext _

/-- The name that is read is the same in both lists. -/
theorem alike_identifier : Alike place Eq identifier identifier := by
  refine alike_of_cases (.failed ⟨rfl, .none⟩ .nil) fun lexeme {p q rest rest'} hp hrest => ?_
  cases lexeme with
  | identifier name => exact .done rfl hrest
  | _ => exact .failed ⟨rfl, .some hp⟩ (.cons ⟨rfl, hp⟩ hrest)

/-- A value and a place: the same value, at corresponding places. -/
def Placed (place : Position → Position → Prop) (x y : α × Position) : Prop :=
  x.1 = y.1 ∧ place x.2 y.2

/-- The operator that is found is the same, at corresponding places. -/
theorem alike_operatorAmong (ops : List BinaryOp) :
    Alike place (Option.Rel (Placed place)) (operatorAmong ops) (operatorAmong ops) := by
  refine alike_of_cases (.done .none .nil) fun lexeme {p q rest rest'} hp hrest => ?_
  cases lexeme with
  | symbol mark =>
      simp only [operatorAmong]
      cases BinaryOp.ofSymbol? mark with
      | none => exact .done .none (.cons ⟨rfl, hp⟩ hrest)
      | some op =>
          dsimp only
          split
          · exact .done (.some ⟨rfl, hp⟩) hrest
          · exact .done .none (.cons ⟨rfl, hp⟩ hrest)
  | _ => exact .done .none (.cons ⟨rfl, hp⟩ hrest)

/-- The sign before an operand is the same, at corresponding places. -/
theorem alike_unaryOperator :
    Alike place (Option.Rel (Placed place)) unaryOperator unaryOperator := by
  refine alike_of_cases (.done .none .nil) fun lexeme {p q rest rest'} hp hrest => ?_
  cases lexeme with
  | symbol mark =>
      simp only [unaryOperator]
      cases UnaryOp.ofSymbol? mark with
      | none => exact .done .none (.cons ⟨rfl, hp⟩ hrest)
      | some op => exact .done (.some ⟨rfl, hp⟩) hrest
  | _ => exact .done .none (.cons ⟨rfl, hp⟩ hrest)

/-- A place and a name: the same name, at corresponding places. -/
def Named (place : Position → Position → Prop) (x y : Position × String) : Prop :=
  place x.1 y.1 ∧ x.2 = y.2

/-- The beginning of a call is recognised by its first two tokens. -/
theorem alike_callHead : Alike place (Option.Rel (Named place)) callHead callHead := by
  refine alike_of_cases (.done .none .nil) fun lexeme {p q rest rest'} hp hrest => ?_
  cases lexeme with
  | identifier name =>
      cases hrest with
      | nil => exact .done .none (.cons ⟨rfl, hp⟩ .nil)
      | @cons token token' _ _ hlike hrest =>
          obtain ⟨lexeme, _⟩ := token
          obtain ⟨lexeme', _⟩ := token'
          obtain rfl : lexeme = lexeme' := hlike.lexeme_eq
          cases lexeme with
          | symbol mark =>
              cases mark with
              | openParen => exact .done (.some ⟨hp, rfl⟩) hrest
              | _ => exact .done .none (.cons ⟨rfl, hp⟩ (.cons hlike hrest))
          | _ => exact .done .none (.cons ⟨rfl, hp⟩ (.cons hlike hrest))
  | _ => exact .done .none (.cons ⟨rfl, hp⟩ hrest)

/-- The name of a place to assign to is the same, at corresponding places. -/
theorem alike_lvalueHead : Alike place (Option.Rel (Named place)) lvalueHead lvalueHead := by
  refine alike_of_cases (.done .none .nil) fun lexeme {p q rest rest'} hp hrest => ?_
  cases lexeme with
  | identifier name => exact .done (.some ⟨hp, rfl⟩) hrest
  | symbol mark =>
      cases mark with
      | ellipsis => exact .done (.some ⟨hp, rfl⟩) hrest
      | _ => exact .done .none (.cons ⟨rfl, hp⟩ hrest)
  | _ => exact .done .none (.cons ⟨rfl, hp⟩ hrest)

/-- A literal has the same value, or is refused for the same reason, at corresponding
places. -/
theorem alike_literal (lexeme : Lexeme) {p q : Position} (hp : place p q) :
    Alike place (Option.Rel (Expr.Alike (.ofPlace place))) (literal lexeme p)
      (literal lexeme q) := by
  unfold literal
  split
  · exact alike_pure .none
  · exact alike_advance.bind_same fun _ => alike_pure (.some (.literal hp _))
  · exact alike_fail _ (.some hp)

/-! ## Combinators -/

/-- What is required is found in both lists or missing in both. -/
theorem alike_required (cause : ParseError.Cause) {x y : Parser (Option α)}
    (h : Alike place (Option.Rel R) x y) :
    Alike place R (required cause x) (required cause y) := by
  intro ts ts' hts
  cases hts with
  | nil => exact .failed ⟨rfl, .none⟩ .nil
  | @cons token token' _ _ htoken hrest =>
      have hresult : Alike place R (x >>= Run.ofOption ⟨cause, some token.position⟩)
          (y >>= Run.ofOption ⟨cause, some token'.position⟩) :=
        h.bind fun _ _ hab => Run.Lockstep.ofOption ⟨rfl, .some htoken.position⟩ hab
      exact hresult (.cons htoken hrest)

/-- Looking ahead for an assignment finds one on both sides, or leaves both lists alone. -/
theorem alike_assignmentHead {x y : Parser (Option LValue)}
    (h : Alike place (Option.Rel (LValue.Alike (.ofPlace place))) x y) :
    Alike place (Option.Rel (LValue.Alike (.ofPlace place))) (assignmentHead x)
      (assignmentHead y) := by
  intro ts ts' hts
  have hends := h hts
  unfold assignmentHead
  generalize x ts = r, y ts' = r' at hends
  cases hends with
  | failed _ _ => exact .done .none hts
  | outOfFuel hrest => exact .outOfFuel hrest
  | done htarget hrest =>
      cases htarget with
      | none => exact .done .none hts
      | some htarget =>
          simp only [nextIs_eq .assign hrest]
          split
          · exact .done (.some htarget) (forall₂_tail hrest)
          · exact .done .none hts

/-! ## Expressions -/

/-- With `n` units of fuel every parser of expressions goes in lockstep with itself. -/
structure ExpressionsAlike (place : Position → Position → Prop) (n : Nat) : Prop where
  expression : Alike place (Expr.Alike (.ofPlace place)) (expression n) (expression n)
  optionalExpression : Alike place (Option.Rel (Expr.Alike (.ofPlace place)))
    (optionalExpression n) (optionalExpression n)
  conditional : Alike place (Option.Rel (Expr.Alike (.ofPlace place))) (conditional n)
    (conditional n)
  binary : ∀ levels, Alike place (Option.Rel (Expr.Alike (.ofPlace place))) (binary n levels)
    (binary n levels)
  chain : ∀ ops tighter {left left'}, left.Alike (.ofPlace place) left' →
    Alike place (Expr.Alike (.ofPlace place)) (chain n ops tighter left)
      (chain n ops tighter left')
  unary : Alike place (Option.Rel (Expr.Alike (.ofPlace place))) (unary n) (unary n)
  primary : Alike place (Option.Rel (Expr.Alike (.ofPlace place))) (primary n) (primary n)
  lvalue : Alike place (Option.Rel (LValue.Alike (.ofPlace place))) (lvalue n) (lvalue n)
  call : Alike place (Option.Rel (Expr.Alike (.ofPlace place))) (call n) (call n)
  separated : ∀ closing, Alike place (List.Forall₂ (Expr.Alike (.ofPlace place)))
    (separated n closing) (separated n closing)
  separated1 : ∀ closing, Alike place (List.Forall₂ (Expr.Alike (.ofPlace place)))
    (separated1 n closing) (separated1 n closing)

namespace ExpressionsAlike

variable {n : Nat} (ih : ExpressionsAlike place n)

include ih

/-- Optional expressions are alike: an assignment in both lists, or a conditional in
both. -/
theorem optionalExpression_succ :
    Alike place (Option.Rel (Expr.Alike (.ofPlace place))) (Parser.optionalExpression (n + 1))
      (Parser.optionalExpression (n + 1)) := by
  refine (alike_assignmentHead ih.lvalue).bind fun target target' htarget => ?_
  cases htarget with
  | none => exact ih.conditional
  | some htarget =>
      exact ih.expression.bind fun _ _ hvalue =>
        alike_pure (.some (htarget.assign htarget.position hvalue))

/-- Conditionals are alike if their three parts are. -/
theorem conditional_succ :
    Alike place (Option.Rel (Expr.Alike (.ofPlace place))) (Parser.conditional (n + 1))
      (Parser.conditional (n + 1)) := by
  refine (ih.binary BinaryOp.levels).bind fun condition condition' hcondition => ?_
  cases hcondition with
  | none => exact alike_pure .none
  | some hcondition =>
      have hbranch := alike_required .expressionExpected ih.conditional
      refine (alike_eat .question).bind_same fun found => ?_
      cases found with
      | false => exact alike_pure (.some hcondition)
      | true =>
          refine hbranch.bind fun _ _ hthen => ?_
          refine (alike_expect .colon).bind_same fun _ => ?_
          exact hbranch.bind fun _ _ helse =>
            alike_pure (.some (.conditional hcondition.position hcondition hthen helse))

/-- Operations of a level are alike if the tighter ones and the chains are. -/
theorem binary_succ (levels : List (List BinaryOp)) :
    Alike place (Option.Rel (Expr.Alike (.ofPlace place))) (Parser.binary (n + 1) levels)
      (Parser.binary (n + 1) levels) := by
  cases levels with
  | nil => exact ih.unary
  | cons ops tighter =>
      refine (ih.binary tighter).bind fun left left' hleft => ?_
      cases hleft with
      | none => exact alike_pure .none
      | some hleft =>
          exact (ih.chain ops tighter hleft).bind fun _ _ hwhole => alike_pure (.some hwhole)

/-- Chains behind operands that are alike are alike. -/
theorem chain_succ (ops : List BinaryOp) (tighter : List (List BinaryOp)) {left left' : Expr}
    (hleft : left.Alike (.ofPlace place) left') :
    Alike place (Expr.Alike (.ofPlace place)) (Parser.chain (n + 1) ops tighter left)
      (Parser.chain (n + 1) ops tighter left') := by
  refine (alike_operatorAmong ops).bind fun found found' hfound => ?_
  cases hfound with
  | none => exact alike_pure hleft
  | @some x y hop =>
      obtain ⟨op, p⟩ := x
      obtain ⟨op', q⟩ := y
      obtain ⟨rfl, hp⟩ : op = op' ∧ place p q := hop
      refine (ih.binary tighter).bind fun right right' hright => ?_
      cases hright with
      | some hright => exact ih.chain ops tighter (.binary op hleft.position hp hleft hright)
      | none =>
          -- the error stands at the next token, or at the operator if there is none
          refine alike_nextPosition.bind fun next next' hnext => alike_fail _ (.some ?_)
          cases hnext with
          | some hnext => exact hnext
          | none => exact hp

/-- Unary expressions are alike, with the same signs. -/
theorem unary_succ :
    Alike place (Option.Rel (Expr.Alike (.ofPlace place))) (Parser.unary (n + 1))
      (Parser.unary (n + 1)) := by
  refine alike_unaryOperator.bind fun found found' hfound => ?_
  cases hfound with
  | none => exact ih.primary
  | @some x y hop =>
      obtain ⟨op, p⟩ := x
      obtain ⟨op', q⟩ := y
      obtain ⟨rfl, hp⟩ : op = op' ∧ place p q := hop
      refine ih.unary.bind fun operand operand' hoperand => ?_
      cases hoperand with
      | some hoperand => exact alike_pure (.some (.unary op hp hoperand))
      | none => exact alike_failAtPosition _

/-- Primary expressions are alike, since the token in front decides which one it is. -/
theorem primary_succ :
    Alike place (Option.Rel (Expr.Alike (.ofPlace place))) (Parser.primary (n + 1))
      (Parser.primary (n + 1)) := by
  refine ih.call.bind fun called called' hcalled => ?_
  cases hcalled with
  | some hcalled => exact alike_pure (.some hcalled)
  | none =>
  refine ih.lvalue.bind fun target target' htarget => ?_
  cases htarget with
  | some htarget => exact alike_pure (.some htarget.read)
  | none =>
  refine alike_peek.bind fun next next' hnext => ?_
  cases hnext with
  | none => exact alike_pure .none
  | @some token token' hlike =>
      obtain ⟨lexeme, p⟩ := token
      obtain ⟨lexeme', q⟩ := token'
      obtain rfl : lexeme = lexeme' := hlike.lexeme_eq
      have hp : place p q := hlike.position
      have hliteral := alike_literal lexeme hp
      cases lexeme with
      | symbol mark =>
          cases mark with
          | openBracket =>
              refine alike_advance.bind_same fun _ => ?_
              exact (ih.separated .closeBracket).bind fun _ _ helements =>
                alike_pure (.some (.list hp helements))
          | openParen =>
              refine alike_advance.bind_same fun _ => ?_
              refine ih.expression.bind fun _ _ hinner => ?_
              exact (alike_expect .closeParen).bind_same fun _ => alike_pure (.some hinner)
          | _ => exact hliteral
      | _ => exact hliteral

/-- Places to assign to are alike, with an index in both lists or in neither. -/
theorem lvalue_succ :
    Alike place (Option.Rel (LValue.Alike (.ofPlace place))) (Parser.lvalue (n + 1))
      (Parser.lvalue (n + 1)) := by
  refine alike_lvalueHead.bind fun found found' hfound => ?_
  cases hfound with
  | none => exact alike_pure .none
  | @some x y hname =>
      obtain ⟨p, name⟩ := x
      obtain ⟨q, name'⟩ := y
      obtain ⟨hp, rfl⟩ : place p q ∧ name = name' := hname
      refine (alike_eat .openBracket).bind_same fun bracket => ?_
      cases bracket with
      | false => exact alike_pure (.some (.var hp rfl))
      | true =>
          refine ih.expression.bind fun _ _ hindex => ?_
          exact (alike_expect .closeBracket).bind_same fun _ =>
            alike_pure (.some (.element hp rfl hindex))

/-- Calls are alike if their arguments are. -/
theorem call_succ :
    Alike place (Option.Rel (Expr.Alike (.ofPlace place))) (Parser.call (n + 1))
      (Parser.call (n + 1)) := by
  refine alike_callHead.bind fun found found' hfound => ?_
  cases hfound with
  | none => exact alike_pure .none
  | @some x y hname =>
      obtain ⟨p, name⟩ := x
      obtain ⟨q, name'⟩ := y
      obtain ⟨hp, rfl⟩ : place p q ∧ name = name' := hname
      exact (ih.separated .closeParen).bind fun _ _ harguments =>
        alike_pure (.some (.call hp rfl harguments))

/-- Elements up to a closing mark are alike, none in both lists or some in both. -/
theorem separated_succ (closing : Symbol) :
    Alike place (List.Forall₂ (Expr.Alike (.ofPlace place))) (Parser.separated (n + 1) closing)
      (Parser.separated (n + 1) closing) := by
  refine (alike_eat closing).bind_same fun found => ?_
  cases found with
  | true => exact alike_pure .nil
  | false => exact ih.separated1 closing

/-- One element or more are alike, one by one. -/
theorem separated1_succ (closing : Symbol) :
    Alike place (List.Forall₂ (Expr.Alike (.ofPlace place))) (Parser.separated1 (n + 1) closing)
      (Parser.separated1 (n + 1) closing) := by
  refine ih.expression.bind fun _ _ hfirst => ?_
  refine (alike_eat .comma).bind_same fun found => ?_
  cases found with
  | true => exact (ih.separated1 closing).bind fun _ _ hothers => alike_pure (.cons hfirst hothers)
  | false => exact (alike_expect closing).bind_same fun _ => alike_pure (.cons hfirst .nil)

end ExpressionsAlike

/-- **Expressions are read in lockstep.** -/
theorem expressionsAlike (place : Position → Position → Prop) (n : Nat) :
    ExpressionsAlike place n := by
  induction n with
  | zero => constructor <;> intros <;> exact alike_starve
  | succ n ih =>
      exact ⟨alike_required .expressionExpected ih.optionalExpression, ih.optionalExpression_succ,
        ih.conditional_succ, ih.binary_succ, ih.chain_succ, ih.unary_succ, ih.primary_succ,
        ih.lvalue_succ, ih.call_succ, ih.separated_succ, ih.separated1_succ⟩

/-! ## Statements -/

/-- The counter of a loop has the same name in both lists, or there is none. -/
theorem alike_loopCounter : Alike place (Option.Rel Eq) loopCounter loopCounter := by
  refine (alike_eatKeyword .var).bind fun found found' hfound => ?_
  cases hfound with
  | none => exact alike_pure .none
  | some _ =>
      refine alike_identifier.bind_same fun name => ?_
      exact (alike_expect .assign).bind_same fun _ => alike_pure (.some rfl)

/-- How a statement is read that starts with no keyword and no brace. -/
def assignmentOrCall (n : Nat) : Parser (Option Statement) := do
  match ← assignmentHead (lvalue n) with
  | some target =>
    let value ← expression n
    expect .semicolon
    pure (some (.ofExpr (target.assign target.position value)))
  | none =>
    match ← call n with
    | none => pure none
    | some e =>
      expect .semicolon
      pure (some (.ofExpr e))

/-- Statements without a keyword are alike: an assignment or a call in both lists. -/
theorem alike_assignmentOrCall (n : Nat) :
    Alike place (Option.Rel (Statement.Alike (.ofPlace place))) (assignmentOrCall n)
      (assignmentOrCall n) := by
  have hexpressions := expressionsAlike place n
  refine (alike_assignmentHead hexpressions.lvalue).bind fun target target' htarget => ?_
  cases htarget with
  | some htarget =>
      refine hexpressions.expression.bind fun _ _ hvalue => ?_
      exact (alike_expect .semicolon).bind_same fun _ =>
        alike_pure (.some (htarget.assign htarget.position hvalue).ofExpr)
  | none =>
      refine hexpressions.call.bind fun called called' hcalled => ?_
      cases hcalled with
      | none => exact alike_pure .none
      | some hcalled =>
          exact (alike_expect .semicolon).bind_same fun _ =>
            alike_pure (.some hcalled.ofExpr)

/-- With `n` units of fuel every parser of statements goes in lockstep with itself. -/
structure StatementsAlike (place : Position → Position → Prop) (n : Nat) : Prop where
  statement : Alike place (Option.Rel (Statement.Alike (.ofPlace place))) (statement n)
    (statement n)
  keywordStatement : ∀ word {p q}, place p q →
    Alike place (Option.Rel (Statement.Alike (.ofPlace place))) (keywordStatement n word p)
      (keywordStatement n word q)
  requiredStatement : Alike place (Statement.Alike (.ofPlace place)) (requiredStatement n)
    (requiredStatement n)
  block : Alike place (Option.Rel (Statement.Alike (.ofPlace place))) (block n) (block n)
  blockBody : Alike place (List.Forall₂ (Statement.Alike (.ofPlace place))) (blockBody n)
    (blockBody n)

namespace StatementsAlike

variable {n : Nat} (ih : StatementsAlike place n)

include ih

/-- Statements are alike, since the token in front decides which one it is. -/
theorem statement_succ :
    Alike place (Option.Rel (Statement.Alike (.ofPlace place))) (Parser.statement (n + 1))
      (Parser.statement (n + 1)) := by
  refine alike_peek.bind fun next next' hnext => ?_
  cases hnext with
  | none => exact alike_pure .none
  | @some token token' hlike =>
      obtain ⟨lexeme, p⟩ := token
      obtain ⟨lexeme', q⟩ := token'
      obtain rfl : lexeme = lexeme' := hlike.lexeme_eq
      cases lexeme with
      | keyword word => exact ih.keywordStatement word hlike.position
      | symbol mark =>
          cases mark with
          | openBrace => exact ih.block
          | _ => exact alike_assignmentOrCall n
      | _ => exact alike_assignmentOrCall n

/-- Statements with one keyword are alike if their parts are. -/
theorem keywordStatement_succ (word : Keyword) {p q : Position} (hp : place p q) :
    Alike place (Option.Rel (Statement.Alike (.ofPlace place)))
      (Parser.keywordStatement (n + 1) word p) (Parser.keywordStatement (n + 1) word q) := by
  have hexpression := (expressionsAlike place n).expression
  cases word with
  | var =>
      refine alike_advance.bind_same fun _ => alike_identifier.bind_same fun name => ?_
      refine (alike_eat .assign).bind_same fun found => ?_
      cases found with
      | true =>
          refine hexpression.bind fun _ _ hvalue => ?_
          exact (alike_expect .semicolon).bind_same fun _ =>
            alike_pure (.some (.declare hp rfl (.some hvalue)))
      | false =>
          exact (alike_expect .semicolon).bind_same fun _ =>
            alike_pure (.some (.declare hp rfl .none))
  | forWord =>
      refine alike_advance.bind_same fun _ => (alike_expect .openParen).bind_same fun _ => ?_
      refine alike_loopCounter.bind fun _ _ hcounter => ?_
      refine hexpression.bind fun _ _ hstart => (alike_expect .semicolon).bind_same fun _ => ?_
      refine hexpression.bind fun _ _ hcondition => (alike_expect .semicolon).bind_same fun _ => ?_
      refine hexpression.bind fun _ _ hstep => (alike_expect .closeParen).bind_same fun _ => ?_
      exact ih.requiredStatement.bind fun _ _ hbody =>
        alike_pure (.some (.forLoop hp hcounter hstart hcondition hstep hbody))
  | foreachWord =>
      refine alike_advance.bind_same fun _ => (alike_expect .openParen).bind_same fun _ => ?_
      refine (alike_eatKeyword .var).bind fun _ _ _ => alike_identifier.bind_same fun item => ?_
      refine (alike_expectKeyword .inWord).bind_same fun _ => ?_
      refine hexpression.bind fun _ _ hcollection =>
        (alike_expect .closeParen).bind_same fun _ => ?_
      exact ih.requiredStatement.bind fun _ _ hbody =>
        alike_pure (.some (.forEach hp rfl hcollection hbody))
  | ifWord =>
      refine alike_advance.bind_same fun _ => (alike_expect .openParen).bind_same fun _ => ?_
      refine hexpression.bind fun _ _ hcondition => (alike_expect .closeParen).bind_same fun _ => ?_
      refine ih.requiredStatement.bind fun _ _ hthen => ?_
      refine (alike_eatKeyword .elseWord).bind fun found found' hfound => ?_
      cases hfound with
      | none => exact alike_pure (.some (.ifElse hp hcondition hthen .none))
      | some _ =>
          exact ih.requiredStatement.bind fun _ _ helse =>
            alike_pure (.some (.ifElse hp hcondition hthen (.some helse)))
  | whileWord =>
      refine alike_advance.bind_same fun _ => (alike_expect .openParen).bind_same fun _ => ?_
      refine hexpression.bind fun _ _ hcondition => (alike_expect .closeParen).bind_same fun _ => ?_
      exact ih.requiredStatement.bind fun _ _ hbody =>
        alike_pure (.some (.whileLoop hp hcondition hbody))
  | breakWord =>
      refine alike_advance.bind_same fun _ => ?_
      exact (alike_expect .semicolon).bind_same fun _ => alike_pure (.some (.breaks hp))
  | continueWord =>
      refine alike_advance.bind_same fun _ => ?_
      exact (alike_expect .semicolon).bind_same fun _ => alike_pure (.some (.continues hp))
  | returnWord =>
      refine alike_advance.bind_same fun _ => (alike_eat .semicolon).bind_same fun found => ?_
      cases found with
      | true => exact alike_pure (.some (.returns hp .none))
      | false =>
          refine hexpression.bind fun _ _ hvalue => ?_
          exact (alike_expect .semicolon).bind_same fun _ =>
            alike_pure (.some (.returns hp (.some hvalue)))
  | func => exact alike_pure .none
  | inWord => exact alike_pure .none
  | elseWord => exact alike_pure .none

/-- Blocks are alike if their statements are. -/
theorem block_succ :
    Alike place (Option.Rel (Statement.Alike (.ofPlace place))) (Parser.block (n + 1))
      (Parser.block (n + 1)) := by
  refine alike_peek.bind fun next next' hnext => ?_
  cases hnext with
  | none => exact alike_pure .none
  | @some token token' hlike =>
      obtain ⟨lexeme, p⟩ := token
      obtain ⟨lexeme', q⟩ := token'
      obtain rfl : lexeme = lexeme' := hlike.lexeme_eq
      cases lexeme with
      | symbol mark =>
          cases mark with
          | openBrace =>
              refine alike_advance.bind_same fun _ => ?_
              exact ih.blockBody.bind fun _ _ hbody =>
                alike_pure (.some (.block hlike.position hbody))
          | _ => exact alike_pure .none
      | _ => exact alike_pure .none

/-- The statements of a block are alike, one by one. -/
theorem blockBody_succ :
    Alike place (List.Forall₂ (Statement.Alike (.ofPlace place))) (Parser.blockBody (n + 1))
      (Parser.blockBody (n + 1)) := by
  refine (alike_eat .closeBrace).bind_same fun found => ?_
  cases found with
  | true => exact alike_pure .nil
  | false =>
      refine ih.requiredStatement.bind fun _ _ hfirst => ?_
      exact ih.blockBody.bind fun _ _ hothers => alike_pure (.cons hfirst hothers)

end StatementsAlike

/-- **Statements are read in lockstep.** -/
theorem statementsAlike (place : Position → Position → Prop) (n : Nat) :
    StatementsAlike place n := by
  induction n with
  | zero => constructor <;> intros <;> exact alike_starve
  | succ n ih =>
      exact ⟨ih.statement_succ, ih.keywordStatement_succ,
        alike_required .statementExpected ih.statement, ih.block_succ, ih.blockBody_succ⟩

/-! ## Functions and scripts -/

/-- Parameters are the same in both lists.  By induction on the fuel. -/
theorem alike_parameters (n : Nat) (first : Bool) :
    Alike place Eq (parameters n first) (parameters n first) := by
  induction n generalizing first with
  | zero => exact alike_starve
  | succ n ih =>
      refine (alike_eat .closeParen).bind_same fun closed => ?_
      cases closed with
      | true => exact alike_pure rfl
      | false =>
          have hseparator : Alike place Eq (separator first) (separator first) := by
            cases first with
            | true => exact alike_pure rfl
            | false => exact alike_expect .comma
          refine hseparator.bind_same fun _ => (alike_eat .ellipsis).bind_same fun dots => ?_
          cases dots with
          | true =>
              refine (alike_eat .closeParen).bind_same fun closed => ?_
              cases closed with
              | true => exact alike_pure rfl
              | false => exact alike_failAtPosition _
          | false =>
              refine alike_identifier.bind_same fun name => ?_
              exact (ih false).bind_same fun _ => alike_pure rfl

/-- Functions are alike if their parameters and their bodies are. -/
theorem alike_function (n : Nat) :
    Alike place (Option.Rel (FunctionDef.Alike (.ofPlace place))) (function n) (function n) := by
  cases n with
  | zero => exact alike_starve
  | succ n =>
      refine (alike_eatKeyword .func).bind fun found found' hfound => ?_
      cases hfound with
      | none => exact alike_pure .none
      | some hp =>
          refine alike_identifier.bind_same fun name => ?_
          refine (alike_expect .openParen).bind_same fun _ => ?_
          refine (alike_parameters n true).bind_same fun params => ?_
          refine (statementsAlike place n).block.bind fun body body' hbody => ?_
          cases hbody with
          | none => exact alike_failAtPosition _
          | some hbody =>
              cases hbody with
              | block hp' hbody =>
                  exact alike_pure
                    (.some ⟨hp, ⟨rfl, List.forall₂_same.mpr fun _ _ => rfl, rfl⟩, hp', hbody⟩)
              | _ => exact alike_failAtPosition _

/-- What a script consists of: statements and functions that are alike. -/
structure ItemsAlike (place : Position → Position → Prop)
    (x y : List Statement × List FunctionDef) : Prop where
  statements : List.Forall₂ (Statement.Alike (.ofPlace place)) x.1 y.1
  functions : List.Forall₂ (FunctionDef.Alike (.ofPlace place)) x.2 y.2

/-- **Scripts are read in lockstep.**  By induction on the fuel, as they are read. -/
theorem alike_items (n : Nat) : Alike place (ItemsAlike place) (items n) (items n) := by
  induction n with
  | zero => exact alike_starve
  | succ n ih =>
      refine alike_peek.bind fun next next' hnext => ?_
      cases hnext with
      | none => exact alike_pure ⟨.nil, .nil⟩
      | some hlike =>
          refine (statementsAlike place n).statement.bind fun s s' hs => ?_
          cases hs with
          | some hs =>
              exact ih.bind fun _ _ hrest =>
                alike_pure ⟨.cons hs hrest.statements, hrest.functions⟩
          | none =>
              refine (alike_function n).bind fun f f' hf => ?_
              cases hf with
              | some hf =>
                  exact ih.bind fun _ _ hrest =>
                    alike_pure ⟨hrest.statements, .cons hf hrest.functions⟩
              | none =>
                  rw [hlike.lexeme_eq]
                  exact alike_fail _ (.some hlike.position)

end Parser

/-- An end that came too early is shown at the last tokens of both lists. -/
theorem ParseError.Like.atLastToken {place : Position → Position → Prop} {e e' : ParseError}
    (he : e.Like place e') {ts ts' : List Token} (h : List.Forall₂ (Token.Like place) ts ts') :
    (Script.atLastToken ts e).Like place (Script.atLastToken ts' e') := by
  have hlast : Option.Rel (Token.Like place) ts.getLast? ts'.getLast? := by
    rw [List.getLast?_eq_head?_reverse, List.getLast?_eq_head?_reverse]
    exact Parser.rel_head? (List.forall₂_reverse_iff.mpr h)
  obtain ⟨cause, p⟩ := e
  obtain ⟨cause', q⟩ := e'
  obtain rfl : cause = cause' := he.cause_eq
  unfold Script.atLastToken
  generalize ts.getLast? = last, ts'.getLast? = last' at hlast
  cases hlast with
  | none => cases cause <;> exact he
  | some hlast =>
      cases cause with
      | unexpectedEnd => exact ⟨rfl, .some hlast.position⟩
      | _ => exact he

end Scriptlet
