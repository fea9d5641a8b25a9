import Scriptlet.Proofs.Boundary
import Scriptlet.Proofs.ErrorPlaces

/-!
# Enough fuel to read expressions

The functions that read expressions call each other either after a token was taken or further
down the grammar.  So twenty-four units of fuel for each token, and some for where in the grammar
the reading begins, are enough: with these a function does not run out of fuel, and with one unit
more it does the same (`Parser.Settled`).  The functions call each other, so this is proved
of all of them at once (`Parser.expressionsSettle`).

Along the way it is seen which errors there can be: those that are about expressions.
-/

namespace Scriptlet

/-- The causes of the errors in expressions. -/
def ParseError.Cause.inExpression : ParseError.Cause → Bool
  | .literalOutOfRange _ | .unexpectedEnd | .expressionExpected | .subExpressionExpected
  | .symbolExpected _ => true
  | _ => false

/-- A phrase with tokens leaves fewer of them. -/
theorem Phrase.Between.length_lt {phrase : Phrase} {ts rest : List Token}
    (h : phrase.Between ts rest) (hphrase : phrase ≠ .elements []) :
    rest.length < ts.length := by
  obtain ⟨used, rfl, hderives⟩ := h
  have hused : 0 < used.length :=
    List.length_pos_iff.mpr (hderives.startsWith.resolve_left hphrase).ne_nil
  rw [List.length_append]
  omega

namespace Parser

variable {α β : Type} {x y : Parser α} {ts rest : List Token}

/-- On these tokens the first parser does not run out of fuel, its errors are about
expressions, and the second parser does the same. -/
structure Settled (x y : Parser α) (ts : List Token) : Prop where
  ends : (x ts).1 ≠ .outOfFuel
  error : ∀ {e rest}, x ts = (.failed e, rest) → e.cause.inExpression = true
  same : y ts = x ts

/-- A parser that gives a value is settled. -/
theorem settled_of_done {a : α} (h : x ts = (.done a, rest)) : Settled x x ts where
  ends := by simp [h]
  error hfail := by simp [h] at hfail
  same := rfl

/-- A parser that fails with an error of expressions is settled. -/
theorem settled_of_failed {e : ParseError} (h : x ts = (.failed e, rest))
    (he : e.cause.inExpression = true) : Settled x x ts where
  ends := by simp [h]
  error hfail := by
    rw [h] at hfail
    cases hfail
    exact he
  same := rfl

/-- The rule for sequences: the second part begins where the first one has ended. -/
theorem Settled.bind {f g : α → Parser β} (hx : Settled x y ts)
    (hf : ∀ a rest, x ts = (.done a, rest) → Settled (f a) (g a) rest) :
    Settled (x >>= f) (y >>= g) ts := by
  have hsame := hx.same
  rcases hrun : x ts with ⟨a | e | _, rest⟩ <;> rw [hrun] at hsame
  · have hrest := hf a rest hrun
    have hleft : (x >>= f) ts = f a rest := Run.bind_done hrun f
    have hright : (y >>= g) ts = g a rest := Run.bind_done hsame g
    exact ⟨hleft ▸ hrest.ends, fun hfail => hrest.error (hleft ▸ hfail),
      by rw [hleft, hright, hrest.same]⟩
  · have hleft : (x >>= f) ts = (.failed e, rest) := Run.bind_failed hrun f
    have hright : (y >>= g) ts = (.failed e, rest) := Run.bind_failed hsame g
    refine ⟨by simp [hleft], fun hfail => ?_, hright.trans hleft.symm⟩
    rw [hleft] at hfail
    cases hfail
    exact hx.error hrun
  · exact absurd (by rw [hrun]) hx.ends

/-! ## Single tokens -/

theorem settled_pure (a : α) : Settled (pure a) (pure a) ts :=
  settled_of_done rfl

theorem settled_peek : Settled peek peek ts :=
  settled_of_done rfl

theorem settled_advance : Settled advance advance ts :=
  settled_of_done rfl

theorem settled_eat (mark : Symbol) : Settled (eat mark) (eat mark) ts := by
  cases hnext : nextIs mark ts with
  | true => exact settled_of_done (if_pos hnext)
  | false => exact settled_of_done (eat_of_nextIs_eq_false hnext)

theorem settled_operatorAmong (ops : List BinaryOp) :
    Settled (operatorAmong ops) (operatorAmong ops) ts := by
  obtain ⟨found, rest, hdone⟩ : ∃ found rest, operatorAmong ops ts = (.done found, rest) := by
    unfold operatorAmong
    split
    · split
      · split <;> exact ⟨_, _, rfl⟩
      · exact ⟨_, _, rfl⟩
    · exact ⟨_, _, rfl⟩
  exact settled_of_done hdone

theorem settled_unaryOperator : Settled unaryOperator unaryOperator ts := by
  obtain ⟨found, rest, hdone⟩ : ∃ found rest, unaryOperator ts = (.done found, rest) := by
    unfold unaryOperator
    split
    · split <;> exact ⟨_, _, rfl⟩
    · exact ⟨_, _, rfl⟩
  exact settled_of_done hdone

theorem settled_callHead : Settled callHead callHead ts := by
  obtain ⟨found, rest, hdone⟩ : ∃ found rest, callHead ts = (.done found, rest) := by
    unfold callHead
    split <;> exact ⟨_, _, rfl⟩
  exact settled_of_done hdone

theorem settled_lvalueHead : Settled lvalueHead lvalueHead ts := by
  obtain ⟨found, rest, hdone⟩ : ∃ found rest, lvalueHead ts = (.done found, rest) := by
    unfold lvalueHead
    split <;> exact ⟨_, _, rfl⟩
  exact settled_of_done hdone

/-- Failing at the next token is settled, for a cause in expressions. -/
theorem settled_failAtNext {cause : ParseError.Cause} (h : cause.inExpression = true) :
    Settled (failAtNext cause : Parser α) (failAtNext cause) ts := by
  cases ts with
  | nil => exact settled_of_failed rfl rfl
  | cons token ts => exact settled_of_failed rfl h

theorem settled_expect (mark : Symbol) : Settled (expect mark) (expect mark) ts := by
  refine (settled_eat mark).bind fun found rest _ => ?_
  cases found with
  | true => exact settled_pure ()
  | false => exact settled_failAtNext rfl

/-- Reading a literal is settled: it may be out of range, but that is an error of
expressions. -/
theorem settled_literal (lexeme : Lexeme) (p : Position) :
    Settled (literal lexeme p) (literal lexeme p) ts := by
  rcases hvalue : Literal.read? lexeme with _ | cause | value
  · exact settled_of_done (by simp only [literal, hvalue]; rfl)
  · refine settled_of_failed (e := ⟨cause, some p⟩) (by simp only [literal, hvalue]; rfl) ?_
    rw [Literal.eq_of_read?_eq_error hvalue]
    rfl
  · exact settled_of_done (by simp only [literal, hvalue]; rfl)

/-! ## Combinators -/

/-- Asking for what must be there is settled, if looking for it is and the cause is one in
expressions. -/
theorem Settled.required {x y : Parser (Option α)} {cause : ParseError.Cause}
    (h : Settled x y ts) (hcause : cause.inExpression = true) :
    Settled (required cause x) (required cause y) ts := by
  cases ts with
  | nil =>
      have hfail : Settled (failAtNext cause : Parser α) (failAtNext cause) [] :=
        settled_failAtNext hcause
      exact ⟨hfail.ends, hfail.error, rfl⟩
  | cons token ts =>
      have hbind : Settled (x >>= fun result => Run.ofOption ⟨cause, some token.position⟩ result)
          (y >>= fun result => Run.ofOption ⟨cause, some token.position⟩ result) (token :: ts) := by
        refine h.bind fun found rest _ => ?_
        cases found with
        | some a => exact settled_of_done rfl
        | none => exact settled_of_failed rfl hcause
      exact ⟨hbind.ends, hbind.error, hbind.same⟩

/-- The look ahead for an assignment never fails. -/
theorem Settled.assignmentHead {x y : Parser (Option LValue)} (h : Settled x y ts) :
    Settled (assignmentHead x) (assignmentHead y) ts := by
  have hsame : Parser.assignmentHead y ts = Parser.assignmentHead x ts := by
    simp only [Parser.assignmentHead, h.same]
  obtain ⟨found, rest, hdone⟩ : ∃ found rest,
      Parser.assignmentHead x ts = (.done found, rest) := by
    unfold Parser.assignmentHead
    split
    next =>
      split
      · exact ⟨_, _, rfl⟩
      · exact ⟨_, _, rfl⟩
    next hstarved => exact absurd (by rw [hstarved]) h.ends
    next => exact ⟨_, _, rfl⟩
  exact ⟨(settled_of_done hdone).ends, (settled_of_done hdone).error, hsame⟩

/-! ## Expressions -/

/-- With `n` units of fuel every parser of expressions settles tokens that are not too many.
What is there beyond twenty-four units for each token is for the calls that are made before
the next one is taken. -/
structure ExpressionsSettle (n : Nat) : Prop where
  expression : ∀ {ts}, 24 * ts.length + 17 ≤ n → Settled (expression n) (expression (n + 1)) ts
  optionalExpression : ∀ {ts}, 24 * ts.length + 16 ≤ n →
    Settled (optionalExpression n) (optionalExpression (n + 1)) ts
  conditional : ∀ {ts}, 24 * ts.length + 15 ≤ n → Settled (conditional n) (conditional (n + 1)) ts
  binary : ∀ {levels ts}, 24 * ts.length + 4 + levels.length ≤ n →
    Settled (binary n levels) (binary (n + 1) levels) ts
  chain : ∀ {ops tighter left ts}, 24 * ts.length + 5 + tighter.length ≤ n →
    Settled (chain n ops tighter left) (chain (n + 1) ops tighter left) ts
  unary : ∀ {ts}, 24 * ts.length + 3 ≤ n → Settled (unary n) (unary (n + 1)) ts
  primary : ∀ {ts}, 24 * ts.length + 2 ≤ n → Settled (primary n) (primary (n + 1)) ts
  lvalue : ∀ {ts}, 24 * ts.length + 1 ≤ n → Settled (lvalue n) (lvalue (n + 1)) ts
  call : ∀ {ts}, 24 * ts.length + 1 ≤ n → Settled (call n) (call (n + 1)) ts
  separated : ∀ {closing ts}, 24 * ts.length + 19 ≤ n →
    Settled (separated n closing) (separated (n + 1) closing) ts
  separated1 : ∀ {closing ts}, 24 * ts.length + 18 ≤ n →
    Settled (separated1 n closing) (separated1 (n + 1) closing) ts

namespace ExpressionsSettle

variable {n : Nat} (ih : ExpressionsSettle n)

include ih

/-- An expression that must be there asks for one that may be, with one unit less. -/
theorem expression_succ (h : 24 * ts.length + 17 ≤ n + 1) :
    Settled (Parser.expression (n + 1)) (Parser.expression (n + 2)) ts :=
  (ih.optionalExpression (by omega)).required rfl

/-- An expression asks for a place or a conditional, with one unit less. -/
theorem optionalExpression_succ (h : 24 * ts.length + 16 ≤ n + 1) :
    Settled (Parser.optionalExpression (n + 1)) (Parser.optionalExpression (n + 2)) ts := by
  refine (ih.lvalue (by omega)).assignmentHead.bind fun found rest hhead => ?_
  rcases assignmentHead_done hhead with ⟨target, q, rfl, hlvalue⟩ | ⟨rfl, rfl⟩
  · have htaken := ((expressionsSound n).lvalue hlvalue).length_lt (by simp)
    rw [List.length_cons] at htaken
    exact (ih.expression (by omega)).bind fun _ _ _ => settled_pure _
  · exact ih.conditional (by omega)

/-- A conditional asks for an operation first; `?` and `:` are tokens taken before its
branches. -/
theorem conditional_succ (h : 24 * ts.length + 15 ≤ n + 1) :
    Settled (Parser.conditional (n + 1)) (Parser.conditional (n + 2)) ts := by
  have hlevels : BinaryOp.levels.length = 10 := rfl
  refine (ih.binary (by omega)).bind fun found rest hbinary => ?_
  cases found with
  | none => exact settled_pure none
  | some condition =>
      have htaken := ((expressionsSound n).binary hbinary).length_lt (by simp)
      refine (settled_eat .question).bind fun asked mid heat => ?_
      rcases eat_done heat with ⟨rfl, p, rfl⟩ | ⟨rfl, -, rfl⟩
      · rw [List.length_cons] at htaken
        refine ((ih.conditional (by omega)).required rfl).bind fun thenBranch after hthen => ?_
        have hafter := ((expressionsSound n).conditional (required_done hthen)).length_lt (by simp)
        refine (settled_expect .colon).bind fun _ last hcolon => ?_
        obtain ⟨q, rfl⟩ := expect_done hcolon
        rw [List.length_cons] at hafter
        exact ((ih.conditional (by omega)).required rfl).bind fun _ _ _ => settled_pure _
      · exact settled_pure _

/-- A level asks for the next one with one unit less, and so for each level. -/
theorem binary_succ {levels : List (List BinaryOp)}
    (h : 24 * ts.length + 4 + levels.length ≤ n + 1) :
    Settled (Parser.binary (n + 1) levels) (Parser.binary (n + 2) levels) ts := by
  cases levels with
  | nil =>
      rw [List.length_nil] at h
      exact ih.unary (by omega)
  | cons ops tighter =>
      rw [List.length_cons] at h
      refine (ih.binary (by omega)).bind fun found rest hbinary => ?_
      cases found with
      | none => exact settled_pure none
      | some left =>
          have htaken := ((expressionsSound n).binary hbinary).length_lt (by simp)
          exact (ih.chain (by omega)).bind fun _ _ _ => settled_pure _

/-- In a chain an operator is taken before each operand; the fuel of its token is enough for
the operand. -/
theorem chain_succ {ops : List BinaryOp} {tighter : List (List BinaryOp)} {left : Expr}
    (h : 24 * ts.length + 5 + tighter.length ≤ n + 1) :
    Settled (Parser.chain (n + 1) ops tighter left) (Parser.chain (n + 2) ops tighter left)
      ts := by
  refine (settled_operatorAmong ops).bind fun found rest hop => ?_
  rcases operatorAmong_done hop with ⟨op, p, rfl, -, rfl⟩ | ⟨rfl, rfl⟩
  · rw [List.length_cons] at h
    refine (ih.binary (by omega)).bind fun right after hbinary => ?_
    cases right with
    | some right =>
        have htaken := ((expressionsSound n).binary hbinary).length_lt (by simp)
        exact ih.chain (by omega)
    | none => exact settled_of_failed rfl rfl
  · exact settled_pure left

/-- A sign is taken before its operand; the fuel of its token is enough for the operand. -/
theorem unary_succ (h : 24 * ts.length + 3 ≤ n + 1) :
    Settled (Parser.unary (n + 1)) (Parser.unary (n + 2)) ts := by
  refine settled_unaryOperator.bind fun found rest hop => ?_
  rcases unaryOperator_done hop with ⟨op, p, rfl, rfl⟩ | ⟨rfl, rfl⟩
  · rw [List.length_cons] at h
    refine (ih.unary (by omega)).bind fun operand after _ => ?_
    cases operand with
    | some operand => exact settled_pure _
    | none => exact settled_of_failed rfl rfl
  · exact ih.primary (by omega)

/-- A primary expression asks for a call or a place with one unit less, or takes a token. -/
theorem primary_succ (h : 24 * ts.length + 2 ≤ n + 1) :
    Settled (Parser.primary (n + 1)) (Parser.primary (n + 2)) ts := by
  refine (ih.call (by omega)).bind fun called rest hcall => ?_
  cases called with
  | some e => exact settled_pure _
  | none =>
  obtain rfl := (expressionsSound n).call_none hcall
  refine (ih.lvalue (by omega)).bind fun target rest hlvalue => ?_
  cases target with
  | some target => exact settled_pure _
  | none =>
  obtain rfl := (expressionsSound n).lvalue_none hlvalue
  refine settled_peek.bind fun next rest hpeek => ?_
  obtain ⟨hnext, rfl⟩ := peek_done hpeek
  split
  next => exact settled_pure none
  next p =>
    obtain ⟨ts, rfl⟩ := List.head?_eq_some_iff.mp hnext
    rw [List.length_cons] at h
    refine settled_advance.bind fun _ rest hadvance => ?_
    cases hadvance
    exact (ih.separated (by rw [List.tail_cons]; omega)).bind fun _ _ _ => settled_pure _
  next =>
    obtain ⟨ts, rfl⟩ := List.head?_eq_some_iff.mp hnext
    rw [List.length_cons] at h
    refine settled_advance.bind fun _ rest hadvance => ?_
    cases hadvance
    refine (ih.expression (by rw [List.tail_cons]; omega)).bind fun _ _ _ => ?_
    exact (settled_expect .closeParen).bind fun _ _ _ => settled_pure _
  next lexeme p _ _ => exact settled_literal lexeme p

/-- A name and a bracket are taken before an index; their fuel is enough for it. -/
theorem lvalue_succ (h : 24 * ts.length + 1 ≤ n + 1) :
    Settled (Parser.lvalue (n + 1)) (Parser.lvalue (n + 2)) ts := by
  refine settled_lvalueHead.bind fun found rest hhead => ?_
  rcases lvalueHead_done hhead with ⟨lexeme, p, name, rfl, -, rfl⟩ | ⟨rfl, rfl⟩
  · rw [List.length_cons] at h
    refine (settled_eat .openBracket).bind fun bracket mid heat => ?_
    rcases eat_done heat with ⟨rfl, q, rfl⟩ | ⟨rfl, -, rfl⟩
    · rw [List.length_cons] at h
      refine (ih.expression (by omega)).bind fun _ _ _ => ?_
      exact (settled_expect .closeBracket).bind fun _ _ _ => settled_pure _
    · exact settled_pure _
  · exact settled_pure none

/-- A name and a parenthesis are taken before the arguments; their fuel is enough for these. -/
theorem call_succ (h : 24 * ts.length + 1 ≤ n + 1) :
    Settled (Parser.call (n + 1)) (Parser.call (n + 2)) ts := by
  refine settled_callHead.bind fun found rest hhead => ?_
  rcases callHead_done hhead with ⟨p, name, q, rfl, rfl⟩ | ⟨rfl, rfl⟩
  · rw [List.length_cons, List.length_cons] at h
    exact (ih.separated (by omega)).bind fun _ _ _ => settled_pure _
  · exact settled_pure none

/-- Elements that may be missing ask for one or more, with one unit less. -/
theorem separated_succ {closing : Symbol} (h : 24 * ts.length + 19 ≤ n + 1) :
    Settled (Parser.separated (n + 1) closing) (Parser.separated (n + 2) closing) ts := by
  refine (settled_eat closing).bind fun found rest heat => ?_
  rcases eat_done heat with ⟨rfl, p, rfl⟩ | ⟨rfl, -, rfl⟩
  · exact settled_pure []
  · exact ih.separated1 (by omega)

/-- An element and a comma are taken before the others; their fuel is enough for these. -/
theorem separated1_succ {closing : Symbol} (h : 24 * ts.length + 18 ≤ n + 1) :
    Settled (Parser.separated1 (n + 1) closing) (Parser.separated1 (n + 2) closing) ts := by
  refine (ih.expression (by omega)).bind fun first rest hexpression => ?_
  have htaken := ((expressionsSound n).expression hexpression).length_lt (by simp)
  refine (settled_eat .comma).bind fun found mid heat => ?_
  rcases eat_done heat with ⟨rfl, p, rfl⟩ | ⟨rfl, -, rfl⟩
  · rw [List.length_cons] at htaken
    exact (ih.separated1 (by omega)).bind fun _ _ _ => settled_pure _
  · exact (settled_expect closing).bind fun _ _ _ => settled_pure _

end ExpressionsSettle

/-- **Twenty-four units for each token are enough.** -/
theorem expressionsSettle (n : Nat) : ExpressionsSettle n := by
  induction n with
  | zero => constructor <;> intros <;> omega
  | succ n ih =>
      exact ⟨ih.expression_succ, ih.optionalExpression_succ, ih.conditional_succ, ih.binary_succ,
        ih.chain_succ, ih.unary_succ, ih.primary_succ, ih.lvalue_succ, ih.call_succ,
        ih.separated_succ, ih.separated1_succ⟩

/-- With enough fuel an lvalue is read in the same way as with more. -/
theorem lvalue_eq_of_le {n k : Nat} (hn : 24 * ts.length + 1 ≤ n) (hnk : n ≤ k) :
    lvalue k ts = lvalue n ts := by
  induction hnk with
  | refl => rfl
  | step hnk ih =>
      have hsettled := (expressionsSettle _).lvalue (Nat.le_trans hn hnk)
      exact hsettled.same.trans ih

end Parser

end Scriptlet
