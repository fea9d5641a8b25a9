import Scriptlet.Proofs.ExpressionCompleteness
import Scriptlet.Proofs.ParserFuel

/-!
# What the look ahead for an assignment keeps silent about

An expression and a statement both begin with a look ahead: is this an lvalue with `=` after it?
A look ahead does not fail, so an error in the index of an element is not told by it.  An
expression goes on without the assignment, comes to the same lvalue again and there raises the
error (`Parser.Stuck`).  A statement goes on with a call, which this is not, and so there is no
statement: the error is not raised by anyone, and what is told instead is that there is no
statement, at its first token.
-/

namespace Scriptlet

namespace Parser

variable {ts rest : List Token} {e : ParseError} {bound n : Nat}

/-- With at least so much fuel the parser fails on the tokens in one way. -/
def FailsFrom {α : Type} (bound : Nat) (x : Nat → Parser α) (ts : List Token) (e : ParseError)
    (rest : List Token) : Prop :=
  ∀ n, bound ≤ n → x n ts = (.failed e, rest)

/-- The tokens begin neither with a call nor with a unary operator, and the lvalue that they
begin with cannot be read. -/
structure Stuck (bound : Nat) (ts : List Token) (e : ParseError) (rest : List Token) : Prop where
  callHead : Parser.callHead ts = (.done none, ts)
  unaryOperator : Parser.unaryOperator ts = (.done none, ts)
  lvalue : FailsFrom bound Parser.lvalue ts e rest
  pos : 0 < bound

namespace Stuck

/-- A primary expression that begins with the stuck place fails as that does. -/
theorem primary (h : Stuck bound ts e rest) : FailsFrom (bound + 1) Parser.primary ts e rest := by
  intro n hn
  obtain ⟨k, rfl⟩ : ∃ k, n = k + 1 := ⟨n - 1, by omega⟩
  have hpos := h.pos
  refine Run.bind_eq_of_done (Parsed.call_eq_none (by omega) h.callHead) ?_
  exact Run.bind_failed (h.lvalue k (by omega)) _

theorem unary (h : Stuck bound ts e rest) : FailsFrom (bound + 2) Parser.unary ts e rest := by
  intro n hn
  obtain ⟨k, rfl⟩ : ∃ k, n = k + 1 := ⟨n - 1, by omega⟩
  exact Run.bind_eq_of_done h.unaryOperator (h.primary k (by omega))

/-- An operation of any level that begins with the stuck place fails as that does.  By
induction on the levels. -/
theorem binary (h : Stuck bound ts e rest) (levels : List (List BinaryOp)) :
    FailsFrom (bound + 3 + levels.length) (Parser.binary · levels) ts e rest := by
  induction levels with
  | nil =>
      intro n hn
      rw [List.length_nil] at hn
      obtain ⟨k, rfl⟩ : ∃ k, n = k + 1 := ⟨n - 1, by omega⟩
      exact h.unary k (by omega)
  | cons ops tighter ih =>
      intro n hn
      rw [List.length_cons] at hn
      obtain ⟨k, rfl⟩ : ∃ k, n = k + 1 := ⟨n - 1, by omega⟩
      exact Run.bind_failed (ih k (by omega)) _

theorem conditional (h : Stuck bound ts e rest) :
    FailsFrom (bound + 14) Parser.conditional ts e rest := by
  intro n hn
  obtain ⟨k, rfl⟩ : ∃ k, n = k + 1 := ⟨n - 1, by omega⟩
  have hlevels : BinaryOp.levels.length = 10 := rfl
  exact Run.bind_failed (h.binary BinaryOp.levels k (by omega)) _

/-- The look ahead answers that there is no assignment. -/
theorem assignmentHead (h : Stuck bound ts e rest) (hn : bound ≤ n) :
    Parser.assignmentHead (Parser.lvalue n) ts = (.done none, ts) := by
  simp only [Parser.assignmentHead, h.lvalue n hn]

/-- **An expression raises the error.**  After the look ahead it comes to the lvalue again. -/
theorem expression (h : Stuck bound ts e rest) (hts : ts ≠ []) :
    FailsFrom (bound + 16) Parser.expression ts e rest := by
  intro n hn
  obtain ⟨k, rfl⟩ : ∃ k, n = k + 2 := ⟨n - 2, by omega⟩
  obtain ⟨token, us, rfl⟩ := List.exists_cons_of_ne_nil hts
  have hoptional : optionalExpression (k + 1) (token :: us) = (.failed e, rest) :=
    Run.bind_eq_of_done (h.assignmentHead (by omega)) (h.conditional k (by omega))
  exact Run.bind_failed hoptional _

/-- **A statement does not.**  What is no assignment could be a call, but this is none. -/
theorem statement (h : Stuck bound ts e rest) {token : Token} {us : List Token}
    (hts : ts = token :: us) (hname : token.lexeme.lvalueName?.isSome) (hn : bound < n) :
    Parser.statement n ts = (.done none, ts) := by
  obtain ⟨k, rfl⟩ : ∃ k, n = k + 1 := ⟨n - 1, by omega⟩
  have hpos := h.pos
  have hassignment : assignmentOrCall k ts = (.done none, ts) := by
    refine Run.bind_eq_of_done (h.assignmentHead (by omega)) ?_
    exact Run.bind_eq_of_done (Parsed.call_eq_none (by omega) h.callHead) rfl
  subst hts
  obtain ⟨lexeme, p⟩ := token
  obtain ⟨name, hname⟩ := Option.isSome_iff_exists.mp hname
  rcases Lexeme.lvalueName?_eq_some_iff.mp hname with rfl | ⟨rfl, -⟩
  · exact hassignment
  · exact hassignment

end Stuck

/-- An element whose index cannot be read, as seen by the look ahead. -/
theorem stuck_of_parse_lvalue {lexeme : Lexeme} {name : String} {p q : Position}
    (hname : lexeme.lvalueName? = some name)
    (hts : ts = ⟨lexeme, p⟩ :: ⟨.symbol .openBracket, q⟩ :: rest)
    (h : (parse lvalue ts).1 = .error e) :
    Stuck (24 * ts.length + 1) ts e (parse lvalue ts).2 ∧ e.cause.inExpression = true := by
  have henough : 24 * ts.length + 1 ≤ fuel ts := by
    unfold fuel
    omega
  have hsettled := (expressionsSettle (fuel ts)).lvalue henough
  rcases hrun : lvalue (fuel ts) ts with ⟨found | e' | _, left⟩
  · simp [parse, hrun, Outcome.toExcept] at h
  · obtain rfl : e' = e := by simpa [parse, hrun, Outcome.toExcept] using h
    have hleft : (parse lvalue ts).2 = left := by simp [parse, hrun]
    refine ⟨⟨?_, ?_, ?_, by omega⟩, hsettled.error hrun⟩
    · subst hts
      exact callHead_of_nextIs_eq_false rfl
    · subst hts
      refine unaryOperator_of_nextIs_eq_false fun op => ?_
      rcases Lexeme.lvalueName?_eq_some_iff.mp hname with rfl | ⟨rfl, -⟩
      · rfl
      · cases op <;> rfl
    · intro n hn
      -- the fuel of the parse and `n` are both enough, so they give the same
      have hleast := lvalue_eq_of_le (Nat.le_refl (24 * ts.length + 1)) henough
      have hmore := lvalue_eq_of_le (Nat.le_refl (24 * ts.length + 1)) hn
      rw [hleft, hmore, ← hleast, hrun]
  · exact absurd (by rw [hrun]) hsettled.ends

/-- **An error in an index is raised by an expression and kept from a statement.**  The tokens
begin with a name or `...` and an opening bracket, and no lvalue can be read from them.  An
expression fails with the error of the lvalue and leaves the same tokens.  A statement does not
fail: it is not there, so a required one is said to be missing, and a script is said to have an
unexpected token, at the first token and never with the error of the lvalue. -/
theorem lvalue_error_kept_from_statement {first bracket : Token} {rest : List Token}
    {e : ParseError} (hfirst : first.lexeme.lvalueName?.isSome)
    (hbracket : bracket.lexeme = .symbol .openBracket)
    (herror : (parse lvalue (first :: bracket :: rest)).1 = .error e) :
    parse expression (first :: bracket :: rest) =
        (.error e, (parse lvalue (first :: bracket :: rest)).2) ∧
      parse statement (first :: bracket :: rest) = (.ok none, first :: bracket :: rest) ∧
      parse requiredStatement (first :: bracket :: rest) =
        (.error ⟨.statementExpected, some first.position⟩, first :: bracket :: rest) ∧
      (∀ name, Script.ofTokens name (first :: bracket :: rest) =
        .error ⟨.unexpectedToken first.lexeme.text, some first.position⟩) ∧
      e.cause ≠ .statementExpected ∧ ∀ text, e.cause ≠ .unexpectedToken text := by
  obtain ⟨lexeme, q⟩ := bracket
  cases hbracket
  obtain ⟨name, hname⟩ := Option.isSome_iff_exists.mp hfirst
  obtain ⟨hstuck, hcause⟩ := stuck_of_parse_lvalue hname rfl herror
  generalize htokens : first :: ⟨.symbol .openBracket, q⟩ :: rest = ts at hstuck herror ⊢
  have hne : ts ≠ [] := by simp [← htokens]
  have hstatement : ∀ n, 24 * ts.length + 2 ≤ n → statement n ts = (.done none, ts) :=
    fun n hn => hstuck.statement htokens.symm hfirst hn
  have hfuel : fuel ts = 24 * ts.length + 22 + 2 := by
    unfold fuel
    omega
  have hexpression : expression (fuel ts) ts = (.failed e, (parse lvalue ts).2) :=
    hstuck.expression hne _ (by omega)
  have hrequired : requiredStatement (fuel ts) ts =
      (.failed ⟨.statementExpected, some first.position⟩, ts) := by
    have hnone := hstatement (24 * ts.length + 22 + 1) (by omega)
    rw [hfuel]
    subst htokens
    exact Run.bind_eq_of_done hnone rfl
  have hfunction : function (24 * ts.length + 22 + 1) ts = (.done none, ts) := by
    refine Run.bind_eq_of_done (eatKeyword_of_ne fun p us hkeyword => ?_) rfl
    rw [← htokens] at hkeyword
    cases hkeyword
    cases hname
  have hitems : items (fuel ts) ts =
      (.failed ⟨.unexpectedToken first.lexeme.text, some first.position⟩, ts) := by
    have hpeek : peek ts = (.done (some first), ts) := by
      rw [← htokens]
      rfl
    rw [hfuel]
    refine Run.bind_eq_of_done hpeek ?_
    refine Run.bind_eq_of_done (hstatement _ (by omega)) ?_
    exact Run.bind_eq_of_done hfunction rfl
  refine ⟨?_, ?_, ?_, fun script => ?_, ?_, ?_⟩
  · simp only [parse, hexpression, Outcome.toExcept]
  · simp only [parse, hstatement (fuel ts) (by omega), Outcome.toExcept]
  · simp only [parse, hrequired, Outcome.toExcept]
  · simp only [Script.ofTokens, parse, hitems, Outcome.toExcept, Script.atLastToken]
  · intro heq
    rw [heq] at hcause
    cases hcause
  · intro text heq
    rw [heq] at hcause
    cases hcause

/-- The tokens of `...[1;`. -/
def openIndex : List Token :=
  [⟨.symbol .ellipsis, ⟨"t", 1, 1⟩⟩, ⟨.symbol .openBracket, ⟨"t", 1, 4⟩⟩,
    ⟨.integer "1", ⟨"t", 1, 5⟩⟩, ⟨.symbol .semicolon, ⟨"t", 1, 6⟩⟩]

/-- The missing bracket is told by the expression, and not by the statement. -/
theorem lvalue_error_kept_from_statement_openIndex :
    (parse lvalue openIndex).1 = .error ⟨.symbolExpected .closeBracket, some ⟨"t", 1, 6⟩⟩ ∧
      (parse expression openIndex).1 =
        .error ⟨.symbolExpected .closeBracket, some ⟨"t", 1, 6⟩⟩ ∧
      parse statement openIndex = (.ok none, openIndex) ∧
      (parse requiredStatement openIndex).1 = .error ⟨.statementExpected, some ⟨"t", 1, 1⟩⟩ ∧
      Script.ofTokens "t" openIndex = .error ⟨.unexpectedToken "...", some ⟨"t", 1, 1⟩⟩ := by
  have herror : (parse lvalue openIndex).1 =
      .error ⟨.symbolExpected .closeBracket, some ⟨"t", 1, 6⟩⟩ := rfl
  obtain ⟨hexpression, hstatement, hrequired, hscript, _⟩ :=
    lvalue_error_kept_from_statement rfl rfl herror
  exact ⟨herror, congrArg Prod.fst hexpression, hstatement, congrArg Prod.fst hrequired,
    hscript "t"⟩

/-- The tokens of `x[99999999999] = 1;`. -/
def indexOutOfRange : List Token :=
  [⟨.identifier "x", ⟨"t", 1, 1⟩⟩, ⟨.symbol .openBracket, ⟨"t", 1, 2⟩⟩,
    ⟨.integer "99999999999", ⟨"t", 1, 3⟩⟩, ⟨.symbol .closeBracket, ⟨"t", 1, 14⟩⟩,
    ⟨.symbol .assign, ⟨"t", 1, 16⟩⟩, ⟨.integer "1", ⟨"t", 1, 18⟩⟩,
    ⟨.symbol .semicolon, ⟨"t", 1, 19⟩⟩]

/-- The number is too large for an index, but a script with this assignment fails at its first
token. -/
theorem indexOutOfRange_kept_from_statement :
    (Token.scan "t" "x[99999999999] = 1;").toOption = some indexOutOfRange ∧
      (parse lvalue indexOutOfRange).1 =
        .error ⟨.literalOutOfRange "99999999999", some ⟨"t", 1, 3⟩⟩ ∧
      (parse statement indexOutOfRange).1 = .ok none ∧
      (parse requiredStatement indexOutOfRange).1 =
        .error ⟨.statementExpected, some ⟨"t", 1, 1⟩⟩ ∧
      Script.ofText "t" "x[99999999999] = 1;" =
        .error ⟨.unexpectedToken "x", some ⟨"t", 1, 1⟩⟩ :=
  ⟨by decide +kernel, rfl, rfl, rfl, Script.eq_error_of_error? (by decide +kernel)⟩

end Parser

end Scriptlet
