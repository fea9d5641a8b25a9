import Scriptlet.Proofs.TokenStep

/-!
# Expressions are read by the grammar

A parser that gives a tree has taken tokens from the front, and these tokens
derive the tree (`Phrase.Between`).  The functions of the grammar call each
other, so this is proved of all of them at once, by induction on the fuel:
`Parser.ExpressionsSound` lists what holds with some amount of fuel, the lemmas
`*_succ` give one more unit to each function, and `Parser.expressionsSound` is
the whole.
-/

namespace Scriptlet

/-- The phrase stands at the front of `ts`, and `rest` is left. -/
def Phrase.Between (phrase : Phrase) (ts rest : List Token) : Prop :=
  ∃ used, ts = used ++ rest ∧ phrase.Derives used

namespace Parser

/-- With `n` units of fuel every parser of expressions reads what the grammar
derives.  An lvalue or a call that is not there leaves the tokens alone. -/
structure ExpressionsSound (n : Nat) : Prop where
  expression : ∀ {ts rest e}, Parser.expression n ts = (.done e, rest) →
    (Phrase.expression e).Between ts rest
  optionalExpression : ∀ {ts rest e}, Parser.optionalExpression n ts = (.done (some e), rest) →
    (Phrase.expression e).Between ts rest
  conditional : ∀ {ts rest e}, Parser.conditional n ts = (.done (some e), rest) →
    (Phrase.conditional e).Between ts rest
  binary : ∀ {levels ts rest e}, Parser.binary n levels ts = (.done (some e), rest) →
    (Phrase.binary levels e).Between ts rest
  chain : ∀ {ops tighter left before ts rest e},
    (Phrase.binary (ops :: tighter) left).Derives before →
    Parser.chain n ops tighter left ts = (.done e, rest) →
      (Phrase.binary (ops :: tighter) e).Between (before ++ ts) rest
  unary : ∀ {ts rest e}, Parser.unary n ts = (.done (some e), rest) →
    (Phrase.unary e).Between ts rest
  primary : ∀ {ts rest e}, Parser.primary n ts = (.done (some e), rest) →
    (Phrase.primary e).Between ts rest
  lvalue : ∀ {ts rest target}, Parser.lvalue n ts = (.done (some target), rest) →
    (Phrase.lvalue target).Between ts rest
  lvalue_none : ∀ {ts rest}, Parser.lvalue n ts = (.done none, rest) → rest = ts
  call : ∀ {ts rest e}, Parser.call n ts = (.done (some e), rest) → (Phrase.call e).Between ts rest
  call_none : ∀ {ts rest}, Parser.call n ts = (.done none, rest) → rest = ts
  separated : ∀ {closing ts rest es}, Parser.separated n closing ts = (.done es, rest) →
    ∃ q, (Phrase.elements es).Between ts (⟨.symbol closing, q⟩ :: rest)
  separated1 : ∀ {closing ts rest es}, Parser.separated1 n closing ts = (.done es, rest) →
    ∃ q, (Phrase.elements1 es).Between ts (⟨.symbol closing, q⟩ :: rest)

namespace ExpressionsSound

variable {n : Nat} (ih : ExpressionsSound n) {ts rest : List Token}

include ih

/-- An expression that must be there is an expression. -/
theorem expression_succ {e : Expr} (h : Parser.expression (n + 1) ts = (.done e, rest)) :
    (Phrase.expression e).Between ts rest :=
  ih.optionalExpression (required_done h)

/-- An expression is an assignment if a place and `=` are in front, and a conditional
otherwise. -/
theorem optionalExpression_succ {e : Expr}
    (h : Parser.optionalExpression (n + 1) ts = (.done (some e), rest)) :
    (Phrase.expression e).Between ts rest := by
  obtain ⟨found, mid, hhead, h₁⟩ := Run.bind_eq_done_iff.mp h
  rcases assignmentHead_done hhead with ⟨target, q, rfl, hlvalue⟩ | ⟨rfl, rfl⟩
  · obtain ⟨value, mid', hexpression, hpure⟩ := Run.bind_eq_done_iff.mp h₁
    cases hpure
    obtain ⟨used, rfl, htarget⟩ := ih.lvalue hlvalue
    obtain ⟨used', rfl, hvalue⟩ := ih.expression hexpression
    exact ⟨used ++ ⟨.symbol .assign, q⟩ :: used', by simp, .assignment htarget hvalue⟩
  · obtain ⟨used, rfl, he⟩ := ih.conditional h₁
    exact ⟨used, rfl, .ofConditional he⟩

/-- Without `?` a conditional is an operation; otherwise it has a middle and a last part
too. -/
theorem conditional_succ {e : Expr}
    (h : Parser.conditional (n + 1) ts = (.done (some e), rest)) :
    (Phrase.conditional e).Between ts rest := by
  obtain ⟨found, mid, hbinary, h₁⟩ := Run.bind_eq_done_iff.mp h
  cases found with
  | none => cases h₁
  | some condition =>
      obtain ⟨used, rfl, hcondition⟩ := ih.binary hbinary
      obtain ⟨question, mid₁, heat, h₂⟩ := Run.bind_eq_done_iff.mp h₁
      rcases eat_done heat with ⟨rfl, q, rfl⟩ | ⟨rfl, -, rfl⟩
      · obtain ⟨thenBranch, mid₂, hparse, h₃⟩ := Run.bind_eq_done_iff.mp h₂
        obtain ⟨_, mid₃, hcolon, h₄⟩ := Run.bind_eq_done_iff.mp h₃
        obtain ⟨elseBranch, mid₄, hparse', hpure⟩ := Run.bind_eq_done_iff.mp h₄
        cases hpure
        obtain ⟨used₁, rfl, hthen⟩ := ih.conditional (required_done hparse)
        obtain ⟨q', rfl⟩ := expect_done hcolon
        obtain ⟨used₂, rfl, helse⟩ := ih.conditional (required_done hparse')
        exact ⟨used ++ ⟨.symbol .question, q⟩ :: (used₁ ++ ⟨.symbol .colon, q'⟩ :: used₂),
          by simp, .choice hcondition hthen helse⟩
      · cases h₂
        exact ⟨used, rfl, .ofBinary hcondition⟩

/-- On a level of operators there is one operation of the next level, and a chain behind
it. -/
theorem binary_succ {levels : List (List BinaryOp)} {e : Expr}
    (h : Parser.binary (n + 1) levels ts = (.done (some e), rest)) :
    (Phrase.binary levels e).Between ts rest := by
  cases levels with
  | nil =>
      obtain ⟨used, rfl, he⟩ := ih.unary h
      exact ⟨used, rfl, .ofUnary he⟩
  | cons ops tighter =>
      obtain ⟨found, mid, hbinary, h₁⟩ := Run.bind_eq_done_iff.mp h
      cases found with
      | none => cases h₁
      | some left =>
          obtain ⟨whole, mid', hchain, hpure⟩ := Run.bind_eq_done_iff.mp h₁
          cases hpure
          obtain ⟨used, rfl, hleft⟩ := ih.binary hbinary
          exact ih.chain (.ofTighter hleft) hchain

/-- A chain adds operands to the operation on its left, so that it associates to the
left. -/
theorem chain_succ {ops : List BinaryOp} {tighter : List (List BinaryOp)} {left e : Expr}
    {before : List Token} (hleft : (Phrase.binary (ops :: tighter) left).Derives before)
    (h : Parser.chain (n + 1) ops tighter left ts = (.done e, rest)) :
    (Phrase.binary (ops :: tighter) e).Between (before ++ ts) rest := by
  obtain ⟨found, mid, hop, h₁⟩ := Run.bind_eq_done_iff.mp h
  rcases operatorAmong_done hop with ⟨op, p, rfl, hmem, rfl⟩ | ⟨rfl, rfl⟩
  · obtain ⟨operand, mid', hbinary, h₂⟩ := Run.bind_eq_done_iff.mp h₁
    cases operand with
    | none =>
        obtain ⟨next, mid'', -, hfail⟩ := Run.bind_eq_done_iff.mp h₂
        cases hfail
    | some right =>
        -- what stands so far is the left operand of what follows
        obtain ⟨used, rfl, hright⟩ := ih.binary hbinary
        obtain ⟨used', hused', he⟩ := ih.chain (.operation (p := p) hmem hleft hright) h₂
        exact ⟨used', by simpa using hused', he⟩
  · cases h₁
    exact ⟨before, rfl, hleft⟩

/-- A unary expression is a sign before one, or a primary expression. -/
theorem unary_succ {e : Expr} (h : Parser.unary (n + 1) ts = (.done (some e), rest)) :
    (Phrase.unary e).Between ts rest := by
  obtain ⟨found, mid, hop, h₁⟩ := Run.bind_eq_done_iff.mp h
  rcases unaryOperator_done hop with ⟨op, p, rfl, rfl⟩ | ⟨rfl, rfl⟩
  · obtain ⟨found, mid', hunary, h₂⟩ := Run.bind_eq_done_iff.mp h₁
    cases found with
    | none =>
        obtain ⟨next, mid'', -, hfail⟩ := Run.bind_eq_done_iff.mp h₂
        cases hfail
    | some operand =>
        cases h₂
        obtain ⟨used, rfl, hoperand⟩ := ih.unary hunary
        exact ⟨⟨.symbol op.symbol, p⟩ :: used, rfl, .operator hoperand⟩
  · obtain ⟨used, rfl, he⟩ := ih.primary h₁
    exact ⟨used, rfl, .ofPrimary he⟩

/-- A primary expression is a parenthesis, a list, a call, a place that is read or a
literal, tried in this order. -/
theorem primary_succ {e : Expr} (h : Parser.primary (n + 1) ts = (.done (some e), rest)) :
    (Phrase.primary e).Between ts rest := by
  obtain ⟨called, mid, hcall, h₁⟩ := Run.bind_eq_done_iff.mp h
  cases called with
  | some e' =>
      cases h₁
      obtain ⟨used, rfl, he⟩ := ih.call hcall
      exact ⟨used, rfl, .ofCall he⟩
  | none =>
  obtain rfl := ih.call_none hcall
  obtain ⟨found, mid', hlvalue, h₂⟩ := Run.bind_eq_done_iff.mp h₁
  cases found with
  | some target =>
      cases h₂
      obtain ⟨used, rfl, htarget⟩ := ih.lvalue hlvalue
      exact ⟨used, rfl, .ofLValue htarget⟩
  | none =>
  obtain rfl := ih.lvalue_none hlvalue
  -- the forms that are left are told apart by the next token
  obtain ⟨next, mid'', hpeek, h₃⟩ := Run.bind_eq_done_iff.mp h₂
  obtain ⟨hnext, rfl⟩ := peek_done hpeek
  split at h₃
  next => cases h₃
  next p =>
    obtain ⟨ts', rfl⟩ := List.head?_eq_some_iff.mp hnext
    have h₄ := advance_bind_done h₃
    obtain ⟨elements, _, hseparated, hpure⟩ := Run.bind_eq_done_iff.mp h₄
    cases hpure
    obtain ⟨q, used, hused, helements⟩ := ih.separated hseparated
    exact ⟨⟨.symbol .openBracket, p⟩ :: (used ++ [⟨.symbol .closeBracket, q⟩]),
      by simpa using hused, .list helements⟩
  next p =>
    obtain ⟨ts', rfl⟩ := List.head?_eq_some_iff.mp hnext
    have h₄ := advance_bind_done h₃
    obtain ⟨inner, _, hexpression, h₅⟩ := Run.bind_eq_done_iff.mp h₄
    obtain ⟨_, _, hclose, hpure⟩ := Run.bind_eq_done_iff.mp h₅
    cases hpure
    obtain ⟨used, hused, hinner⟩ := ih.expression hexpression
    obtain ⟨q, rfl⟩ := expect_done hclose
    exact ⟨⟨.symbol .openParen, p⟩ :: (used ++ [⟨.symbol .closeParen, q⟩]),
      by simpa using hused, .parentheses hinner⟩
  next lexeme p _ _ =>
    obtain ⟨ts', rfl⟩ := List.head?_eq_some_iff.mp hnext
    obtain ⟨rfl, value, hvalue, rfl⟩ := literal_done h₃
    exact ⟨[⟨lexeme, p⟩], rfl, .literal hvalue⟩

/-- A place is a name, or a name with an index in brackets. -/
theorem lvalue_succ {target : LValue}
    (h : Parser.lvalue (n + 1) ts = (.done (some target), rest)) :
    (Phrase.lvalue target).Between ts rest := by
  obtain ⟨found, mid, hhead, h₁⟩ := Run.bind_eq_done_iff.mp h
  rcases lvalueHead_done hhead with ⟨lexeme, p, name, rfl, hname, rfl⟩ | ⟨rfl, rfl⟩
  · obtain ⟨bracket, mid', heat, h₂⟩ := Run.bind_eq_done_iff.mp h₁
    rcases eat_done heat with ⟨rfl, q, rfl⟩ | ⟨rfl, -, rfl⟩
    · obtain ⟨index, _, hexpression, h₃⟩ := Run.bind_eq_done_iff.mp h₂
      obtain ⟨_, _, hclose, hpure⟩ := Run.bind_eq_done_iff.mp h₃
      cases hpure
      obtain ⟨used, rfl, hindex⟩ := ih.expression hexpression
      obtain ⟨q', rfl⟩ := expect_done hclose
      exact ⟨⟨lexeme, p⟩ :: ⟨.symbol .openBracket, q⟩ :: (used ++ [⟨.symbol .closeBracket, q'⟩]),
        by simp, .element hname hindex⟩
    · cases h₂
      exact ⟨[⟨lexeme, p⟩], rfl, .named hname⟩
  · cases h₁

omit ih in
/-- Where there is no place, nothing is taken. -/
theorem lvalue_none_succ (h : Parser.lvalue (n + 1) ts = (.done none, rest)) : rest = ts := by
  obtain ⟨found, mid, hhead, h₁⟩ := Run.bind_eq_done_iff.mp h
  rcases lvalueHead_done hhead with ⟨lexeme, p, name, rfl, hname, rfl⟩ | ⟨rfl, rfl⟩
  · obtain ⟨bracket, mid', heat, h₂⟩ := Run.bind_eq_done_iff.mp h₁
    cases bracket with
    | true =>
        obtain ⟨index, _, hexpression, h₃⟩ := Run.bind_eq_done_iff.mp h₂
        obtain ⟨_, _, hclose, hpure⟩ := Run.bind_eq_done_iff.mp h₃
        cases hpure
    | false => cases h₂
  · cases h₁
    rfl

/-- A call is a name with arguments in parentheses. -/
theorem call_succ {e : Expr} (h : Parser.call (n + 1) ts = (.done (some e), rest)) :
    (Phrase.call e).Between ts rest := by
  obtain ⟨found, mid, hhead, h₁⟩ := Run.bind_eq_done_iff.mp h
  rcases callHead_done hhead with ⟨p, name, q, rfl, rfl⟩ | ⟨rfl, rfl⟩
  · obtain ⟨arguments, _, hseparated, hpure⟩ := Run.bind_eq_done_iff.mp h₁
    cases hpure
    obtain ⟨q', used, rfl, harguments⟩ := ih.separated hseparated
    refine ⟨⟨.identifier name, p⟩ :: ⟨.symbol .openParen, q⟩ ::
      (used ++ [⟨.symbol .closeParen, q'⟩]), by simp, .call harguments⟩
  · cases h₁

omit ih in
/-- Where there is no call, nothing is taken. -/
theorem call_none_succ (h : Parser.call (n + 1) ts = (.done none, rest)) : rest = ts := by
  obtain ⟨found, mid, hhead, h₁⟩ := Run.bind_eq_done_iff.mp h
  rcases callHead_done hhead with ⟨p, name, q, rfl, rfl⟩ | ⟨rfl, rfl⟩
  · obtain ⟨arguments, _, hseparated, hpure⟩ := Run.bind_eq_done_iff.mp h₁
    cases hpure
  · cases h₁
    rfl

/-- Elements up to a closing mark: none, or some with commas between. -/
theorem separated_succ {closing : Symbol} {es : List Expr}
    (h : Parser.separated (n + 1) closing ts = (.done es, rest)) :
    ∃ q, (Phrase.elements es).Between ts (⟨.symbol closing, q⟩ :: rest) := by
  obtain ⟨found, mid, heat, h₁⟩ := Run.bind_eq_done_iff.mp h
  rcases eat_done heat with ⟨rfl, q, rfl⟩ | ⟨rfl, -, rfl⟩
  · cases h₁
    exact ⟨q, [], rfl, .noElements⟩
  · obtain ⟨q, used, rfl, hes⟩ := ih.separated1 h₁
    exact ⟨q, used, rfl, .ofElements1 hes⟩

/-- One element or more: the first, and those behind its comma. -/
theorem separated1_succ {closing : Symbol} {es : List Expr}
    (h : Parser.separated1 (n + 1) closing ts = (.done es, rest)) :
    ∃ q, (Phrase.elements1 es).Between ts (⟨.symbol closing, q⟩ :: rest) := by
  obtain ⟨first, mid, hexpression, h₁⟩ := Run.bind_eq_done_iff.mp h
  obtain ⟨used, rfl, hfirst⟩ := ih.expression hexpression
  obtain ⟨found, mid', heat, h₂⟩ := Run.bind_eq_done_iff.mp h₁
  rcases eat_done heat with ⟨rfl, q, rfl⟩ | ⟨rfl, -, rfl⟩
  · obtain ⟨others, _, hseparated, hpure⟩ := Run.bind_eq_done_iff.mp h₂
    cases hpure
    obtain ⟨q', used', rfl, hothers⟩ := ih.separated1 hseparated
    exact ⟨q', used ++ ⟨.symbol .comma, q⟩ :: used', by simp, .moreElements hfirst hothers⟩
  · obtain ⟨_, _, hclose, hpure⟩ := Run.bind_eq_done_iff.mp h₂
    cases hpure
    obtain ⟨q', rfl⟩ := expect_done hclose
    exact ⟨q', used, rfl, .lastElement hfirst⟩

end ExpressionsSound

/-- **Expressions are read by the grammar.** -/
theorem expressionsSound (n : Nat) : ExpressionsSound n := by
  induction n with
  | zero =>
      constructor <;> intros <;> rename_i h
      all_goals cases h
  | succ n ih =>
      exact ⟨ih.expression_succ, ih.optionalExpression_succ, ih.conditional_succ, ih.binary_succ,
        ih.chain_succ, ih.unary_succ, ih.primary_succ, ih.lvalue_succ,
        ExpressionsSound.lvalue_none_succ,
        ih.call_succ, ExpressionsSound.call_none_succ, ih.separated_succ, ih.separated1_succ⟩

end Parser

end Scriptlet
