import Scriptlet.Proofs.TokenStep

/-!
# Where phrases begin and end

The parser sees a phrase together with the tokens after it, and takes all that
it can.  `Phrase.continuations` lists the symbols that would carry a phrase on,
and `Phrase.EndsBefore` says that none of them comes next.  For statements the
one word that matters is `else` (`Statement.EndsBefore`).

The other side of a boundary is the first token of what follows: an expression
never begins with a symbol that closes one, and a statement begins with neither
`else` nor a closing brace.
-/

namespace Scriptlet

/-! ## Ends -/

/-- Whether a symbol stands only after a whole expression. -/
def Symbol.endsExpression : Symbol → Bool
  | .closeParen => true
  | .closeBracket => true
  | .comma => true
  | .semicolon => true
  | .colon => true
  | _ => false

namespace Phrase

/-- The symbols that could carry on a phrase. -/
def continuations : Phrase → List Symbol
  | .expression _ =>
    .assign :: .question :: .openBracket :: .openParen ::
      BinaryOp.levels.flatten.map BinaryOp.symbol
  | .conditional _ =>
    .question :: .openBracket :: .openParen :: BinaryOp.levels.flatten.map BinaryOp.symbol
  | .binary levels _ => .openBracket :: .openParen :: levels.flatten.map BinaryOp.symbol
  | .unary _ => [.openBracket, .openParen]
  | .primary _ => [.openBracket, .openParen]
  | .lvalue _ => [.openBracket]
  | .call _ => []
  | .elements _ => []
  | .elements1 _ => []

/-- No symbol at the front of `rest` carries on the phrase. -/
def EndsBefore (phrase : Phrase) (rest : List Token) : Prop :=
  ∀ mark ∈ phrase.continuations, Parser.nextIs mark rest = false

/-- Where a phrase ends, one that fewer symbols carry on ends as well. -/
theorem EndsBefore.mono {phrase phrase' : Phrase} {rest : List Token}
    (h : phrase.EndsBefore rest) (hsub : phrase'.continuations ⊆ phrase.continuations) :
    phrase'.EndsBefore rest :=
  fun mark hmark => h mark (hsub hmark)

/-- A symbol that does not carry on a phrase ends it. -/
theorem endsBefore_symbol {phrase : Phrase} {mark : Symbol} (h : mark ∉ phrase.continuations)
    (q : Position) (rest : List Token) : phrase.EndsBefore (⟨.symbol mark, q⟩ :: rest) := by
  intro mark' hmark'
  have hne : mark ≠ mark' := fun heq => h (heq ▸ hmark')
  simpa [Parser.nextIs] using hne

/-- A symbol that ends expressions carries on no phrase. -/
theorem endsExpression_of_mem_continuations {phrase : Phrase} {mark : Symbol}
    (h : mark ∈ phrase.continuations) : mark.endsExpression = false := by
  have hoperator : ∀ ops : List BinaryOp, mark ∈ ops.map BinaryOp.symbol →
      mark.endsExpression = false := by
    intro ops hmem
    obtain ⟨op, -, rfl⟩ := List.mem_map.mp hmem
    cases op <;> rfl
  cases phrase with
  | expression e =>
      simp only [continuations, List.mem_cons] at h
      rcases h with rfl | rfl | rfl | rfl | h
      iterate 4 rfl
      exact hoperator _ h
  | conditional e =>
      simp only [continuations, List.mem_cons] at h
      rcases h with rfl | rfl | rfl | h
      iterate 3 rfl
      exact hoperator _ h
  | binary levels e =>
      simp only [continuations, List.mem_cons] at h
      rcases h with rfl | rfl | h
      iterate 2 rfl
      exact hoperator _ h
  | unary e | primary e =>
      simp only [continuations, List.mem_cons, List.not_mem_nil, or_false] at h
      rcases h with rfl | rfl <;> rfl
  | lvalue target =>
      simp only [continuations, List.mem_cons, List.not_mem_nil, or_false] at h
      subst h
      rfl
  | call e | elements es | elements1 es => cases h

/-- Every phrase ends before a symbol that ends expressions. -/
theorem endsBefore_of_endsExpression {mark : Symbol} (h : mark.endsExpression = true)
    (phrase : Phrase) (q : Position) (rest : List Token) :
    phrase.EndsBefore (⟨.symbol mark, q⟩ :: rest) := by
  refine endsBefore_symbol (fun hmem => ?_) q rest
  rw [endsExpression_of_mem_continuations hmem] at h
  cases h

/-- An operation goes on with an index, with arguments or with an operator of its level or a
tighter one. -/
theorem mem_continuations_binary {levels : List (List BinaryOp)} {e : Expr} {mark : Symbol} :
    mark ∈ (binary levels e).continuations ↔
      mark = .openBracket ∨ mark = .openParen ∨ ∃ op ∈ levels.flatten, op.symbol = mark := by
  simp only [continuations, List.mem_cons, List.mem_map]

/-- Where a level ends, no operator of it follows. -/
theorem EndsBefore.nextIs_operator {ops : List BinaryOp} {tighter : List (List BinaryOp)}
    {e : Expr} {rest : List Token} (h : (binary (ops :: tighter) e).EndsBefore rest)
    {op : BinaryOp} (hop : op ∈ ops) : Parser.nextIs op.symbol rest = false := by
  refine h op.symbol (mem_continuations_binary.mpr (.inr (.inr ⟨op, ?_, rfl⟩)))
  rw [List.flatten_cons]
  exact List.mem_append_left _ hop

/-- Where a level ends, the tighter ones do. -/
theorem EndsBefore.tighter {ops : List BinaryOp} {tighter : List (List BinaryOp)} {e e' : Expr}
    {rest : List Token} (h : (binary (ops :: tighter) e).EndsBefore rest) :
    (binary tighter e').EndsBefore rest := by
  refine h.mono fun mark hmark => ?_
  rw [mem_continuations_binary] at hmark ⊢
  rcases hmark with rfl | rfl | ⟨op, hop, rfl⟩
  · exact .inl rfl
  · exact .inr (.inl rfl)
  · refine .inr (.inr ⟨op, ?_, rfl⟩)
    rw [List.flatten_cons]
    exact List.mem_append_right _ hop

/-- A question mark ends the condition in front of it. -/
theorem endsBefore_question (levels : List (List BinaryOp)) (e : Expr) (q : Position)
    (rest : List Token) : (binary levels e).EndsBefore (⟨.symbol .question, q⟩ :: rest) := by
  refine endsBefore_symbol ?_ q rest
  rw [mem_continuations_binary]
  rintro (heq | heq | ⟨op, -, heq⟩)
  · cases heq
  · cases heq
  · cases op <;> cases heq

/-- An operator of a level ends what is tighter, since no operator is in two levels. -/
theorem endsBefore_operator {ops : List BinaryOp} {tighter : List (List BinaryOp)} {op : BinaryOp}
    (hnodup : (ops :: tighter).flatten.Nodup) (hop : op ∈ ops) (e : Expr) (p : Position)
    (rest : List Token) : (binary tighter e).EndsBefore (⟨.symbol op.symbol, p⟩ :: rest) := by
  refine endsBefore_symbol ?_ p rest
  rw [mem_continuations_binary]
  rintro (heq | heq | ⟨op', hop', heq⟩)
  · cases op <;> cases heq
  · cases op <;> cases heq
  · have hsame : op' = op := by
      have h := BinaryOp.ofSymbol?_eq_some_iff.mpr heq.symm
      rw [BinaryOp.ofSymbol?_eq_some_iff.mpr rfl] at h
      exact (Option.some.inj h).symm
    rw [List.flatten_cons, List.nodup_append] at hnodup
    exact hnodup.2.2 op hop op' hop' hsame.symm

end Phrase

/-- No token at the front of `rest` would become a part of the statement. -/
def Statement.EndsBefore (s : Statement) (rest : List Token) : Prop :=
  s.takesElse = true → ∀ p rest', rest ≠ ⟨.keyword .elseWord, p⟩ :: rest'

/-- A statement that takes no `else` ends before anything. -/
theorem Statement.endsBefore_of_takesElse {s : Statement} (h : s.takesElse = false)
    (rest : List Token) : s.EndsBefore rest := by
  intro htakes
  rw [h] at htakes
  cases htakes

/-! ## Beginnings -/

namespace Lexeme

/-- Only a name and `...` name variables. -/
theorem lvalueName?_eq_some_iff {lexeme : Lexeme} {name : String} :
    lexeme.lvalueName? = some name ↔
      lexeme = .identifier name ∨ (lexeme = .symbol .ellipsis ∧ name = Name.variadic) := by
  unfold lvalueName?
  split
  · simp
  · simp [eq_comm]
  next h₁ h₂ =>
    constructor
    · intro h
      cases h
    · rintro (rfl | ⟨rfl, -⟩)
      · exact absurd rfl (h₁ name)
      · exact absurd rfl h₂

/-- Whether an expression can begin with a token. -/
def startsExpression : Lexeme → Bool
  | .keyword _ => false
  | .symbol mark => [.ellipsis, .openBracket, .openParen, .minus, .bang, .tilde].contains mark
  | _ => true

/-- Whether a statement can begin with a token. -/
def startsStatement : Lexeme → Bool
  | .keyword word => !([.func, .inWord, .elseWord].contains word)
  | .symbol mark => [.ellipsis, .openBrace].contains mark
  | .identifier _ => true
  | _ => false

/-- An expression can begin with a name. -/
theorem startsExpression_of_lvalueName? {lexeme : Lexeme} {name : String}
    (h : lexeme.lvalueName? = some name) : lexeme.startsExpression = true := by
  rcases lvalueName?_eq_some_iff.mp h with rfl | ⟨rfl, -⟩ <;> rfl

/-- A statement can begin with a name. -/
theorem startsStatement_of_lvalueName? {lexeme : Lexeme} {name : String}
    (h : lexeme.lvalueName? = some name) : lexeme.startsStatement = true := by
  rcases lvalueName?_eq_some_iff.mp h with rfl | ⟨rfl, -⟩ <;> rfl

end Lexeme

/-- There is a first token, and it is one of those that `can` tells. -/
def StartsWith (can : Lexeme → Bool) (ts : List Token) : Prop :=
  ∃ token ts', ts = token :: ts' ∧ can token.lexeme = true

namespace StartsWith

variable {can : Lexeme → Bool} {ts : List Token}

/-- Tokens begin with the one in front. -/
theorem cons {token : Token} (h : can token.lexeme = true) (ts : List Token) :
    StartsWith can (token :: ts) :=
  ⟨token, ts, rfl, h⟩

/-- More tokens at the end do not change the first one. -/
theorem append (h : StartsWith can ts) (us : List Token) : StartsWith can (ts ++ us) := by
  obtain ⟨token, ts', rfl, htoken⟩ := h
  exact .cons htoken (ts' ++ us)

/-- Tokens with a first one are not none. -/
theorem ne_nil (h : StartsWith can ts) : ts ≠ [] := by
  obtain ⟨token, ts', rfl, -⟩ := h
  exact List.cons_ne_nil _ _

/-- A mark that cannot be first does not come next. -/
theorem nextIs_eq_false (h : StartsWith can ts) {mark : Symbol}
    (hmark : can (.symbol mark) = false) : Parser.nextIs mark ts = false := by
  obtain ⟨token, ts', rfl, htoken⟩ := h
  rw [Bool.eq_false_iff, Ne, Parser.nextIs_eq_true_iff]
  rintro ⟨p, rest, heq⟩
  cases heq
  rw [hmark] at htoken
  cases htoken

/-- A keyword that cannot be first does not come next. -/
theorem ne_keyword (h : StartsWith can ts) {word : Keyword} (hword : can (.keyword word) = false)
    (p : Position) (rest : List Token) : ts ≠ ⟨.keyword word, p⟩ :: rest := by
  obtain ⟨token, ts', rfl, htoken⟩ := h
  intro heq
  cases heq
  rw [hword] at htoken
  cases htoken

end StartsWith

/-- A token that spells out a value is not a keyword, a symbol or a name. -/
theorem Literal.lexeme_of_read? {lexeme : Lexeme} {value : Literal}
    (h : Literal.read? lexeme = some (.ok value)) :
    lexeme.startsExpression = true ∧ lexeme.lvalueName? = none ∧
      (∀ mark, lexeme ≠ .symbol mark) ∧ ∀ name, lexeme ≠ .identifier name := by
  cases lexeme with
  | string _ | double _ | integer _ | hexInteger _ | boolean _ =>
      simp [Lexeme.startsExpression, Lexeme.lvalueName?]
  | identifier _ | keyword _ | symbol _ => cases h

/-- Only an empty list of elements has no tokens; every other phrase begins as an
expression does. -/
theorem Phrase.Derives.startsWith {phrase : Phrase} {ts : List Token} (h : phrase.Derives ts) :
    phrase = .elements [] ∨ StartsWith Lexeme.startsExpression ts := by
  induction h with
  | noElements => exact .inl rfl
  | assignment _ _ ih _ | choice _ _ _ ih _ _ | operation _ _ _ ih _ | moreElements _ _ ih _ =>
      rcases ih with hempty | hstart
      · cases hempty
      · exact .inr (hstart.append _)
  | ofConditional _ ih | ofBinary _ ih | ofTighter _ ih | ofUnary _ ih | ofPrimary _ ih
  | ofCall _ ih | ofLValue _ ih | ofElements1 _ ih | lastElement _ ih =>
      rcases ih with hempty | hstart
      · cases hempty
      · exact .inr hstart
  | @operator op =>
      refine .inr (.cons ?_ _)
      cases op <;> rfl
  | literal hvalue => exact .inr (.cons (Literal.lexeme_of_read? hvalue).1 _)
  | list _ _ | parentheses _ _ | call _ _ => exact .inr (.cons rfl _)
  | named hname | element hname _ _ =>
      exact .inr (.cons (Lexeme.startsExpression_of_lvalueName? hname) _)

/-- A primary expression does not begin with a unary operator. -/
theorem Phrase.Derives.nextIs_unary {e : Expr} {ts : List Token} (h : (primary e).Derives ts)
    (op : UnaryOp) (rest : List Token) : Parser.nextIs op.symbol (ts ++ rest) = false := by
  have hlvalue : ∀ {lexeme : Lexeme} {name : String}, lexeme.lvalueName? = some name →
      ∀ p us, Parser.nextIs op.symbol (⟨lexeme, p⟩ :: us) = false := by
    intro lexeme name hname p us
    rcases Lexeme.lvalueName?_eq_some_iff.mp hname with rfl | ⟨rfl, -⟩
    · rfl
    · cases op <;> rfl
  cases h with
  | ofCall hcall =>
      cases hcall
      rfl
  | ofLValue htarget =>
      cases htarget with
      | named hname | element hname _ => exact hlvalue hname _ _
  | literal hvalue =>
      have hne := (Literal.lexeme_of_read? hvalue).2.2.1 op.symbol
      simpa [Parser.nextIs] using hne
  | list _ | parentheses _ => cases op <;> rfl

/-- A statement begins with a token that statements begin with. -/
theorem Passage.Derives.startsWith {passage : Passage} {ts : List Token}
    (h : passage.Derives ts) {s : Statement} (hs : passage = .statement s) :
    StartsWith Lexeme.startsStatement ts := by
  cases h with
  | noStatements | moreStatements => cases hs
  | assignment htarget _ =>
      cases htarget with
      | named hname | element hname _ =>
          exact .cons (Lexeme.startsStatement_of_lvalueName? hname) _
  | call hcall =>
      cases hcall with
      | call _ => exact .cons rfl _
  | declaration | initialization _ | forLoop _ _ _ _ _ | forEach _ _ _ | ifOnly _ _
  | ifElse _ _ _ _ | whileLoop _ _ | block _ | returnNothing | returnValue _ | breaks
  | continues => exact .cons rfl _

end Scriptlet
