import Scriptlet.Proofs.Grammar

/-!
# What the parser does with single tokens

For every parser of single tokens, and for the two combinators, one lemma that
says which tokens it was run on if it gave a value: the tokens that it took, in
front of those that it left.  The second part goes the other way, from the
tokens to what the parser does with them.
-/

namespace Scriptlet.Parser

variable {α : Type} {ts rest : List Token}

/-- A symbol comes next if a token of it stands in front. -/
theorem nextIs_eq_true_iff {mark : Symbol} :
    nextIs mark ts = true ↔ ∃ p rest, ts = ⟨.symbol mark, p⟩ :: rest := by
  cases ts with
  | nil => simp [nextIs]
  | cons token ts =>
      obtain ⟨lexeme, p⟩ := token
      simp [nextIs]

/-- Looking at the next token gives the one in front and takes nothing. -/
theorem peek_done {next : Option Token} (h : peek ts = (.done next, rest)) :
    ts.head? = next ∧ rest = ts := by
  cases h
  exact ⟨rfl, rfl⟩

/-- A parser that goes on after a token goes on with those behind it. -/
theorem advance_bind_done {f : Unit → Parser α} {token : Token} {a : α}
    (h : (advance >>= f) (token :: ts) = (.done a, rest)) : f () ts = (.done a, rest) := by
  obtain ⟨_, _, hadvance, hgo⟩ := Run.bind_eq_done_iff.mp h
  cases hadvance
  exact hgo

/-- A mark was found and taken, or another token is in front and was left. -/
theorem eat_done {mark : Symbol} {found : Bool} (h : eat mark ts = (.done found, rest)) :
    (found = true ∧ ∃ p, ts = ⟨.symbol mark, p⟩ :: rest) ∨
      (found = false ∧ nextIs mark ts = false ∧ rest = ts) := by
  unfold eat at h
  split at h
  next hnext =>
    obtain ⟨p, rest', rfl⟩ := nextIs_eq_true_iff.mp hnext
    cases h
    exact .inl ⟨rfl, p, rfl⟩
  next hnext =>
    cases h
    exact .inr ⟨rfl, Bool.eq_false_iff.mpr hnext, rfl⟩

/-- Failing gives no value. -/
theorem failAtNext_ne_done {cause : ParseError.Cause} {a : α} :
    failAtNext cause ts ≠ (.done a, rest) := by
  unfold failAtNext
  split <;> simp

/-- A mark that must be there was in front. -/
theorem expect_done {mark : Symbol} (h : expect mark ts = (.done (), rest)) :
    ∃ p, ts = ⟨.symbol mark, p⟩ :: rest := by
  obtain ⟨found, mid, heat, hgo⟩ := Run.bind_eq_done_iff.mp h
  rcases eat_done heat with ⟨rfl, p, rfl⟩ | ⟨rfl, -, rfl⟩
  · cases hgo
    exact ⟨p, rfl⟩
  · exact absurd hgo failAtNext_ne_done

/-- A keyword was found and taken, or another token is in front and was left. -/
theorem eatKeyword_done {word : Keyword} {found : Option Position}
    (h : eatKeyword word ts = (.done found, rest)) :
    (∃ p, found = some p ∧ ts = ⟨.keyword word, p⟩ :: rest) ∨
      (found = none ∧ rest = ts ∧ ∀ p rest', ts ≠ ⟨.keyword word, p⟩ :: rest') := by
  unfold eatKeyword at h
  split at h
  next token rest' =>
    obtain ⟨lexeme, p⟩ := token
    split at h
    next hword =>
      cases h
      rw [beq_iff_eq] at hword
      exact .inl ⟨p, rfl, by rw [← hword]⟩
    next hword =>
      cases h
      refine .inr ⟨rfl, rfl, ?_⟩
      rintro q rest'' heq
      cases heq
      exact hword (beq_self_eq_true _)
  next =>
    cases h
    exact .inr ⟨rfl, rfl, by simp⟩

/-- A keyword that must be there was in front. -/
theorem expectKeyword_done {word : Keyword} (h : expectKeyword word ts = (.done (), rest)) :
    ∃ p, ts = ⟨.keyword word, p⟩ :: rest := by
  obtain ⟨found, mid, heat, hgo⟩ := Run.bind_eq_done_iff.mp h
  rcases eatKeyword_done heat with ⟨p, rfl, rfl⟩ | ⟨rfl, rfl, -⟩
  · cases hgo
    exact ⟨p, rfl⟩
  · exact absurd hgo failAtNext_ne_done

/-- The name that was read is that of the identifier in front. -/
theorem identifier_done {name : String} (h : identifier ts = (.done name, rest)) :
    ∃ p, ts = ⟨.identifier name, p⟩ :: rest := by
  unfold identifier at h
  split at h
  next p rest' =>
    cases h
    exact ⟨p, rfl⟩
  next => exact absurd h failAtNext_ne_done

/-- The operator that was found is one of those asked for; otherwise nothing was taken. -/
theorem operatorAmong_done {ops : List BinaryOp} {found : Option (BinaryOp × Position)}
    (h : operatorAmong ops ts = (.done found, rest)) :
    (∃ op p, found = some (op, p) ∧ op ∈ ops ∧ ts = ⟨.symbol op.symbol, p⟩ :: rest) ∨
      (found = none ∧ rest = ts) := by
  unfold operatorAmong at h
  split at h
  next mark p rest' =>
    split at h
    next op hop =>
      obtain rfl := BinaryOp.ofSymbol?_eq_some_iff.mp hop
      split at h
      next hmem =>
        cases h
        exact .inl ⟨op, p, rfl, by simpa using hmem, rfl⟩
      next =>
        cases h
        exact .inr ⟨rfl, rfl⟩
    next =>
      cases h
      exact .inr ⟨rfl, rfl⟩
  next =>
    cases h
    exact .inr ⟨rfl, rfl⟩

/-- The sign that was found is that in front; otherwise nothing was taken. -/
theorem unaryOperator_done {found : Option (UnaryOp × Position)}
    (h : unaryOperator ts = (.done found, rest)) :
    (∃ op p, found = some (op, p) ∧ ts = ⟨.symbol op.symbol, p⟩ :: rest) ∨
      (found = none ∧ rest = ts) := by
  unfold unaryOperator at h
  split at h
  next mark p rest' =>
    split at h
    next op hop =>
      obtain rfl := UnaryOp.ofSymbol?_eq_some_iff.mp hop
      cases h
      exact .inl ⟨op, p, rfl, rfl⟩
    next =>
      cases h
      exact .inr ⟨rfl, rfl⟩
  next =>
    cases h
    exact .inr ⟨rfl, rfl⟩

/-- A call begins with a name and a parenthesis; otherwise nothing was taken. -/
theorem callHead_done {found : Option (Position × String)}
    (h : callHead ts = (.done found, rest)) :
    (∃ p name q, found = some (p, name) ∧
        ts = ⟨.identifier name, p⟩ :: ⟨.symbol .openParen, q⟩ :: rest) ∨
      (found = none ∧ rest = ts) := by
  unfold callHead at h
  split at h
  next name p q rest' =>
    cases h
    exact .inl ⟨p, name, q, rfl, rfl⟩
  next =>
    cases h
    exact .inr ⟨rfl, rfl⟩

/-- A place to assign to begins with a token that names a variable; otherwise nothing was
taken. -/
theorem lvalueHead_done {found : Option (Position × String)}
    (h : lvalueHead ts = (.done found, rest)) :
    (∃ lexeme p name, found = some (p, name) ∧ lexeme.lvalueName? = some name ∧
        ts = ⟨lexeme, p⟩ :: rest) ∨
      (found = none ∧ rest = ts) := by
  unfold lvalueHead at h
  split at h
  next name p rest' =>
    cases h
    exact .inl ⟨.identifier name, p, name, rfl, rfl, rfl⟩
  next p rest' =>
    cases h
    exact .inl ⟨.symbol .ellipsis, p, Name.variadic, rfl, rfl, rfl⟩
  next =>
    cases h
    exact .inr ⟨rfl, rfl⟩

/-- The literal that was read has the value that its token spells out. -/
theorem literal_done {lexeme : Lexeme} {p : Position} {e : Expr}
    (h : literal lexeme p ts = (.done (some e), rest)) :
    rest = ts.tail ∧ ∃ value, Literal.read? lexeme = some (.ok value) ∧ e = .literal p value := by
  unfold literal at h
  rcases hvalue : Literal.read? lexeme with _ | cause | value <;> rw [hvalue] at h <;> cases h
  exact ⟨rfl, value, rfl, rfl⟩

/-- What is required was given. -/
theorem required_done {cause : ParseError.Cause} {p : Parser (Option α)} {a : α}
    (h : required cause p ts = (.done a, rest)) : p ts = (.done (some a), rest) := by
  unfold required at h
  split at h
  next => exact absurd h failAtNext_ne_done
  next token ts' =>
    obtain ⟨result, mid, hp, hgo⟩ := Run.bind_eq_done_iff.mp h
    cases result with
    | none => cases hgo
    | some b =>
        cases hgo
        exact hp

/-- An lvalue is taken with the `=` after it, or nothing is. -/
theorem assignmentHead_done {lvalue : Parser (Option LValue)} {found : Option LValue}
    (h : assignmentHead lvalue ts = (.done found, rest)) :
    (∃ target q, found = some target ∧
        lvalue ts = (.done (some target), ⟨.symbol .assign, q⟩ :: rest)) ∨
      (found = none ∧ rest = ts) := by
  unfold assignmentHead at h
  split at h
  next target mid hlvalue =>
    split at h
    next hnext =>
      obtain ⟨q, rest', rfl⟩ := nextIs_eq_true_iff.mp hnext
      cases h
      exact .inl ⟨target, q, rfl, hlvalue⟩
    next =>
      cases h
      exact .inr ⟨rfl, rfl⟩
  next => cases h
  next =>
    cases h
    exact .inr ⟨rfl, rfl⟩

/-! ## From the tokens -/

/-- A mark in front is taken. -/
theorem eat_symbol (mark : Symbol) (p : Position) (ts : List Token) :
    eat mark (⟨.symbol mark, p⟩ :: ts) = (.done true, ts) := by
  simp [eat, nextIs]

/-- A mark that is not in front is not found. -/
theorem eat_of_nextIs_eq_false {mark : Symbol} (h : nextIs mark ts = false) :
    eat mark ts = (.done false, ts) := by
  simp [eat, h]

/-- A mark that must be there is taken if it is. -/
theorem expect_symbol (mark : Symbol) (p : Position) (ts : List Token) :
    expect mark (⟨.symbol mark, p⟩ :: ts) = (.done (), ts) :=
  Run.bind_eq_of_done (eat_symbol mark p ts) rfl

/-- A keyword in front is taken, and its place is given. -/
theorem eatKeyword_keyword (word : Keyword) (p : Position) (ts : List Token) :
    eatKeyword word (⟨.keyword word, p⟩ :: ts) = (.done (some p), ts) := by
  simp [eatKeyword]

/-- A keyword that is not in front is not found. -/
theorem eatKeyword_of_ne {word : Keyword} (h : ∀ p rest, ts ≠ ⟨.keyword word, p⟩ :: rest) :
    eatKeyword word ts = (.done none, ts) := by
  unfold eatKeyword
  split
  next token rest =>
    have hne : token.lexeme ≠ .keyword word := fun heq => h token.position rest (by rw [← heq])
    simp [hne]
  next => rfl

/-- A keyword that must be there is taken if it is. -/
theorem expectKeyword_keyword (word : Keyword) (p : Position) (ts : List Token) :
    expectKeyword word (⟨.keyword word, p⟩ :: ts) = (.done (), ts) :=
  Run.bind_eq_of_done (eatKeyword_keyword word p ts) rfl

/-- The sign of an operator of the level is taken as that operator. -/
theorem operatorAmong_symbol {ops : List BinaryOp} {op : BinaryOp} (h : op ∈ ops) (p : Position)
    (ts : List Token) :
    operatorAmong ops (⟨.symbol op.symbol, p⟩ :: ts) = (.done (some (op, p)), ts) := by
  have hop : BinaryOp.ofSymbol? op.symbol = some op := BinaryOp.ofSymbol?_eq_some_iff.mpr rfl
  simp [operatorAmong, hop, h]

/-- If no operator of the level is in front, none is found. -/
theorem operatorAmong_of_nextIs_eq_false {ops : List BinaryOp}
    (h : ∀ op ∈ ops, nextIs op.symbol ts = false) : operatorAmong ops ts = (.done none, ts) := by
  unfold operatorAmong
  split
  next mark p rest =>
    split
    next op hop =>
      obtain rfl := BinaryOp.ofSymbol?_eq_some_iff.mp hop
      have hmem : op ∉ ops := fun hmem => by simpa [nextIs] using h op hmem
      simp [hmem]
    next => rfl
  next => rfl

/-- The sign of a unary operator is taken as that operator. -/
theorem unaryOperator_symbol (op : UnaryOp) (p : Position) (ts : List Token) :
    unaryOperator (⟨.symbol op.symbol, p⟩ :: ts) = (.done (some (op, p)), ts) := by
  have hop : UnaryOp.ofSymbol? op.symbol = some op := UnaryOp.ofSymbol?_eq_some_iff.mpr rfl
  simp [unaryOperator, hop]

/-- If no unary operator is in front, none is found. -/
theorem unaryOperator_of_nextIs_eq_false (h : ∀ op : UnaryOp, nextIs op.symbol ts = false) :
    unaryOperator ts = (.done none, ts) := by
  unfold unaryOperator
  split
  next mark p rest =>
    split
    next op hop =>
      obtain rfl := UnaryOp.ofSymbol?_eq_some_iff.mp hop
      simpa [nextIs] using h op
    next => rfl
  next => rfl

/-- A token without a parenthesis behind it begins no call. -/
theorem callHead_of_nextIs_eq_false {token : Token} (h : nextIs .openParen ts = false) :
    callHead (token :: ts) = (.done none, token :: ts) := by
  unfold callHead
  split
  next heq =>
    cases heq
    simp [nextIs] at h
  next => rfl

/-- A token that is no name begins no call. -/
theorem callHead_of_ne_identifier {lexeme : Lexeme} (h : ∀ name, lexeme ≠ .identifier name)
    (p : Position) (ts : List Token) :
    callHead (⟨lexeme, p⟩ :: ts) = (.done none, ⟨lexeme, p⟩ :: ts) := by
  unfold callHead
  split
  next name _ _ _ heq =>
    cases heq
    exact absurd rfl (h name)
  next => rfl

/-- A token that names a variable begins a place to assign to. -/
theorem lvalueHead_of_eq_some {lexeme : Lexeme} {name : String}
    (h : lexeme.lvalueName? = some name) (p : Position) (ts : List Token) :
    lvalueHead (⟨lexeme, p⟩ :: ts) = (.done (some (p, name)), ts) := by
  unfold Lexeme.lvalueName? at h
  split at h <;> cases h <;> rfl

/-- A token that names no variable begins no place to assign to. -/
theorem lvalueHead_of_eq_none {lexeme : Lexeme} (h : lexeme.lvalueName? = none) (p : Position)
    (ts : List Token) : lvalueHead (⟨lexeme, p⟩ :: ts) = (.done none, ⟨lexeme, p⟩ :: ts) := by
  unfold lvalueHead
  split
  next heq =>
    cases heq
    cases h
  next heq =>
    cases heq
    cases h
  next => rfl

/-- A token that spells out a value is read as a literal of it. -/
theorem literal_of_read? {lexeme : Lexeme} {value : Literal}
    (h : Literal.read? lexeme = some (.ok value)) (p : Position) (token : Token)
    (ts : List Token) : literal lexeme p (token :: ts) = (.done (some (.literal p value)), ts) := by
  unfold literal
  rw [h]
  rfl

/-- What is required is given if it is found. -/
theorem required_of_done {cause : ParseError.Cause} {p : Parser (Option α)} {a : α}
    (h : p ts = (.done (some a), rest)) (hts : ts ≠ []) :
    required cause p ts = (.done a, rest) := by
  cases ts with
  | nil => exact absurd rfl hts
  | cons token ts => exact Run.bind_eq_of_done h rfl

/-- A place with `=` behind it is what an assignment begins with. -/
theorem assignmentHead_of_assign {lvalue : Parser (Option LValue)} {target : LValue}
    {q : Position} (h : lvalue ts = (.done (some target), ⟨.symbol .assign, q⟩ :: rest)) :
    assignmentHead lvalue ts = (.done (some target), rest) := by
  simp [assignmentHead, h, nextIs]

/-- Without `=` behind the place there is no assignment, and the place is left too. -/
theorem assignmentHead_of_nextIs_eq_false {lvalue : Parser (Option LValue)}
    {found : Option LValue} (h : lvalue ts = (.done found, rest))
    (hnext : nextIs .assign rest = false) : assignmentHead lvalue ts = (.done none, ts) := by
  cases found <;> simp [assignmentHead, h, hnext]

/-- Without a place there is no assignment. -/
theorem assignmentHead_of_none {lvalue : Parser (Option LValue)}
    (h : lvalue ts = (.done none, rest)) : assignmentHead lvalue ts = (.done none, ts) := by
  simp [assignmentHead, h]

end Scriptlet.Parser
