import Scriptlet.Proofs.LikeParsing
import Scriptlet.Proofs.ParserSoundness
import Scriptlet.Proofs.TokenPlaces

/-!
# Where reading a script fails

An error of the parser has the place of a token that it was given.  There are two
exceptions.  Where the tokens end too early there is no token to point at; for
this cause the place of the last token is filled in afterwards.  And there are
three tokens after which a missing successor is not taken for an early end: a
unary operator, the `...` of a parameter list, and the parenthesis that closes
one (`ParseError.Unplaced`).  If such a token is the last one, the error has no
place at all.

That a number is out of range is said by one parser only, the one of literals,
and this parser leaves the token of the number in front.  Every other parser
passes the error on with the tokens that are left, or keeps silent about it.

Both are proved along with each other: every parser leaves an end of its tokens,
and an error that it raises concerns these tokens and, if it is about a number,
has the token of the number in front of what is left (`Parser.Locates`).
-/

namespace Scriptlet

/-! ## Errors about tokens -/

namespace ParseError

/-- The cause is given without a place if the lexeme is the last one. -/
inductive Unplaced : Lexeme → Cause → Prop where
  | operator (op : UnaryOp) : Unplaced (.symbol op.symbol) .subExpressionExpected
  | ellipsis : Unplaced (.symbol .ellipsis) .ellipsisNotLast
  | parameters : Unplaced (.symbol .closeParen) (.symbolExpected .openBrace)

/-- All causes but one are about tokens. -/
def Cause.aboutTokens : Cause → Bool
  | .unknownToken _ => false
  | _ => true

/-- The causes that lie in the order of the tokens, neither in a character nor in a number. -/
def Cause.grammatical : Cause → Bool
  | .unknownToken _ => false
  | .literalOutOfRange _ => false
  | _ => true

/-- The error is at one of the tokens, or behind the last of them. -/
inductive Concerns (ts : List Token) : ParseError → Prop where
  | token {cause : Cause} {t : Token} (h : t ∈ ts) (hcause : cause.aboutTokens = true := by rfl) :
      Concerns ts ⟨cause, some t.position⟩
  | ending : Concerns ts ⟨.unexpectedEnd, none⟩
  | unplaced {cause : Cause} (before : List Token) {last : Token} (hts : ts = before ++ [last])
      (h : Unplaced last.lexeme cause) : Concerns ts ⟨cause, none⟩

/-- An error that concerns an end of the tokens concerns them. -/
theorem Concerns.mono {ts all : List Token} {e : ParseError} (h : Concerns ts e)
    (hts : ts <:+ all) : Concerns all e := by
  cases h with
  | token h hcause => exact .token (hts.subset h) hcause
  | ending => exact .ending
  | unplaced before heq h =>
      obtain ⟨used, rfl⟩ := hts
      exact .unplaced (used ++ before) (by rw [heq, List.append_assoc]) h

/-- A cause that lies in the order of tokens is about tokens. -/
theorem Cause.aboutTokens_of_grammatical {cause : Cause} (h : cause.grammatical = true) :
    cause.aboutTokens = true := by
  cases cause with
  | unknownToken _ => cases h
  | _ => rfl

end ParseError

/-- The error is the one with which the token is refused as a literal. -/
structure Token.Unreadable (t : Token) (e : ParseError) : Prop where
  position : e.position = some t.position
  read? : Literal.read? t.lexeme = some (.error e.cause)

namespace ParseError

/-- What is known of an error that is raised by a parser which was given the tokens `all` and has
left `rest`. -/
structure Raised (all rest : List Token) (e : ParseError) : Prop where
  suffix : rest <:+ all
  concerns : e.Concerns all
  /-- The token of a number that is wrong is the next one of those that are left. -/
  unreadable : e.cause.grammatical = false → ∃ t ∈ rest.head?, t.Unreadable e

namespace Raised

variable {all ts rest : List Token} {cause : Cause} {e : ParseError}

/-- An error of the grammar at one of the tokens. -/
theorem token (hrest : rest <:+ all) {t : Token} (ht : t ∈ all)
    (hcause : cause.grammatical = true := by rfl) :
    Raised all rest ⟨cause, some t.position⟩ where
  suffix := hrest
  concerns := .token ht (Cause.aboutTokens_of_grammatical hcause)
  unreadable hnumber := absurd hcause (by simp [hnumber])

/-- An error of the grammar without a place. -/
theorem unlocated (hrest : rest <:+ all) (h : Concerns all ⟨cause, none⟩)
    (hcause : cause.grammatical = true := by rfl) : Raised all rest ⟨cause, none⟩ where
  suffix := hrest
  concerns := h
  unreadable hnumber := absurd hcause (by simp [hnumber])

/-- What is raised for an end of the tokens is raised for all of them. -/
theorem mono (h : Raised ts rest e) (hts : ts <:+ all) : Raised all rest e where
  suffix := h.suffix.trans hts
  concerns := h.concerns.mono hts
  unreadable := h.unreadable

end Raised

end ParseError

namespace Parser

variable {α β : Type} {all ts rest : List Token}

/-- A parser that was given these tokens has left an end of them, and its error is raised for
them. -/
def Tracked (all : List Token) : Outcome ParseError α × List Token → Prop
  | (.done _, rest) => rest <:+ all
  | (.failed e, rest) => e.Raised all rest
  | (.outOfFuel, rest) => rest <:+ all

/-- What holds for an end of the tokens holds for all of them. -/
theorem Tracked.mono {result : Outcome ParseError α × List Token} (h : Tracked ts result)
    (hts : ts <:+ all) : Tracked all result := by
  obtain ⟨value | e | _, rest⟩ := result
  · exact List.IsSuffix.trans h hts
  · exact ParseError.Raised.mono h hts
  · exact List.IsSuffix.trans h hts

/-- The property is closed under sequencing: a failure of the first parser is passed on, and the
second one is given an end of the tokens. -/
theorem tracked_bind {x : Parser α} {f : α → Parser β} (hx : Tracked all (x ts))
    (hf : ∀ a rest, x ts = (.done a, rest) → rest <:+ all → Tracked all (f a rest)) :
    Tracked all ((x >>= f) ts) := by
  rcases hresult : x ts with ⟨a | e | _, rest⟩ <;> rw [hresult] at hx
  · rw [Run.bind_done hresult]
    exact hf a rest hresult hx
  · rw [Run.bind_failed hresult]
    exact hx
  · rw [Run.bind_outOfFuel hresult]
    exact hx

/-- Fails at the next token; at the end of the tokens the error has no place. -/
theorem tracked_failAtPosition {cause : ParseError.Cause} (hrest : rest <:+ all)
    (hend : rest = [] → ParseError.Concerns all ⟨cause, none⟩)
    (hcause : cause.grammatical = true := by rfl) :
    Tracked all
      ((nextPosition >>= fun next => Run.fail ⟨cause, next⟩ : Parser α) rest) := by
  cases rest with
  | nil => exact .unlocated hrest (hend rfl) hcause
  | cons next rest => exact .token hrest (hrest.subset List.mem_cons_self) hcause

/-- The parser leaves an end of its tokens, and its errors are raised for them. -/
def Locates (x : Parser α) : Prop :=
  ∀ ts, Tracked ts (x ts)

/-- Parsers that locate their errors can be run one after the other. -/
theorem Locates.bind {x : Parser α} {f : α → Parser β} (hx : Locates x)
    (hf : ∀ a, Locates (f a)) : Locates (x >>= f) := fun ts =>
  tracked_bind (hx ts) fun a rest _ hrest => (hf a rest).mono hrest

/-- Giving a value takes nothing and raises nothing. -/
theorem locates_pure (a : α) : Locates (pure a : Parser α) := fun ts =>
  List.suffix_refl ts

/-- Where the fuel is used up no error is raised. -/
theorem locates_starve : Locates (Run.starve : Parser α) := fun ts =>
  List.suffix_refl ts

/-! ## Single tokens -/

/-- Looking at the next token takes nothing. -/
theorem locates_peek : Locates peek := fun ts =>
  List.suffix_refl ts

/-- Going past a token leaves the tokens behind it. -/
theorem locates_advance : Locates advance := fun ts =>
  List.tail_suffix ts

/-- A mark is taken or left, without an error. -/
theorem locates_eat (mark : Symbol) : Locates (eat mark) := by
  intro ts
  unfold eat
  split
  · exact List.tail_suffix ts
  · exact List.suffix_refl ts

/-- A keyword is taken or left, without an error. -/
theorem locates_eatKeyword (word : Keyword) : Locates (eatKeyword word) := by
  intro ts
  unfold eatKeyword
  split
  · split
    · exact List.suffix_cons _ _
    · exact List.suffix_refl _
  · exact List.suffix_refl _

/-- An error at the next token is located if it lies in the order of the tokens. -/
theorem locates_failAtNext (cause : ParseError.Cause)
    (hcause : cause.grammatical = true := by rfl) : Locates (failAtNext cause : Parser α) := by
  intro ts
  unfold failAtNext
  split
  · exact .token (List.suffix_refl _) List.mem_cons_self hcause
  · exact .unlocated (List.suffix_refl _) .ending

/-- A mark that is missing is an error at the token in its place. -/
theorem locates_expect (mark : Symbol) : Locates (expect mark) := by
  refine (locates_eat mark).bind fun found => ?_
  cases found with
  | true => exact locates_pure ()
  | false => exact locates_failAtNext _

/-- A keyword that is missing is an error at the token in its place. -/
theorem locates_expectKeyword (word : Keyword) : Locates (expectKeyword word) := by
  refine (locates_eatKeyword word).bind fun found => ?_
  cases found with
  | some _ => exact locates_pure ()
  | none => exact locates_failAtNext _

/-- A name that is missing is an error at the token in its place. -/
theorem locates_identifier : Locates identifier := by
  intro ts
  unfold identifier
  split
  · exact List.suffix_cons _ _
  · exact locates_failAtNext _ rfl _

/-- An operator of the level is taken or left, without an error. -/
theorem locates_operatorAmong (ops : List BinaryOp) : Locates (operatorAmong ops) := by
  intro ts
  unfold operatorAmong
  split
  · split
    · split
      · exact List.suffix_cons _ _
      · exact List.suffix_refl _
    · exact List.suffix_refl _
  · exact List.suffix_refl _

/-- A sign before an operand is taken or left, without an error. -/
theorem locates_unaryOperator : Locates unaryOperator := by
  intro ts
  unfold unaryOperator
  split
  · split
    · exact List.suffix_cons _ _
    · exact List.suffix_refl _
  · exact List.suffix_refl _

/-- The name of a call is taken with its parenthesis or left, without an error. -/
theorem locates_callHead : Locates callHead := by
  intro ts
  unfold callHead
  split
  · exact (List.suffix_cons _ _).trans (List.suffix_cons _ _)
  · exact List.suffix_refl _

/-- The name of a place to assign to is taken or left, without an error. -/
theorem locates_lvalueHead : Locates lvalueHead := by
  intro ts
  unfold lvalueHead
  split
  · exact List.suffix_cons _ _
  · exact List.suffix_cons _ _
  · exact List.suffix_refl _

/-- A literal is read from the token in front, and is wrong at the place of this. -/
theorem tracked_literal (lexeme : Lexeme) (p : Position) (ts : List Token) :
    Tracked (⟨lexeme, p⟩ :: ts) (literal lexeme p (⟨lexeme, p⟩ :: ts)) := by
  unfold literal
  rcases hvalue : Literal.read? lexeme with _ | cause | value
  · exact List.suffix_refl _
  · have hmem : Token.mk lexeme p ∈ Token.mk lexeme p :: ts := List.mem_cons_self
    have hcause := Literal.eq_of_read?_eq_error hvalue
    exact ⟨List.suffix_refl _, .token hmem (hcause ▸ rfl), fun _ => ⟨_, rfl, rfl, hvalue⟩⟩
  · exact List.suffix_cons _ _

/-- A token that is no literal is left. -/
theorem literal_none {lexeme : Lexeme} {p : Position}
    (h : literal lexeme p ts = (.done none, rest)) : rest = ts := by
  unfold literal at h
  rcases hvalue : Literal.read? lexeme with _ | cause | value <;> rw [hvalue] at h <;> cases h
  rfl

/-- What is required and not found is an error at the token in its place. -/
theorem locates_required (cause : ParseError.Cause) {x : Parser (Option α)} (hx : Locates x)
    (hcause : cause.grammatical = true := by rfl) : Locates (required cause x) := by
  intro ts
  unfold required
  split
  next => exact locates_failAtNext cause hcause []
  next token ts =>
    refine tracked_bind (hx _) fun found rest _ hrest => ?_
    cases found with
    | some a => exact hrest
    | none => exact .token hrest List.mem_cons_self hcause

/-- A place to assign to is taken with the `=` behind it, or nothing is; an error of reading the
place is kept silent. -/
theorem locates_assignmentHead {lvalue : Parser (Option LValue)} (h : Locates lvalue) :
    Locates (assignmentHead lvalue) := by
  intro ts
  have hlvalue := h ts
  unfold assignmentHead
  split
  next target rest hdone =>
    rw [hdone] at hlvalue
    split
    · exact (List.tail_suffix rest).trans hlvalue
    · exact List.suffix_refl ts
  next rest hstarved =>
    rw [hstarved] at hlvalue
    exact hlvalue
  next => exact List.suffix_refl ts

/-! ## Expressions -/

/-- Without a primary expression no token is taken. -/
theorem primary_none {n : Nat} (h : primary n ts = (.done none, rest)) : rest = ts := by
  cases n with
  | zero => cases h
  | succ n =>
      obtain ⟨called, mid, hcall, h₁⟩ := Run.bind_eq_done_iff.mp h
      cases called with
      | some e => cases h₁
      | none =>
      obtain rfl := (expressionsSound n).call_none hcall
      obtain ⟨found, mid', hlvalue, h₂⟩ := Run.bind_eq_done_iff.mp h₁
      cases found with
      | some target => cases h₂
      | none =>
      obtain rfl := (expressionsSound n).lvalue_none hlvalue
      obtain ⟨next, _, hpeek, h₃⟩ := Run.bind_eq_done_iff.mp h₂
      obtain ⟨-, rfl⟩ := peek_done hpeek
      split at h₃
      next =>
        cases h₃
        rfl
      next => exact absurd h₃ (Gives.bind (fun _ => .bind fun _ => .some _) _ rest)
      next => exact absurd h₃ (Gives.bind (fun _ => .bind fun _ => .bind fun _ => .some _) _ rest)
      next => exact literal_none h₃

/-- Without a unary expression no token is taken. -/
theorem unary_none {n : Nat} (h : unary n ts = (.done none, rest)) : rest = ts := by
  cases n with
  | zero => cases h
  | succ n =>
      obtain ⟨found, mid, hop, h₁⟩ := Run.bind_eq_done_iff.mp h
      rcases unaryOperator_done hop with ⟨op, p, rfl, rfl⟩ | ⟨rfl, rfl⟩
      · obtain ⟨operand, _, -, h₂⟩ := Run.bind_eq_done_iff.mp h₁
        cases operand with
        | some e => cases h₂
        | none =>
            obtain ⟨next, _, -, hfail⟩ := Run.bind_eq_done_iff.mp h₂
            cases hfail
      · exact primary_none h₁

/-- With `n` units of fuel the errors of every parser of expressions concern its tokens. -/
structure ExpressionsLocate (n : Nat) : Prop where
  expression : Locates (expression n)
  optionalExpression : Locates (optionalExpression n)
  conditional : Locates (conditional n)
  binary : ∀ levels, Locates (binary n levels)
  chain : ∀ ops tighter left, Locates (chain n ops tighter left)
  unary : Locates (unary n)
  primary : Locates (primary n)
  lvalue : Locates (lvalue n)
  call : Locates (call n)
  separated : ∀ closing, Locates (separated n closing)
  separated1 : ∀ closing, Locates (separated1 n closing)

namespace ExpressionsLocate

variable {n : Nat} (ih : ExpressionsLocate n)

include ih

/-- An optional expression raises what an assignment or a conditional does. -/
theorem optionalExpression_succ : Locates (Parser.optionalExpression (n + 1)) := by
  refine (locates_assignmentHead ih.lvalue).bind fun target => ?_
  cases target with
  | some target => exact ih.expression.bind fun _ => locates_pure _
  | none => exact ih.conditional

/-- Beside the errors of its parts a conditional has those of a missing `:`. -/
theorem conditional_succ : Locates (Parser.conditional (n + 1)) := by
  refine (ih.binary _).bind fun condition => ?_
  cases condition with
  | none => exact locates_pure none
  | some condition =>
      refine (locates_eat .question).bind fun found => ?_
      cases found with
      | true =>
          refine (locates_required .expressionExpected ih.conditional).bind fun _ => ?_
          refine (locates_expect .colon).bind fun _ => ?_
          exact (locates_required .expressionExpected ih.conditional).bind fun _ => locates_pure _
      | false => exact locates_pure _

/-- On every level the errors are those of the tighter levels and of the chain. -/
theorem binary_succ (levels : List (List BinaryOp)) : Locates (Parser.binary (n + 1) levels) := by
  cases levels with
  | nil => exact ih.unary
  | cons ops tighter =>
      refine (ih.binary tighter).bind fun left => ?_
      cases left with
      | none => exact locates_pure none
      | some left => exact (ih.chain ops tighter left).bind fun _ => locates_pure _

/-- In a chain an operand may be missing behind an operator. -/
theorem chain_succ (ops : List BinaryOp) (tighter : List (List BinaryOp)) (left : Expr) :
    Locates (Parser.chain (n + 1) ops tighter left) := by
  intro ts
  refine tracked_bind (locates_operatorAmong ops ts) fun found mid hop hmid => ?_
  rcases operatorAmong_done hop with ⟨op, p, rfl, -, rfl⟩ | ⟨rfl, rfl⟩
  · refine tracked_bind ((ih.binary tighter mid).mono hmid) fun right rest _ hrest => ?_
    cases right with
    | some right => exact (ih.chain ops tighter _ rest).mono hrest
    | none =>
        -- at the end of the tokens the error is at the operator
        cases rest with
        | nil => exact .token hrest (List.mem_cons_self (a := Token.mk _ p))
        | cons next rest => exact .token hrest (hrest.subset List.mem_cons_self)
  · exact hmid

/-- Behind a sign an operand may be missing. -/
theorem unary_succ : Locates (Parser.unary (n + 1)) := by
  intro ts
  refine tracked_bind (locates_unaryOperator ts) fun found mid hop hmid => ?_
  rcases unaryOperator_done hop with ⟨op, p, rfl, rfl⟩ | ⟨rfl, rfl⟩
  · refine tracked_bind ((ih.unary mid).mono hmid) fun operand rest hunary hrest => ?_
    cases operand with
    | some operand => exact hrest
    | none =>
        obtain rfl := unary_none hunary
        refine tracked_failAtPosition hrest fun hend => ?_
        subst hend
        exact .unplaced [] rfl (.operator op)
  · exact ih.primary mid

/-- A literal may be refused, and a parenthesis or a list not closed; the rest is in the
parts. -/
theorem primary_succ : Locates (Parser.primary (n + 1)) := by
  refine ih.call.bind fun called => ?_
  cases called with
  | some e => exact locates_pure _
  | none =>
  refine ih.lvalue.bind fun target => ?_
  cases target with
  | some target => exact locates_pure _
  | none =>
  intro ts
  refine tracked_bind (locates_peek ts) fun next rest hpeek hrest => ?_
  obtain ⟨hnext, rfl⟩ := peek_done hpeek
  have hlist : ∀ p, Locates (do
      advance
      let elements ← Parser.separated n .closeBracket
      pure (some (.list p elements)) : Parser (Option Expr)) := fun p =>
    locates_advance.bind fun _ => (ih.separated _).bind fun _ => locates_pure _
  have hparentheses : Locates (do
      advance
      let inner ← Parser.expression n
      expect .closeParen
      pure (some inner) : Parser (Option Expr)) :=
    locates_advance.bind fun _ => ih.expression.bind fun _ =>
      (locates_expect _).bind fun _ => locates_pure _
  split
  next => exact hrest
  next p => exact hlist p rest
  next => exact hparentheses rest
  next lexeme p _ _ =>
    obtain ⟨ts, rfl⟩ := List.head?_eq_some_iff.mp hnext
    exact tracked_literal lexeme p ts

/-- Behind a name an index may be missing or not closed. -/
theorem lvalue_succ : Locates (Parser.lvalue (n + 1)) := by
  refine locates_lvalueHead.bind fun found => ?_
  cases found with
  | none => exact locates_pure none
  | some head =>
      refine (locates_eat .openBracket).bind fun bracket => ?_
      cases bracket with
      | true =>
          refine ih.expression.bind fun _ => ?_
          exact (locates_expect .closeBracket).bind fun _ => locates_pure _
      | false => exact locates_pure _

/-- The errors of a call are those of its arguments. -/
theorem call_succ : Locates (Parser.call (n + 1)) := by
  refine locates_callHead.bind fun found => ?_
  cases found with
  | none => exact locates_pure none
  | some head => exact (ih.separated .closeParen).bind fun _ => locates_pure _

/-- A list of expressions is empty, or has those errors that a list of one or more has. -/
theorem separated_succ (closing : Symbol) : Locates (Parser.separated (n + 1) closing) := by
  refine (locates_eat closing).bind fun found => ?_
  cases found with
  | true => exact locates_pure []
  | false => exact ih.separated1 closing

/-- In a list of expressions one may be missing, or the mark that closes it. -/
theorem separated1_succ (closing : Symbol) : Locates (Parser.separated1 (n + 1) closing) := by
  refine ih.expression.bind fun first => (locates_eat .comma).bind fun found => ?_
  cases found with
  | true => exact (ih.separated1 closing).bind fun _ => locates_pure _
  | false => exact (locates_expect closing).bind fun _ => locates_pure _

end ExpressionsLocate

/-- **Parsers of expressions locate their errors**, by induction on the fuel. -/
theorem expressionsLocate (n : Nat) : ExpressionsLocate n := by
  induction n with
  | zero => constructor <;> intros <;> exact locates_starve
  | succ n ih =>
      exact ⟨locates_required .expressionExpected ih.optionalExpression, ih.optionalExpression_succ,
        ih.conditional_succ, ih.binary_succ, ih.chain_succ, ih.unary_succ, ih.primary_succ,
        ih.lvalue_succ, ih.call_succ, ih.separated_succ, ih.separated1_succ⟩

/-! ## Statements -/

/-- Behind `var` the name of a counter may be missing, or the `=` behind it. -/
theorem locates_loopCounter : Locates loopCounter := by
  refine (locates_eatKeyword .var).bind fun found => ?_
  cases found with
  | none => exact locates_pure none
  | some _ =>
      refine locates_identifier.bind fun name => ?_
      exact (locates_expect .assign).bind fun _ => locates_pure _

/-- Without a keyword a statement begins with an assignment or a call, and has their
errors. -/
theorem locates_assignmentOrCall (n : Nat) : Locates (assignmentOrCall n) := by
  have hexpressions := expressionsLocate n
  refine (locates_assignmentHead hexpressions.lvalue).bind fun target => ?_
  cases target with
  | some target =>
      refine hexpressions.expression.bind fun _ => ?_
      exact (locates_expect .semicolon).bind fun _ => locates_pure _
  | none =>
      refine hexpressions.call.bind fun called => ?_
      cases called with
      | none => exact locates_pure none
      | some e => exact (locates_expect .semicolon).bind fun _ => locates_pure _

/-- With `n` units of fuel the errors of every parser of statements concern its tokens. -/
structure StatementsLocate (n : Nat) : Prop where
  statement : Locates (statement n)
  keywordStatement : ∀ word p, Locates (keywordStatement n word p)
  requiredStatement : Locates (requiredStatement n)
  block : Locates (block n)
  blockBody : Locates (blockBody n)

namespace StatementsLocate

variable {n : Nat} (ih : StatementsLocate n)

include ih

/-- The errors of a statement are those of its keyword's rule, of a block or of an
expression. -/
theorem statement_succ : Locates (Parser.statement (n + 1)) := by
  refine locates_peek.bind fun next => ?_
  split
  next => exact locates_pure none
  next word p => exact ih.keywordStatement word p
  next => exact ih.block
  next => exact locates_assignmentOrCall n

/-- What `if` and `while` begin with. -/
theorem guarded {f : Expr → Statement → Parser α}
    (hf : ∀ condition body, Locates (f condition body)) :
    Locates (do
      expect .openParen
      let condition ← expression n
      expect .closeParen
      let body ← Parser.requiredStatement n
      f condition body) := by
  refine (locates_expect _).bind fun _ => (expressionsLocate n).expression.bind fun condition => ?_
  exact (locates_expect _).bind fun _ => ih.requiredStatement.bind fun body => hf condition body

/-- For each keyword the errors of a statement are those of its parts and of the marks
between. -/
theorem keywordStatement_succ (word : Keyword) (p : Position) :
    Locates (Parser.keywordStatement (n + 1) word p) := by
  have hexpression := (expressionsLocate n).expression
  have hsemicolon : ∀ s : Statement,
      Locates (expect .semicolon >>= fun _ => pure (some s)) := fun s =>
    (locates_expect .semicolon).bind fun _ => locates_pure (some s)
  cases word with
  | var =>
      refine locates_advance.bind fun _ => locates_identifier.bind fun name => ?_
      refine (locates_eat .assign).bind fun found => ?_
      cases found with
      | true => exact hexpression.bind fun _ => hsemicolon _
      | false => exact hsemicolon _
  | forWord =>
      refine locates_advance.bind fun _ => (locates_expect _).bind fun _ => ?_
      refine locates_loopCounter.bind fun counter => ?_
      refine hexpression.bind fun start => (locates_expect _).bind fun _ => ?_
      refine hexpression.bind fun condition => (locates_expect _).bind fun _ => ?_
      refine hexpression.bind fun step => (locates_expect _).bind fun _ => ?_
      exact ih.requiredStatement.bind fun body => locates_pure _
  | foreachWord =>
      refine locates_advance.bind fun _ => (locates_expect _).bind fun _ => ?_
      refine (locates_eatKeyword _).bind fun _ => locates_identifier.bind fun item => ?_
      refine (locates_expectKeyword _).bind fun _ => hexpression.bind fun collection => ?_
      refine (locates_expect _).bind fun _ => ?_
      exact ih.requiredStatement.bind fun body => locates_pure _
  | ifWord =>
      refine locates_advance.bind fun _ => ih.guarded fun condition thenBranch => ?_
      refine (locates_eatKeyword _).bind fun found => ?_
      cases found with
      | some _ => exact ih.requiredStatement.bind fun _ => locates_pure _
      | none => exact locates_pure _
  | whileWord =>
      exact locates_advance.bind fun _ => ih.guarded fun condition body => locates_pure _
  | breakWord => exact locates_advance.bind fun _ => hsemicolon _
  | continueWord => exact locates_advance.bind fun _ => hsemicolon _
  | returnWord =>
      refine locates_advance.bind fun _ => (locates_eat .semicolon).bind fun found => ?_
      cases found with
      | true => exact locates_pure _
      | false => exact hexpression.bind fun _ => hsemicolon _
  | func | inWord | elseWord => exact locates_pure none

/-- The errors of a block are those of its statements. -/
theorem block_succ : Locates (Parser.block (n + 1)) := by
  refine locates_peek.bind fun next => ?_
  split
  next => exact locates_advance.bind fun _ => ih.blockBody.bind fun _ => locates_pure _
  next => exact locates_pure none

/-- A block may not be closed; else its errors are those of a statement and of the rest. -/
theorem blockBody_succ : Locates (Parser.blockBody (n + 1)) := by
  refine (locates_eat .closeBrace).bind fun found => ?_
  cases found with
  | true => exact locates_pure []
  | false =>
      exact ih.requiredStatement.bind fun _ => ih.blockBody.bind fun _ => locates_pure _

end StatementsLocate

/-- **Parsers of statements locate their errors**, by induction on the fuel. -/
theorem statementsLocate (n : Nat) : StatementsLocate n := by
  induction n with
  | zero => constructor <;> intros <;> exact locates_starve
  | succ n ih =>
      exact ⟨ih.statement_succ, ih.keywordStatement_succ,
        locates_required .statementExpected ih.statement, ih.block_succ, ih.blockBody_succ⟩

/-! ## Functions and scripts -/

/-- Between two parameters the comma may be missing. -/
theorem locates_separator (first : Bool) : Locates (separator first) := by
  cases first with
  | true => exact locates_pure ()
  | false => exact locates_expect .comma

/-- A list of parameters that ends in `...` must be closed. -/
theorem tracked_afterEllipsis {p : Position} (hall : ⟨.symbol .ellipsis, p⟩ :: ts <:+ all) :
    Tracked all ((do
      if ← eat .closeParen then pure ([], true)
      else
        let next ← nextPosition
        Run.fail ⟨.ellipsisNotLast, next⟩ : Parser (List String × Bool)) ts) := by
  have hts : ts <:+ all := (List.suffix_cons _ ts).trans hall
  refine tracked_bind ((locates_eat .closeParen ts).mono hts) fun found rest heat hrest => ?_
  rcases eat_done heat with ⟨rfl, -⟩ | ⟨rfl, -, rfl⟩
  · exact hrest
  · refine tracked_failAtPosition hrest fun hend => ?_
    subst hend
    obtain ⟨before, rfl⟩ := hall
    exact .unplaced before rfl .ellipsis

/-- Parameters may lack a name, a comma or the closing parenthesis.  By induction on the
fuel. -/
theorem locates_parameters (n : Nat) (first : Bool) : Locates (parameters n first) := by
  induction n generalizing first with
  | zero => exact locates_starve
  | succ n ih =>
      refine (locates_eat .closeParen).bind fun found => ?_
      cases found with
      | true => exact locates_pure _
      | false =>
      refine (locates_separator first).bind fun _ => ?_
      intro ts
      refine tracked_bind (locates_eat .ellipsis ts) fun found rest heat hrest => ?_
      rcases eat_done heat with ⟨rfl, p, rfl⟩ | ⟨rfl, -, rfl⟩
      · exact tracked_afterEllipsis (List.suffix_refl _)
      · have hmore : Locates (do
            let name ← identifier
            let more ← parameters n false
            pure (name :: more.1, more.2)) :=
          locates_identifier.bind fun _ => (ih false).bind fun _ => locates_pure _
        exact hmore rest

/-- A block that is read is a block. -/
theorem exists_of_block {n : Nat} {s : Statement} (h : block n ts = (.done (some s), rest)) :
    ∃ p ss, s = .block p ss := by
  cases n with
  | zero => cases h
  | succ n =>
      obtain ⟨next, _, -, h₁⟩ := Run.bind_eq_done_iff.mp h
      split at h₁
      next p =>
        obtain ⟨_, _, -, h₂⟩ := Run.bind_eq_done_iff.mp h₁
        obtain ⟨ss, _, -, hpure⟩ := Run.bind_eq_done_iff.mp h₂
        cases hpure
        exact ⟨p, ss, rfl⟩
      next => cases h₁

/-- The errors of a function are those of its head, its parameters and its block. -/
theorem locates_function (n : Nat) : Locates (function n) := by
  cases n with
  | zero => exact locates_starve
  | succ n =>
  refine (locates_eatKeyword .func).bind fun found => ?_
  cases found with
  | none => exact locates_pure none
  | some p =>
  refine locates_identifier.bind fun name => (locates_expect .openParen).bind fun _ => ?_
  intro ts
  refine tracked_bind (locates_parameters n true ts) fun params mid hparams hmid => ?_
  refine tracked_bind (((statementsLocate n).block mid).mono hmid) fun body rest hblock hrest => ?_
  obtain ⟨names, variadic⟩ := params
  cases body with
  | some s =>
      obtain ⟨bodyPosition, ss, rfl⟩ := exists_of_block hblock
      exact hrest
  | none =>
      obtain rfl := (statementsSound n).block_none hblock
      refine tracked_failAtPosition hrest fun hend => ?_
      subst hend
      obtain ⟨used, q, rfl, -⟩ := parameters_done hparams
      exact .unplaced used rfl .parameters

/-- The errors of a script are those of its functions and statements.  By induction on the
fuel. -/
theorem locates_items (n : Nat) : Locates (items n) := by
  induction n with
  | zero => exact locates_starve
  | succ n ih =>
  intro ts
  refine tracked_bind (locates_peek ts) fun next rest hpeek hrest => ?_
  obtain ⟨hnext, rfl⟩ := peek_done hpeek
  cases next with
  | none => exact hrest
  | some token =>
  refine tracked_bind ((statementsLocate n).statement rest) fun s mid _ hmid => ?_
  cases s with
  | some s => exact ((ih.bind fun _ => locates_pure _) mid).mono hmid
  | none =>
  refine tracked_bind ((locates_function n mid).mono hmid) fun f mid' _ hmid' => ?_
  cases f with
  | some f => exact ((ih.bind fun _ => locates_pure _) mid').mono hmid'
  | none => exact .token hmid' (List.mem_of_mem_head? hnext)

/-- An error about a number that comes out of a reading is about one of the tokens, and this is
the first one that is left. -/
theorem unreadable_of_parse {p : Nat → Parser α} (hp : ∀ n, Locates (p n)) {e : ParseError}
    (h : parse p ts = (.error e, rest)) (hnumber : e.cause.grammatical = false) :
    ∃ t ∈ ts, rest.head? = some t ∧ t.Unreadable e := by
  have htracked := hp (fuel ts) ts
  unfold parse at h
  rcases hrun : p (fuel ts) ts with ⟨a | e' | _, rest'⟩ <;> rw [hrun] at h htracked <;> cases h
  · obtain ⟨t, ht, hunreadable⟩ := htracked.unreadable hnumber
    exact ⟨t, htracked.suffix.subset (List.mem_of_mem_head? ht), ht, hunreadable⟩
  · cases hnumber

end Parser

/-! ## The errors of a script -/

/-- Where an error of a script can be: at the character that begins no token, or at a token of
the script.  It is nowhere if the last token is one whose successor is missed too late. -/
inductive ParseError.FoundIn (script : String) (lines : List (List Char)) : ParseError → Prop where
  | character {c : Char} {p : Position} (hscript : p.script = script)
      (hc : p.charAt? lines = some c) :
      FoundIn script lines ⟨.unknownToken (String.singleton c), some p⟩
  | token {cause : Cause} {tokens : List Token} {t : Token}
      (hscan : Token.scanLinesFrom script 1 lines = .ok tokens) (ht : t ∈ tokens)
      (hscript : t.position.script = script) (hline : 0 < t.position.line)
      (hcause : cause.aboutTokens = true) : FoundIn script lines ⟨cause, some t.position⟩
  | nowhere {cause : Cause} {before : List Token} {last : Token}
      (hscan : Token.scanLinesFrom script 1 lines = .ok (before ++ [last]))
      (h : Unplaced last.lexeme cause) : FoundIn script lines ⟨cause, none⟩

namespace Script

/-- An error of the parser is at a token, once the early end has the place of the last one. -/
theorem atLastToken_cases {tokens : List Token} {e : ParseError} (h : e.Concerns tokens)
    (hne : tokens ≠ []) :
    (∃ t ∈ tokens, (atLastToken tokens e).position = some t.position ∧
        (atLastToken tokens e).cause.aboutTokens = true) ∨
      ∃ before last, tokens = before ++ [last] ∧ ParseError.Unplaced last.lexeme e.cause ∧
        atLastToken tokens e = ⟨e.cause, none⟩ := by
  have hlast : tokens.getLast? = some (tokens.getLast hne) := List.getLast?_eq_some_getLast hne
  have hmem := List.getLast_mem hne
  cases h with
  | @token cause t ht hcause =>
      refine .inl ?_
      unfold atLastToken
      split
      next hend hsome =>
        exact ⟨_, List.mem_of_mem_getLast? hsome, rfl, hcause⟩
      next => exact ⟨t, ht, rfl, hcause⟩
  | ending =>
      refine .inl ⟨_, hmem, ?_, ?_⟩ <;> simp only [atLastToken, hlast]
      rfl
  | @unplaced cause before last hts hcause =>
      refine .inr ⟨before, last, hts, hcause, ?_⟩
      generalize last.lexeme = lexeme at hcause
      cases hcause <;> rfl

/-- No tokens are a script. -/
theorem ofTokens_nil (name : String) : ofTokens name [] = .ok ⟨name, [], []⟩ := rfl

/-- An error of reading tokens is at one of them, or has no place since the last one leaves
something open. -/
theorem ofTokens_error {name : String} {tokens : List Token} {e : ParseError}
    (h : ofTokens name tokens = .error e) :
    (∃ t ∈ tokens, e.position = some t.position ∧ e.cause.aboutTokens = true) ∨
      ∃ before last, tokens = before ++ [last] ∧ ParseError.Unplaced last.lexeme e.cause ∧
        e.position = none := by
  have hne : tokens ≠ [] := by
    rintro rfl
    rw [ofTokens_nil] at h
    cases h
  have hlocates := Parser.locates_items (Parser.fuel tokens) tokens
  unfold ofTokens Parser.parse at h
  rcases hresult : Parser.items (Parser.fuel tokens) tokens with ⟨items | e' | _, rest⟩ <;>
    rw [hresult] at h hlocates <;> cases h
  · rcases atLastToken_cases hlocates.concerns hne with hplaced | ⟨before, last, hts, hcause, heq⟩
    · exact .inl hplaced
    · exact .inr ⟨before, last, hts, by rw [heq]; exact hcause, by rw [heq]⟩
  · rcases atLastToken_cases .ending hne with hplaced | ⟨_, last, _, hcause, -⟩
    · exact .inl hplaced
    · generalize last.lexeme = lexeme at hcause
      cases hcause

/-- An error about a number has the place and the digits of a token that spells out a number
which cannot be read. -/
theorem unreadable_of_ofTokens {name : String} {tokens : List Token} {e : ParseError}
    (h : ofTokens name tokens = .error e) (hnumber : e.cause.grammatical = false) :
    ∃ t ∈ tokens, t.Unreadable e := by
  unfold ofTokens at h
  split at h
  next => cases h
  next e' hparse =>
    have heq : atLastToken tokens e' = e := Except.error.inj h
    unfold atLastToken at heq
    split at heq
    next hend _ =>
      -- an early end stays one
      rw [← heq, hend] at hnumber
      cases hnumber
    next =>
      subst heq
      obtain ⟨t, ht, -, hunreadable⟩ :=
        Parser.unreadable_of_parse Parser.locates_items (Prod.ext hparse rfl) hnumber
      exact ⟨t, ht, hunreadable⟩

/-- An error of reading lines is at a character that begins no token, or at one of their
tokens. -/
theorem foundIn_of_error {name : String} {lines : List (List Char)} {e : ParseError}
    (h : (Token.scanLinesFrom name 1 lines >>= ofTokens name) = .error e) :
    e.FoundIn name lines := by
  rcases Token.scanLinesFrom_cases name lines with ⟨tokens, hscan, hplaced⟩ | ⟨c, p, hscan, hp⟩
  · rw [hscan] at h
    obtain ⟨cause, place⟩ := e
    rcases ofTokens_error h with ⟨t, ht, hplace, hcause⟩ | ⟨before, last, rfl, hcause, hplace⟩
    · cases hplace
      exact .token hscan ht (hplaced t ht).1 (hplaced t ht).2 hcause
    · cases hplace
      exact .nowhere hscan hcause
  · rw [hscan] at h
    cases h
    exact .character hp.1 hp.2

/-- **Where reading a script fails**, from its text as from its lines. -/
theorem error_foundIn (name : String) (e : ParseError) :
    (∀ text : String, ofText name text = .error e →
      e.FoundIn name (Token.linesOf (Token.unifyLineEnds text.toList))) ∧
    ∀ lines : List String, ofLines name lines = .error e →
      e.FoundIn name (lines.map String.toList) :=
  ⟨fun _ h => foundIn_of_error h, fun _ h => foundIn_of_error h⟩

/-- The error with which a script could not be read. -/
def error? : Except ParseError Script → Option ParseError
  | .ok _ => none
  | .error e => some e

/-- If the error of a result is known, the result is that error. -/
theorem eq_error_of_error? {result : Except ParseError Script} {e : ParseError}
    (h : error? result = some e) : result = .error e := by
  cases result with
  | ok script => cases h
  | error e' =>
      cases h
      rfl

/-- The text ends in the middle of a parameter list. -/
theorem error_foundIn_openParameters :
    ofText "s" "func f(a,\n  b" = .error ⟨.unexpectedEnd, some ⟨"s", 2, 3⟩⟩ ∧
      ParseError.FoundIn "s" ["func f(a,".toList, "  b".toList]
        ⟨.unexpectedEnd, some ⟨"s", 2, 3⟩⟩ := by
  have hfail : ofText "s" "func f(a,\n  b" = .error ⟨.unexpectedEnd, some ⟨"s", 2, 3⟩⟩ :=
    eq_error_of_error? (by decide +kernel)
  exact ⟨hfail, (error_foundIn "s" _).1 _ hfail⟩

/-- There are tokens, but the error is at none of them: the last one is a unary operator, a
`...` or the parenthesis behind the parameters. -/
theorem ofText_error_unplaced :
    (Token.scan "t" "x = -").toOption.map List.length = some 3 ∧
      ofText "t" "x = -" = .error ⟨.subExpressionExpected, none⟩ ∧
      ofText "t" "func f(..." = .error ⟨.ellipsisNotLast, none⟩ ∧
      ofText "t" "func f()" = .error ⟨.symbolExpected .openBrace, none⟩ :=
  ⟨by decide +kernel, eq_error_of_error? (by decide +kernel),
    eq_error_of_error? (by decide +kernel), eq_error_of_error? (by decide +kernel)⟩

end Script

end Scriptlet
