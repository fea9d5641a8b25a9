import Scriptlet.Proofs.ParserFuel

/-!
# Reading goes forward and ends

Every parser of the grammar leaves an end of its tokens, however it comes out.  One that may
find nothing has then taken nothing, and one that found something has taken at least a token
(`Parser.Progress`).  So each round of a loop takes a token, and a list of tokens is read in
finitely many rounds, whether it is a script or not: the fuel that is handed out for the tokens
is enough, and more fuel changes nothing (`Parser.Finishes`).

For expressions this is known; here it is carried on to statements, functions and scripts.  What
is read in one go, without a round that repeats, only needs to be known of lists up to some
length, since what a parser leaves is never longer than what it was given
(`Parser.CompletesUpTo`).
-/

namespace Scriptlet

namespace Parser

variable {α β : Type} {x y : Parser α} {ts rest : List Token} {n k : Nat}

/-! ## Nothing found, nothing taken -/

/-- A binary operation that finds no operand has taken nothing, on every level. -/
theorem binary_none {levels : List (List BinaryOp)}
    (h : binary n levels ts = (.done none, rest)) : rest = ts := by
  induction n generalizing levels with
  | zero => cases h
  | succ n ih =>
      cases levels with
      | nil => exact unary_none h
      | cons ops tighter =>
          obtain ⟨found, mid, hbinary, h₁⟩ := Run.bind_eq_done_iff.mp h
          cases found with
          | none =>
              cases h₁
              exact ih hbinary
          | some left => exact absurd h₁ (Gives.bind (fun _ => .some _) mid rest)

/-- Where there is no conditional expression, nothing is taken. -/
theorem conditional_none (h : conditional n ts = (.done none, rest)) : rest = ts := by
  cases n with
  | zero => cases h
  | succ n =>
      obtain ⟨found, mid, hbinary, h₁⟩ := Run.bind_eq_done_iff.mp h
      cases found with
      | none =>
          cases h₁
          exact binary_none hbinary
      | some condition =>
          refine absurd h₁ (Gives.bind (fun asked => ?_) mid rest)
          cases asked with
          | true => exact .bind fun _ => .bind fun _ => .bind fun _ => .some _
          | false => exact .some _

/-- Where there is no expression, nothing is taken. -/
theorem optionalExpression_none (h : optionalExpression n ts = (.done none, rest)) :
    rest = ts := by
  cases n with
  | zero => cases h
  | succ n =>
      obtain ⟨found, mid, hhead, h₁⟩ := Run.bind_eq_done_iff.mp h
      rcases assignmentHead_done hhead with ⟨target, q, rfl, -⟩ | ⟨rfl, rfl⟩
      · exact absurd h₁ (Gives.bind (fun _ => .some _) mid rest)
      · exact conditional_none h₁

/-- Where there is no function, nothing is taken. -/
theorem function_none (h : function n ts = (.done none, rest)) : rest = ts := by
  cases n with
  | zero => cases h
  | succ n =>
      obtain ⟨found, mid, heat, h₁⟩ := Run.bind_eq_done_iff.mp h
      rcases eatKeyword_done heat with ⟨p, rfl, rfl⟩ | ⟨rfl, rfl, -⟩
      · refine absurd h₁ (Gives.bind (fun _ => .bind fun _ => .bind fun _ => .bind fun body => ?_)
          mid rest)
        intro ts rest h
        split at h
        next => cases h
        next =>
          obtain ⟨next, _, -, hfail⟩ := Run.bind_eq_done_iff.mp h
          cases hfail
      · cases h₁
        rfl

/-! ## Something found, something taken -/

/-- A parser that locates its errors leaves an end of its tokens, however it comes out. -/
theorem Locates.suffix (h : Locates x) (ts : List Token) : (x ts).2 <:+ ts := by
  have htracked := h ts
  rcases hrun : x ts with ⟨a | e | _, rest⟩ <;> rw [hrun] at htracked
  · exact htracked
  · exact htracked.suffix
  · exact htracked

/-- What a parser leaves is never longer than what it was given. -/
theorem Locates.length_le (h : Locates x) {a : α} (hrun : x ts = (.done a, rest)) :
    rest.length ≤ ts.length := by
  have hsuffix := h.suffix ts
  rw [hrun] at hsuffix
  exact hsuffix.length_le

/-- A statement is made of one token at least. -/
theorem length_lt_of_between {s : Statement} (h : s.Between ts rest) :
    rest.length < ts.length := by
  obtain ⟨used, rfl, hderives, -⟩ := h
  have hused := List.length_pos_iff.mpr (hderives.startsWith rfl).ne_nil
  rw [List.length_append]
  omega

/-- A function is made of one token at least. -/
theorem length_lt_of_function {f : FunctionDef} (h : function n ts = (.done (some f), rest)) :
    rest.length < ts.length := by
  obtain ⟨used, rfl, hderives⟩ := function_done h
  obtain ⟨-, -⟩ := hderives
  simp only [List.length_append, List.length_cons]
  omega

/-! ## Enough fuel -/

/-- On these tokens the first parser does not run out of fuel, and the second one does the
same. -/
structure Completes (x y : Parser α) (ts : List Token) : Prop where
  ends : (x ts).1 ≠ .outOfFuel
  same : y ts = x ts

/-- A parser that is settled completes; what its errors are about is forgotten. -/
theorem Settled.completes (h : Settled x y ts) : Completes x y ts :=
  ⟨h.ends, h.same⟩

/-- The rule for sequences: the second part begins where the first one has ended. -/
theorem Completes.bind {f g : α → Parser β} (hx : Completes x y ts)
    (hf : ∀ a rest, x ts = (.done a, rest) → Completes (f a) (g a) rest) :
    Completes (x >>= f) (y >>= g) ts := by
  have hsame := hx.same
  rcases hrun : x ts with ⟨a | e | _, rest⟩ <;> rw [hrun] at hsame
  · have hrest := hf a rest hrun
    have hleft : (x >>= f) ts = f a rest := Run.bind_done hrun f
    have hright : (y >>= g) ts = g a rest := Run.bind_done hsame g
    exact ⟨hleft ▸ hrest.ends, by rw [hleft, hright, hrest.same]⟩
  · have hleft : (x >>= f) ts = (.failed e, rest) := Run.bind_failed hrun f
    have hright : (y >>= g) ts = (.failed e, rest) := Run.bind_failed hsame g
    exact ⟨by simp [hleft], hright.trans hleft.symm⟩
  · exact absurd (by rw [hrun]) hx.ends

/-- The parser needs no fuel. -/
def Fuelless (x : Parser α) : Prop :=
  ∀ ts, (x ts).1 ≠ .outOfFuel

/-- Where no fuel is needed, any amount is enough. -/
theorem Fuelless.completes (h : Fuelless x) : Completes x x ts :=
  ⟨h ts, rfl⟩

/-- A sequence of parsers that need no fuel needs none. -/
theorem Fuelless.bind {f : α → Parser β} (hx : Fuelless x) (hf : ∀ a, Fuelless (f a)) :
    Fuelless (x >>= f) := by
  intro ts
  have hbind : Completes (x >>= f) (x >>= f) ts :=
    hx.completes.bind fun a _ _ => (hf a).completes
  exact hbind.ends

theorem fuelless_pure (a : α) : Fuelless (pure a : Parser α) := by
  intro ts h
  cases h

theorem fuelless_fail (e : ParseError) : Fuelless (Run.fail e : Parser α) := by
  intro ts h
  cases h

theorem fuelless_nextPosition : Fuelless nextPosition := by
  intro ts h
  cases h

theorem fuelless_eat (mark : Symbol) : Fuelless (eat mark) := fun _ =>
  (settled_eat mark).ends

/-- Taking a mark that must be there needs no fuel. -/
theorem fuelless_expect (mark : Symbol) : Fuelless (expect mark) := fun _ =>
  (settled_expect mark).ends

theorem fuelless_failAtNext (cause : ParseError.Cause) :
    Fuelless (failAtNext cause : Parser α) := by
  intro ts
  cases ts <;> simp [failAtNext]

theorem fuelless_eatKeyword (word : Keyword) : Fuelless (eatKeyword word) := by
  intro ts
  unfold eatKeyword
  split
  · split <;> simp
  · simp

/-- Taking a keyword that must be there needs no fuel. -/
theorem fuelless_expectKeyword (word : Keyword) : Fuelless (expectKeyword word) := by
  refine (fuelless_eatKeyword word).bind fun found => ?_
  cases found with
  | some _ => exact fuelless_pure ()
  | none => exact fuelless_failAtNext _

/-- Reading a name needs no fuel. -/
theorem fuelless_identifier : Fuelless identifier := by
  intro ts
  unfold identifier
  split
  · simp
  · exact fuelless_failAtNext _ _

/-- Reading the counter of a loop needs no fuel. -/
theorem fuelless_loopCounter : Fuelless loopCounter := by
  refine (fuelless_eatKeyword .var).bind fun found => ?_
  cases found with
  | none => exact fuelless_pure none
  | some _ =>
      exact fuelless_identifier.bind fun _ => (fuelless_expect .assign).bind fun _ =>
        fuelless_pure _

/-- The comma between two parameters needs no fuel. -/
theorem fuelless_separator (first : Bool) : Fuelless (separator first) := by
  cases first with
  | true => exact fuelless_pure ()
  | false => exact fuelless_expect .comma

/-- The parsers do the same on all lists of up to `k` tokens and do not run out of fuel there,
and what the first one leaves is no longer than what it was given. -/
structure CompletesUpTo (k : Nat) (x y : Parser α) : Prop where
  locates : Locates x
  completes : ∀ ts, ts.length ≤ k → Completes x y ts

/-- A sequence completes up to a length if its parts do, since the second part gets no more
tokens than the first. -/
theorem CompletesUpTo.bind {f g : α → Parser β} (hx : CompletesUpTo k x y)
    (hf : ∀ a, CompletesUpTo k (f a) (g a)) : CompletesUpTo k (x >>= f) (y >>= g) where
  locates := hx.locates.bind fun a => (hf a).locates
  completes ts hts := by
    refine (hx.completes ts hts).bind fun a rest hrun => ?_
    exact (hf a).completes rest (Nat.le_trans (hx.locates.length_le hrun) hts)

/-- A parser that needs no fuel completes up to every length. -/
theorem Fuelless.upTo (h : Fuelless x) (hx : Locates x) : CompletesUpTo k x x where
  locates := hx
  completes _ _ := h.completes

theorem upTo_pure (a : α) : CompletesUpTo k (pure a : Parser α) (pure a) :=
  (fuelless_pure a).upTo (locates_pure a)

theorem upTo_eat (mark : Symbol) : CompletesUpTo k (eat mark) (eat mark) :=
  (fuelless_eat mark).upTo (locates_eat mark)

/-- Taking a mark that must be there completes up to every length. -/
theorem upTo_expect (mark : Symbol) : CompletesUpTo k (expect mark) (expect mark) :=
  (fuelless_expect mark).upTo (locates_expect mark)

theorem upTo_eatKeyword (word : Keyword) :
    CompletesUpTo k (eatKeyword word) (eatKeyword word) :=
  (fuelless_eatKeyword word).upTo (locates_eatKeyword word)

/-- Reading a name completes up to every length. -/
theorem upTo_identifier : CompletesUpTo k identifier identifier :=
  fuelless_identifier.upTo locates_identifier

/-- An expression completes up to the length that its fuel is for. -/
theorem upTo_expression (h : 24 * k + 17 ≤ n) :
    CompletesUpTo k (expression n) (expression (n + 1)) where
  locates := (expressionsLocate n).expression
  completes ts hts := ((expressionsSettle n).expression (by omega)).completes

/-- What a statement without a keyword begins with completes up to the length that its fuel
is for. -/
theorem upTo_assignmentOrCall (h : 24 * k + 17 ≤ n) :
    CompletesUpTo k (assignmentOrCall n) (assignmentOrCall (n + 1)) := by
  have hhead : CompletesUpTo k (assignmentHead (lvalue n)) (assignmentHead (lvalue (n + 1))) :=
    ⟨locates_assignmentHead (expressionsLocate n).lvalue, fun ts hts =>
      ((expressionsSettle n).lvalue (by omega)).assignmentHead.completes⟩
  have hcall : CompletesUpTo k (call n) (call (n + 1)) :=
    ⟨(expressionsLocate n).call, fun ts hts =>
      ((expressionsSettle n).call (by omega)).completes⟩
  refine hhead.bind fun target => ?_
  cases target with
  | some target =>
      exact (upTo_expression h).bind fun _ => (upTo_expect .semicolon).bind fun _ => upTo_pure _
  | none =>
      refine hcall.bind fun called => ?_
      cases called with
      | none => exact upTo_pure none
      | some e => exact (upTo_expect .semicolon).bind fun _ => upTo_pure _

/-! ## Statements -/

/-- With `n` units of fuel every parser of statements completes tokens that are not too many. -/
structure StatementsComplete (n : Nat) : Prop where
  statement : ∀ {ts}, 24 * ts.length + 18 ≤ n → Completes (statement n) (statement (n + 1)) ts
  keywordStatement : ∀ {word p ts}, 24 * ts.length + 20 ≤ n →
    Completes (keywordStatement n word p) (keywordStatement (n + 1) word p)
      (⟨.keyword word, p⟩ :: ts)
  requiredStatement : ∀ {ts}, 24 * ts.length + 19 ≤ n →
    Completes (requiredStatement n) (requiredStatement (n + 1)) ts
  block : ∀ {ts}, 24 * ts.length + 1 ≤ n → Completes (block n) (block (n + 1)) ts
  blockBody : ∀ {ts}, 24 * ts.length + 20 ≤ n → Completes (blockBody n) (blockBody (n + 1)) ts

namespace StatementsComplete

variable (ih : StatementsComplete n)

include ih

/-- A statement that must be there completes up to the length that its fuel is for. -/
theorem upTo_requiredStatement (h : 24 * k + 19 ≤ n) :
    CompletesUpTo k (Parser.requiredStatement n) (Parser.requiredStatement (n + 1)) where
  locates := (statementsLocate n).requiredStatement
  completes ts hts := ih.requiredStatement (by omega)

/-- What `if` and `while` begin with. -/
theorem guarded (h : 24 * k + 19 ≤ n) {f : Expr → Statement → Parser α}
    {g : Expr → Statement → Parser α}
    (hf : ∀ condition body, CompletesUpTo k (f condition body) (g condition body)) :
    CompletesUpTo k
      (do
        expect .openParen
        let condition ← expression n
        expect .closeParen
        let body ← Parser.requiredStatement n
        f condition body)
      (do
        expect .openParen
        let condition ← expression (n + 1)
        expect .closeParen
        let body ← Parser.requiredStatement (n + 1)
        g condition body) := by
  refine (upTo_expect _).bind fun _ => (upTo_expression (by omega)).bind fun condition => ?_
  exact (upTo_expect _).bind fun _ => (ih.upTo_requiredStatement h).bind (hf condition)

/-- After its keyword a statement has one token less, so the parts of it have enough
fuel. -/
theorem keywordStatement_succ {word : Keyword} {p : Position}
    (h : 24 * ts.length + 20 ≤ n + 1) :
    Completes (Parser.keywordStatement (n + 1) word p) (Parser.keywordStatement (n + 2) word p)
      (⟨.keyword word, p⟩ :: ts) := by
  -- the keyword is taken in any case, so only the tokens behind it count
  have hafter : ∀ {f g : Parser (Option Statement)}, CompletesUpTo ts.length f g →
      Completes (advance >>= fun _ => f) (advance >>= fun _ => g) (⟨.keyword word, p⟩ :: ts) :=
    fun hf => ⟨(hf.completes ts (Nat.le_refl _)).ends, (hf.completes ts (Nat.le_refl _)).same⟩
  have hexpression : CompletesUpTo ts.length (expression n) (expression (n + 1)) :=
    upTo_expression (by omega)
  have hstatement := ih.upTo_requiredStatement (k := ts.length) (by omega)
  have hsemicolon : ∀ s : Statement, CompletesUpTo ts.length
      (do expect .semicolon; pure (some s)) (do expect .semicolon; pure (some s)) := fun s =>
    (upTo_expect .semicolon).bind fun _ => upTo_pure (some s)
  cases word with
  | var =>
      refine hafter (upTo_identifier.bind fun name => (upTo_eat .assign).bind fun found => ?_)
      cases found with
      | true => exact hexpression.bind fun _ => hsemicolon _
      | false => exact hsemicolon _
  | forWord =>
      refine hafter ((upTo_expect _).bind fun _ => ?_)
      refine (fuelless_loopCounter.upTo locates_loopCounter).bind fun counter => ?_
      refine hexpression.bind fun start => (upTo_expect _).bind fun _ => ?_
      refine hexpression.bind fun condition => (upTo_expect _).bind fun _ => ?_
      refine hexpression.bind fun step => (upTo_expect _).bind fun _ => ?_
      exact hstatement.bind fun body => upTo_pure _
  | foreachWord =>
      refine hafter ((upTo_expect _).bind fun _ => (upTo_eatKeyword _).bind fun _ => ?_)
      refine upTo_identifier.bind fun item => ?_
      refine ((fuelless_expectKeyword _).upTo (locates_expectKeyword _)).bind fun _ => ?_
      refine hexpression.bind fun collection => (upTo_expect _).bind fun _ => ?_
      exact hstatement.bind fun body => upTo_pure _
  | ifWord =>
      refine hafter (ih.guarded (by omega) fun condition thenBranch => ?_)
      refine (upTo_eatKeyword _).bind fun found => ?_
      cases found with
      | some _ => exact hstatement.bind fun _ => upTo_pure _
      | none => exact upTo_pure _
  | whileWord => exact hafter (ih.guarded (by omega) fun condition body => upTo_pure _)
  | breakWord => exact hafter (hsemicolon _)
  | continueWord => exact hafter (hsemicolon _)
  | returnWord =>
      refine hafter ((upTo_eat .semicolon).bind fun found => ?_)
      cases found with
      | true => exact upTo_pure _
      | false => exact hexpression.bind fun _ => hsemicolon _
  | func | inWord | elseWord => exact (fuelless_pure none).completes

/-- A statement completes with the fuel for its tokens if its parts do. -/
theorem statement_succ (h : 24 * ts.length + 18 ≤ n + 1) :
    Completes (Parser.statement (n + 1)) (Parser.statement (n + 2)) ts := by
  refine settled_peek.completes.bind fun next rest hpeek => ?_
  obtain ⟨hnext, rfl⟩ := peek_done hpeek
  split
  next => exact (fuelless_pure none).completes
  next word p =>
    obtain ⟨ts, rfl⟩ := List.head?_eq_some_iff.mp hnext
    rw [List.length_cons] at h
    exact ih.keywordStatement (by omega)
  next => exact ih.block (by omega)
  next => exact (upTo_assignmentOrCall (by omega)).completes rest (Nat.le_refl _)

/-- A statement that must be there completes with the fuel for its tokens if its parts
do. -/
theorem requiredStatement_succ (h : 24 * ts.length + 19 ≤ n + 1) :
    Completes (Parser.requiredStatement (n + 1)) (Parser.requiredStatement (n + 2)) ts := by
  have hstatement : Completes (Parser.statement n) (Parser.statement (n + 1)) ts :=
    ih.statement (by omega)
  cases ts with
  | nil => exact ⟨fuelless_failAtNext .statementExpected [], rfl⟩
  | cons token ts =>
      have hbind : Completes
          (Parser.statement n >>= Run.ofOption ⟨.statementExpected, some token.position⟩)
          (Parser.statement (n + 1) >>= Run.ofOption ⟨.statementExpected, some token.position⟩)
          (token :: ts) := by
        refine hstatement.bind fun found rest _ => ?_
        cases found with
        | some s => exact (fuelless_pure s).completes
        | none => exact (fuelless_fail _).completes
      exact ⟨hbind.ends, hbind.same⟩

/-- A block completes with the fuel for its tokens if its statements do. -/
theorem block_succ (h : 24 * ts.length + 1 ≤ n + 1) :
    Completes (Parser.block (n + 1)) (Parser.block (n + 2)) ts := by
  refine settled_peek.completes.bind fun next rest hpeek => ?_
  obtain ⟨hnext, rfl⟩ := peek_done hpeek
  split
  next p =>
    obtain ⟨ts, rfl⟩ := List.head?_eq_some_iff.mp hnext
    rw [List.length_cons] at h
    refine settled_advance.completes.bind fun _ rest hadvance => ?_
    cases hadvance
    refine (ih.blockBody ?_).bind fun _ _ _ => (fuelless_pure _).completes
    rw [List.tail_cons]
    omega
  next => exact (fuelless_pure none).completes

/-- The rounds of a block complete: each of them takes a statement, so the next has fewer
tokens. -/
theorem blockBody_succ (h : 24 * ts.length + 20 ≤ n + 1) :
    Completes (Parser.blockBody (n + 1)) (Parser.blockBody (n + 2)) ts := by
  refine (fuelless_eat .closeBrace).completes.bind fun found rest heat => ?_
  rcases eat_done heat with ⟨rfl, -⟩ | ⟨rfl, -, rfl⟩
  · exact (fuelless_pure []).completes
  · refine (ih.requiredStatement (by omega)).bind fun first mid hfirst => ?_
    have htaken := length_lt_of_between ((statementsSound n).requiredStatement hfirst)
    exact (ih.blockBody (by omega)).bind fun _ _ _ => (fuelless_pure _).completes

end StatementsComplete

/-- All parsers of statements complete with the fuel for their tokens, by induction on the
fuel. -/
theorem statementsComplete (n : Nat) : StatementsComplete n := by
  induction n with
  | zero => constructor <;> intros <;> omega
  | succ n ih =>
      exact ⟨ih.statement_succ, ih.keywordStatement_succ, ih.requiredStatement_succ,
        ih.block_succ, ih.blockBody_succ⟩

/-! ## Functions and scripts -/

/-- The rounds over the parameters complete: each of them takes a name. -/
theorem parameters_completes {first : Bool} (h : ts.length + 1 ≤ n) :
    Completes (parameters n first) (parameters (n + 1) first) ts := by
  induction n generalizing first ts with
  | zero => omega
  | succ n ih =>
      refine (fuelless_eat .closeParen).completes.bind fun closed rest heat => ?_
      rcases eat_done heat with ⟨rfl, -⟩ | ⟨rfl, -, rfl⟩
      · exact (fuelless_pure _).completes
      refine (fuelless_separator first).completes.bind fun _ mid hseparator => ?_
      have hmid := (locates_separator first).length_le hseparator
      refine (fuelless_eat .ellipsis).completes.bind fun found mid' hellipsis => ?_
      rcases eat_done hellipsis with ⟨rfl, -⟩ | ⟨rfl, -, rfl⟩
      · refine (fuelless_eat .closeParen).completes.bind fun last _ _ => ?_
        cases last with
        | true => exact (fuelless_pure _).completes
        | false => exact (fuelless_nextPosition.bind fun _ => fuelless_fail _).completes
      · refine fuelless_identifier.completes.bind fun name last hname => ?_
        obtain ⟨p, rfl⟩ := identifier_done hname
        rw [List.length_cons] at hmid
        exact (ih (by omega)).bind fun _ _ _ => (fuelless_pure _).completes

/-- A function completes with the fuel for its tokens. -/
theorem function_completes (h : 24 * ts.length + 2 ≤ n) :
    Completes (function n) (function (n + 1)) ts := by
  obtain ⟨n, rfl⟩ : ∃ m, n = m + 1 := ⟨n - 1, by omega⟩
  have hparameters : CompletesUpTo ts.length (parameters n true) (parameters (n + 1) true) :=
    ⟨locates_parameters n true, fun us hus => parameters_completes (by omega)⟩
  have hblock : CompletesUpTo ts.length (block n) (block (n + 1)) :=
    ⟨(statementsLocate n).block, fun us hus => (statementsComplete n).block (by omega)⟩
  refine (fuelless_eatKeyword .func).completes.bind fun found rest heat => ?_
  have hrest := (locates_eatKeyword .func).length_le heat
  cases found with
  | none => exact (fuelless_pure none).completes
  | some p =>
      refine fuelless_identifier.completes.bind fun name mid hname => ?_
      have hmid := locates_identifier.length_le hname
      refine (fuelless_expect .openParen).completes.bind fun _ mid' hopen => ?_
      have hmid' := (locates_expect .openParen).length_le hopen
      refine (hparameters.completes mid' (by omega)).bind fun params last hparams => ?_
      have hlast := (locates_parameters n true).length_le hparams
      refine (hblock.completes last (by omega)).bind fun body _ _ => ?_
      split
      next => exact (fuelless_pure _).completes
      next => exact (fuelless_nextPosition.bind fun _ => fuelless_fail _).completes

/-- The rounds over the statements and functions of a script complete: each takes a token at
least. -/
theorem items_completes (h : 24 * ts.length + 19 ≤ n) :
    Completes (items n) (items (n + 1)) ts := by
  induction n generalizing ts with
  | zero => omega
  | succ n ih =>
      refine settled_peek.completes.bind fun next rest hpeek => ?_
      obtain ⟨-, rfl⟩ := peek_done hpeek
      cases next with
      | none => exact (fuelless_pure _).completes
      | some token =>
      refine ((statementsComplete n).statement (by omega)).bind fun s mid hstatement => ?_
      cases s with
      | some s =>
          have htaken := length_lt_of_between ((statementsSound n).statement hstatement)
          exact (ih (by omega)).bind fun _ _ _ => (fuelless_pure _).completes
      | none =>
      obtain rfl := (statementsSound n).statement_none hstatement
      refine (function_completes (by omega)).bind fun f mid' hfunction => ?_
      cases f with
      | some f =>
          have htaken := length_lt_of_function hfunction
          exact (ih (by omega)).bind fun _ _ _ => (fuelless_pure _).completes
      | none => exact (fuelless_fail _).completes

/-! ## Reading ends -/

/-- On every list of tokens the parser comes to an end with the fuel that is handed out for them,
and to the same end with any more. -/
def Finishes (p : Nat → Parser α) : Prop :=
  ∀ ts n, fuel ts ≤ n → (p n ts).1 ≠ .outOfFuel ∧ p n ts = p (fuel ts) ts

/-- Each step beyond the bound changes nothing, and the fuel that is handed out is beyond it. -/
theorem finishes_of_completes {p : Nat → Parser α} (bound : Nat) (hbound : bound ≤ 24)
    (h : ∀ {n ts}, 24 * ts.length + bound ≤ n → Completes (p n) (p (n + 1)) ts) : Finishes p := by
  intro ts n hn
  have henough : 24 * ts.length + bound ≤ fuel ts := by
    unfold fuel
    omega
  refine ⟨(h (Nat.le_trans henough hn)).ends, ?_⟩
  induction hn with
  | refl => rfl
  | step hn ih => exact (h (Nat.le_trans henough hn)).same.trans ih

/-- A family that is settled with so much fuel for each token finishes on every list of
tokens. -/
theorem finishes_of_settled {p : Nat → Parser α} (bound : Nat) (hbound : bound ≤ 24)
    (h : ∀ {n ts}, 24 * ts.length + bound ≤ n → Settled (p n) (p (n + 1)) ts) : Finishes p :=
  finishes_of_completes bound hbound fun hn => (h hn).completes

/-- A parser that may find nothing always ends, and leaves an end of its tokens however it comes
out: all of them if it finds nothing, and fewer if it finds something. -/
structure Progress (p : Nat → Parser (Option α)) : Prop where
  finishes : Finishes p
  suffix : ∀ n ts, (p n ts).2 <:+ ts
  nothing : ∀ {n ts rest}, p n ts = (.done none, rest) → rest = ts
  something : ∀ {n ts rest a}, p n ts = (.done (some a), rest) → rest.length < ts.length

/-- A parser that must find something always ends, and leaves an end of its tokens however it
comes out, and fewer of them if it succeeds. -/
structure Advances (p : Nat → Parser α) : Prop where
  finishes : Finishes p
  suffix : ∀ n ts, (p n ts).2 <:+ ts
  something : ∀ {n ts rest a}, p n ts = (.done a, rest) → rest.length < ts.length

/-- An expression is made of one token at least, and reading one ends. -/
theorem advances_expression : Advances expression where
  finishes := finishes_of_settled _ (by decide) (expressionsSettle _).expression
  suffix n := (expressionsLocate n).expression.suffix
  something h := ((expressionsSound _).expression h).length_lt (by simp)

/-- A statement that must be there is made of one token at least, and reading one ends. -/
theorem advances_requiredStatement : Advances requiredStatement where
  finishes := finishes_of_completes _ (by decide) (statementsComplete _).requiredStatement
  suffix n := (statementsLocate n).requiredStatement.suffix
  something h := length_lt_of_between ((statementsSound _).requiredStatement h)

/-- An expression goes forward if it is there, and takes nothing if it is not. -/
theorem progress_optionalExpression : Progress optionalExpression where
  finishes := finishes_of_settled _ (by decide) (expressionsSettle _).optionalExpression
  suffix n := (expressionsLocate n).optionalExpression.suffix
  nothing := optionalExpression_none
  something h := ((expressionsSound _).optionalExpression h).length_lt (by simp)

/-- An operation of any level goes forward if it is there, and takes nothing if it is
not. -/
theorem progress_binary {levels : List (List BinaryOp)} (hlevels : levels <:+ BinaryOp.levels) :
    Progress (binary · levels) where
  finishes := by
    have hlength : levels.length ≤ 10 := hlevels.length_le
    exact finishes_of_settled 14 (by decide) fun h => (expressionsSettle _).binary (by omega)
  suffix n := ((expressionsLocate n).binary levels).suffix
  nothing := binary_none
  something h := ((expressionsSound _).binary h).length_lt (by simp)

/-- An operand with its signs goes forward if it is there, and takes nothing if it is
not. -/
theorem progress_unary : Progress unary where
  finishes := finishes_of_settled _ (by decide) (expressionsSettle _).unary
  suffix n := (expressionsLocate n).unary.suffix
  nothing := unary_none
  something h := ((expressionsSound _).unary h).length_lt (by simp)

/-- A primary expression goes forward if it is there, and takes nothing if it is not. -/
theorem progress_primary : Progress primary where
  finishes := finishes_of_settled _ (by decide) (expressionsSettle _).primary
  suffix n := (expressionsLocate n).primary.suffix
  nothing := primary_none
  something h := ((expressionsSound _).primary h).length_lt (by simp)

/-- A place to assign to goes forward if it is there, and takes nothing if it is not. -/
theorem progress_lvalue : Progress lvalue where
  finishes := finishes_of_settled _ (by decide) (expressionsSettle _).lvalue
  suffix n := (expressionsLocate n).lvalue.suffix
  nothing h := (expressionsSound _).lvalue_none h
  something h := ((expressionsSound _).lvalue h).length_lt (by simp)

/-- A call goes forward if it is there, and takes nothing if it is not. -/
theorem progress_call : Progress call where
  finishes := finishes_of_settled _ (by decide) (expressionsSettle _).call
  suffix n := (expressionsLocate n).call.suffix
  nothing h := (expressionsSound _).call_none h
  something h := ((expressionsSound _).call h).length_lt (by simp)

/-- A statement goes forward if it is there, and takes nothing if it is not. -/
theorem progress_statement : Progress statement where
  finishes := finishes_of_completes _ (by decide) (statementsComplete _).statement
  suffix n := (statementsLocate n).statement.suffix
  nothing h := (statementsSound _).statement_none h
  something h := length_lt_of_between ((statementsSound _).statement h)

/-- A block goes forward if it is there, and takes nothing if it is not. -/
theorem progress_block : Progress block where
  finishes := finishes_of_completes _ (by decide) (statementsComplete _).block
  suffix n := (statementsLocate n).block.suffix
  nothing h := (statementsSound _).block_none h
  something h := length_lt_of_between ((statementsSound _).block h)

/-- A function goes forward if it is there, and takes nothing if it is not. -/
theorem progress_function : Progress function where
  finishes := finishes_of_completes _ (by decide) function_completes
  suffix n := (locates_function n).suffix
  nothing := function_none
  something := length_lt_of_function

/-- The operators of one level end; there are ten levels. -/
theorem finishes_chain {ops : List BinaryOp} {tighter : List (List BinaryOp)}
    (hlevels : ops :: tighter <:+ BinaryOp.levels) (left : Expr) :
    Finishes (chain · ops tighter left) := by
  have hlength : (ops :: tighter).length ≤ 10 := hlevels.length_le
  rw [List.length_cons] at hlength
  exact finishes_of_settled 14 (by decide) fun h => (expressionsSettle _).chain (by omega)

/-- **Reading goes forward and ends.**  Every parser that may find nothing leaves an end of its
tokens, all of them if it finds nothing and fewer if it finds something; an expression or a
statement that is required takes tokens if it is there.  So the loops end on every list of
tokens: those of a script, a block, the elements of a list or the arguments of a call, the
operators of a level, and the parameters of a function. -/
theorem reading_progresses :
    (Progress optionalExpression ∧
      (∀ levels, levels <:+ BinaryOp.levels → Progress (binary · levels)) ∧
      Progress unary ∧ Progress primary ∧ Progress lvalue ∧ Progress call ∧
      Progress statement ∧ Progress block ∧ Progress function) ∧
    (Advances expression ∧ Advances requiredStatement) ∧
    Finishes items ∧ Finishes blockBody ∧ (∀ closing, Finishes (separated · closing)) ∧
    (∀ ops tighter, ops :: tighter <:+ BinaryOp.levels →
      ∀ left, Finishes (chain · ops tighter left)) ∧
    ∀ first, Finishes (parameters · first) := by
  refine ⟨⟨progress_optionalExpression, fun _ => progress_binary, progress_unary, progress_primary,
    progress_lvalue, progress_call, progress_statement, progress_block, progress_function⟩,
    ⟨advances_expression, advances_requiredStatement⟩,
    finishes_of_completes _ (by decide) items_completes,
    finishes_of_completes _ (by decide) (statementsComplete _).blockBody, fun closing => ?_,
    fun _ _ => finishes_chain, fun first => ?_⟩
  · exact finishes_of_settled _ (by decide) (expressionsSettle _).separated
  · refine finishes_of_completes 1 (by decide) fun h => ?_
    exact parameters_completes (by omega)

end Parser

end Scriptlet
