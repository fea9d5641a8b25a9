import Scriptlet.Proofs.Boundary
import Scriptlet.Proofs.ExpressionSoundness

/-!
# What the parser reads is derived by the grammar

Statements, functions and scripts, on top of what is known of expressions.

One fact about statements looks beyond the tokens that were taken.  A statement
that could take an `else` has looked for one, so none follows it
(`Statement.EndsBefore`); this is what makes an `else` belong to the nearest
`if` that can take it.
-/

namespace Scriptlet

/-- The statement stands at the front of `ts` and ends before `rest`. -/
def Statement.Between (s : Statement) (ts rest : List Token) : Prop :=
  ∃ used, ts = used ++ rest ∧ (Passage.statement s).Derives used ∧ s.EndsBefore rest

namespace Parser

/-- With `n` units of fuel every parser of statements reads what the grammar
derives.  One that finds nothing to start with leaves the tokens alone. -/
structure StatementsSound (n : Nat) : Prop where
  statement : ∀ {ts rest s}, Parser.statement n ts = (.done (some s), rest) → s.Between ts rest
  statement_none : ∀ {ts rest}, Parser.statement n ts = (.done none, rest) → rest = ts
  keywordStatement : ∀ {word p ts rest s},
    Parser.keywordStatement n word p (⟨.keyword word, p⟩ :: ts) = (.done (some s), rest) →
      s.Between (⟨.keyword word, p⟩ :: ts) rest
  keywordStatement_none : ∀ {word p ts rest},
    Parser.keywordStatement n word p ts = (.done none, rest) → rest = ts
  requiredStatement : ∀ {ts rest s}, Parser.requiredStatement n ts = (.done s, rest) →
    s.Between ts rest
  block : ∀ {ts rest s}, Parser.block n ts = (.done (some s), rest) → s.Between ts rest
  block_none : ∀ {ts rest}, Parser.block n ts = (.done none, rest) → rest = ts
  blockBody : ∀ {ts rest ss}, Parser.blockBody n ts = (.done ss, rest) →
    ∃ used q, ts = used ++ ⟨.symbol .closeBrace, q⟩ :: rest ∧
      (Passage.statements ss).Derives used

/-- A parser that never ends with `none`. -/
def Gives {α : Type} (p : Parser (Option α)) : Prop :=
  ∀ ts rest, p ts ≠ (.done none, rest)

namespace Gives

variable {α β : Type}

/-- Giving something is not giving nothing. -/
protected theorem some (a : α) : Gives (pure (some a)) := by
  intro ts rest h
  cases h

/-- A sequence gives something if its second part always does. -/
protected theorem bind {x : Parser β} {f : β → Parser (Option α)} (hf : ∀ b, Gives (f b)) :
    Gives (x >>= f) := by
  intro ts rest h
  obtain ⟨b, mid, -, hgo⟩ := Run.bind_eq_done_iff.mp h
  exact hf b mid rest hgo

end Gives

/-- The tokens that were taken for a counter are those of one. -/
theorem loopCounter_done {counter : Option String} {ts rest : List Token}
    (h : loopCounter ts = (.done counter, rest)) :
    ∃ used, ts = used ++ rest ∧ LoopCounter counter used := by
  obtain ⟨found, mid, heat, h₁⟩ := Run.bind_eq_done_iff.mp h
  rcases eatKeyword_done heat with ⟨p, rfl, rfl⟩ | ⟨rfl, rfl, -⟩
  · obtain ⟨name, _, hname, h₂⟩ := Run.bind_eq_done_iff.mp h₁
    obtain ⟨_, _, hassign, hpure⟩ := Run.bind_eq_done_iff.mp h₂
    cases hpure
    obtain ⟨q, rfl⟩ := identifier_done hname
    obtain ⟨r, rfl⟩ := expect_done hassign
    exact ⟨_, rfl, .declared⟩
  · cases h₁
    exact ⟨[], rfl, .absent⟩

/-- The word `var` before the item of a loop was taken or was not there. -/
theorem loopVar_done {found : Option Position} {ts rest : List Token}
    (h : eatKeyword .var ts = (.done found, rest)) :
    ∃ used, ts = used ++ rest ∧ LoopVar used := by
  rcases eatKeyword_done h with ⟨p, rfl, rfl⟩ | ⟨rfl, rfl, -⟩
  · exact ⟨[⟨.keyword .var, p⟩], rfl, .written⟩
  · exact ⟨[], rfl, .absent⟩

namespace StatementsSound

variable {n : Nat} {ts rest : List Token} {p : Position}

/-! ## The statements of the keywords -/

/-- A statement that was read from `var` on is a declaration. -/
theorem var_succ {s : Statement}
    (h : Parser.keywordStatement (n + 1) .var p (⟨.keyword .var, p⟩ :: ts) =
      (.done (some s), rest)) :
    s.Between (⟨.keyword .var, p⟩ :: ts) rest := by
  have h₁ := advance_bind_done h
  obtain ⟨name, _, hname, h₂⟩ := Run.bind_eq_done_iff.mp h₁
  obtain ⟨q, rfl⟩ := identifier_done hname
  obtain ⟨found, _, heat, h₃⟩ := Run.bind_eq_done_iff.mp h₂
  rcases eat_done heat with ⟨rfl, r, rfl⟩ | ⟨rfl, -, rfl⟩
  · obtain ⟨value, _, hexpression, h₄⟩ := Run.bind_eq_done_iff.mp h₃
    obtain ⟨_, _, hsemicolon, hpure⟩ := Run.bind_eq_done_iff.mp h₄
    cases hpure
    obtain ⟨used, rfl, hvalue⟩ := (expressionsSound n).expression hexpression
    obtain ⟨r', rfl⟩ := expect_done hsemicolon
    exact ⟨⟨.keyword .var, p⟩ :: ⟨.identifier name, q⟩ :: ⟨.symbol .assign, r⟩ ::
        (used ++ [⟨.symbol .semicolon, r'⟩]),
      by simp, .initialization hvalue, Statement.endsBefore_of_takesElse rfl _⟩
  · obtain ⟨_, _, hsemicolon, hpure⟩ := Run.bind_eq_done_iff.mp h₃
    cases hpure
    obtain ⟨r, rfl⟩ := expect_done hsemicolon
    exact ⟨_, rfl, .declaration, Statement.endsBefore_of_takesElse rfl _⟩

/-- `break` and `continue`, and any other keyword with nothing but a semicolon after it. -/
theorem semicolon_done {s s' : Statement} {word : Keyword}
    (h : (do advance; expect .semicolon; pure (some s) : Parser (Option Statement))
      (⟨.keyword word, p⟩ :: ts) = (.done (some s'), rest)) :
    s' = s ∧ ∃ r, ts = ⟨.symbol .semicolon, r⟩ :: rest := by
  have h₁ := advance_bind_done h
  obtain ⟨_, _, hsemicolon, hpure⟩ := Run.bind_eq_done_iff.mp h₁
  cases hpure
  exact ⟨rfl, expect_done hsemicolon⟩

/-- A statement that was read from `return` on is a return. -/
theorem returnWord_succ {s : Statement}
    (h : Parser.keywordStatement (n + 1) .returnWord p (⟨.keyword .returnWord, p⟩ :: ts) =
      (.done (some s), rest)) :
    s.Between (⟨.keyword .returnWord, p⟩ :: ts) rest := by
  have h₁ := advance_bind_done h
  obtain ⟨found, _, heat, h₂⟩ := Run.bind_eq_done_iff.mp h₁
  rcases eat_done heat with ⟨rfl, r, rfl⟩ | ⟨rfl, -, rfl⟩
  · cases h₂
    exact ⟨_, rfl, .returnNothing, Statement.endsBefore_of_takesElse rfl _⟩
  · obtain ⟨value, _, hexpression, h₃⟩ := Run.bind_eq_done_iff.mp h₂
    obtain ⟨_, _, hsemicolon, hpure⟩ := Run.bind_eq_done_iff.mp h₃
    cases hpure
    obtain ⟨used, hused, hvalue⟩ := (expressionsSound n).expression hexpression
    obtain ⟨r, rfl⟩ := expect_done hsemicolon
    exact ⟨⟨.keyword .returnWord, p⟩ :: (used ++ [⟨.symbol .semicolon, r⟩]),
      by simpa using hused, .returnValue hvalue, Statement.endsBefore_of_takesElse rfl _⟩

variable (ih : StatementsSound n)

include ih

/-- A statement that was read from `for` on is that loop. -/
theorem forWord_succ {s : Statement}
    (h : Parser.keywordStatement (n + 1) .forWord p (⟨.keyword .forWord, p⟩ :: ts) =
      (.done (some s), rest)) :
    s.Between (⟨.keyword .forWord, p⟩ :: ts) rest := by
  have h₁ := advance_bind_done h
  obtain ⟨_, _, hopen, h₂⟩ := Run.bind_eq_done_iff.mp h₁
  obtain ⟨counter, _, hcounter, h₃⟩ := Run.bind_eq_done_iff.mp h₂
  obtain ⟨start, _, hexpression, h₄⟩ := Run.bind_eq_done_iff.mp h₃
  obtain ⟨_, _, hsemicolon, h₅⟩ := Run.bind_eq_done_iff.mp h₄
  obtain ⟨condition, _, hexpression', h₆⟩ := Run.bind_eq_done_iff.mp h₅
  obtain ⟨_, _, hsemicolon', h₇⟩ := Run.bind_eq_done_iff.mp h₆
  obtain ⟨step, _, hexpression'', h₈⟩ := Run.bind_eq_done_iff.mp h₇
  obtain ⟨_, _, hclose, h₉⟩ := Run.bind_eq_done_iff.mp h₈
  obtain ⟨body, _, hstatement, hpure⟩ := Run.bind_eq_done_iff.mp h₉
  cases hpure
  obtain ⟨q, hts⟩ := expect_done hopen
  obtain ⟨cs, rfl, hcs⟩ := loopCounter_done hcounter
  obtain ⟨used, rfl, hstart⟩ := (expressionsSound n).expression hexpression
  obtain ⟨r, rfl⟩ := expect_done hsemicolon
  obtain ⟨used', rfl, hcondition⟩ := (expressionsSound n).expression hexpression'
  obtain ⟨r', rfl⟩ := expect_done hsemicolon'
  obtain ⟨used'', rfl, hstep⟩ := (expressionsSound n).expression hexpression''
  obtain ⟨q', rfl⟩ := expect_done hclose
  obtain ⟨inner, rfl, hbody, hends⟩ := ih.requiredStatement hstatement
  exact ⟨⟨.keyword .forWord, p⟩ :: ⟨.symbol .openParen, q⟩ :: (cs ++ (used ++
      ⟨.symbol .semicolon, r⟩ :: (used' ++ ⟨.symbol .semicolon, r'⟩ ::
        (used'' ++ ⟨.symbol .closeParen, q'⟩ :: inner)))),
    by simpa using hts, .forLoop hcs hstart hcondition hstep hbody, hends⟩

/-- A statement that was read from `foreach` on is that loop. -/
theorem foreachWord_succ {s : Statement}
    (h : Parser.keywordStatement (n + 1) .foreachWord p (⟨.keyword .foreachWord, p⟩ :: ts) =
      (.done (some s), rest)) :
    s.Between (⟨.keyword .foreachWord, p⟩ :: ts) rest := by
  have h₁ := advance_bind_done h
  obtain ⟨_, _, hopen, h₂⟩ := Run.bind_eq_done_iff.mp h₁
  obtain ⟨found, _, hvar, h₃⟩ := Run.bind_eq_done_iff.mp h₂
  obtain ⟨item, _, hitem, h₄⟩ := Run.bind_eq_done_iff.mp h₃
  obtain ⟨_, _, hin, h₅⟩ := Run.bind_eq_done_iff.mp h₄
  obtain ⟨collection, _, hexpression, h₆⟩ := Run.bind_eq_done_iff.mp h₅
  obtain ⟨_, _, hclose, h₇⟩ := Run.bind_eq_done_iff.mp h₆
  obtain ⟨body, _, hstatement, hpure⟩ := Run.bind_eq_done_iff.mp h₇
  cases hpure
  obtain ⟨q, hts⟩ := expect_done hopen
  obtain ⟨i, rfl⟩ := identifier_done hitem
  obtain ⟨r, rfl⟩ := expectKeyword_done hin
  obtain ⟨used, rfl, hcollection⟩ := (expressionsSound n).expression hexpression
  obtain ⟨q', rfl⟩ := expect_done hclose
  obtain ⟨inner, rfl, hbody, hends⟩ := ih.requiredStatement hstatement
  obtain ⟨vs, rfl, hvs⟩ := loopVar_done hvar
  exact ⟨⟨.keyword .foreachWord, p⟩ :: ⟨.symbol .openParen, q⟩ :: (vs ++
      ⟨.identifier item, i⟩ :: ⟨.keyword .inWord, r⟩ ::
        (used ++ ⟨.symbol .closeParen, q'⟩ :: inner)),
    by simpa using hts, .forEach hvs hcollection hbody, hends⟩

/-- What `if` and `while` begin with: a condition in parentheses and a statement. -/
theorem guarded_done {α : Type} {f : Expr → Statement → Parser α} {a : α}
    (h : (do
      expect .openParen
      let condition ← expression n
      expect .closeParen
      let body ← Parser.requiredStatement n
      f condition body : Parser α) ts = (.done a, rest)) :
    ∃ condition body q used q' inner mid,
      ts = ⟨.symbol .openParen, q⟩ :: (used ++ ⟨.symbol .closeParen, q'⟩ :: (inner ++ mid)) ∧
      (Phrase.expression condition).Derives used ∧ (Passage.statement body).Derives inner ∧
      body.EndsBefore mid ∧ f condition body mid = (.done a, rest) := by
  obtain ⟨_, _, hopen, h₁⟩ := Run.bind_eq_done_iff.mp h
  obtain ⟨condition, _, hexpression, h₂⟩ := Run.bind_eq_done_iff.mp h₁
  obtain ⟨_, _, hclose, h₃⟩ := Run.bind_eq_done_iff.mp h₂
  obtain ⟨body, mid, hstatement, h₄⟩ := Run.bind_eq_done_iff.mp h₃
  obtain ⟨q, hts⟩ := expect_done hopen
  obtain ⟨used, rfl, hcondition⟩ := (expressionsSound n).expression hexpression
  obtain ⟨q', rfl⟩ := expect_done hclose
  obtain ⟨inner, rfl, hbody, hends⟩ := ih.requiredStatement hstatement
  exact ⟨condition, body, q, used, q', inner, mid, hts, hcondition, hbody, hends, h₄⟩

/-- A statement that was read from `if` on has one branch or two, as `else` follows or
not. -/
theorem ifWord_succ {s : Statement}
    (h : Parser.keywordStatement (n + 1) .ifWord p (⟨.keyword .ifWord, p⟩ :: ts) =
      (.done (some s), rest)) :
    s.Between (⟨.keyword .ifWord, p⟩ :: ts) rest := by
  have h₁ := advance_bind_done h
  obtain ⟨condition, thenBranch, q, used, q', inner, _, hts, hcondition, hthen, hends, h₂⟩ :=
    ih.guarded_done h₁
  obtain ⟨found, _, helse, h₃⟩ := Run.bind_eq_done_iff.mp h₂
  rcases eatKeyword_done helse with ⟨r, rfl, rfl⟩ | ⟨rfl, rfl, hnoElse⟩
  · obtain ⟨elseBranch, _, hstatement', hpure⟩ := Run.bind_eq_done_iff.mp h₃
    cases hpure
    obtain ⟨inner', rfl, helse', hends'⟩ := ih.requiredStatement hstatement'
    -- the first part ended before an `else`, so it cannot take one
    have hnearest : thenBranch.takesElse = false := by
      cases htakes : thenBranch.takesElse with
      | false => rfl
      | true => exact absurd rfl (hends htakes r (inner' ++ rest))
    exact ⟨⟨.keyword .ifWord, p⟩ :: ⟨.symbol .openParen, q⟩ :: (used ++
        ⟨.symbol .closeParen, q'⟩ :: (inner ++ ⟨.keyword .elseWord, r⟩ :: inner')),
      by simpa using hts, .ifElse hcondition hthen hnearest helse', hends'⟩
  · cases h₃
    exact ⟨⟨.keyword .ifWord, p⟩ :: ⟨.symbol .openParen, q⟩ :: (used ++
        ⟨.symbol .closeParen, q'⟩ :: inner),
      by simpa using hts, .ifOnly hcondition hthen, fun _ => hnoElse⟩

/-- A statement that was read from `while` on is that loop. -/
theorem whileWord_succ {s : Statement}
    (h : Parser.keywordStatement (n + 1) .whileWord p (⟨.keyword .whileWord, p⟩ :: ts) =
      (.done (some s), rest)) :
    s.Between (⟨.keyword .whileWord, p⟩ :: ts) rest := by
  have h₁ := advance_bind_done h
  obtain ⟨condition, body, q, used, q', inner, _, hts, hcondition, hbody, hends, hpure⟩ :=
    ih.guarded_done h₁
  cases hpure
  exact ⟨⟨.keyword .whileWord, p⟩ :: ⟨.symbol .openParen, q⟩ :: (used ++
      ⟨.symbol .closeParen, q'⟩ :: inner),
    by simpa using hts, .whileLoop hcondition hbody, hends⟩

/-! ## One more unit of fuel -/

/-- A statement that was read from a keyword on is derived from it. -/
theorem keywordStatement_succ {word : Keyword} {s : Statement}
    (h : Parser.keywordStatement (n + 1) word p (⟨.keyword word, p⟩ :: ts) =
      (.done (some s), rest)) :
    s.Between (⟨.keyword word, p⟩ :: ts) rest := by
  cases word with
  | var => exact var_succ h
  | forWord => exact ih.forWord_succ h
  | foreachWord => exact ih.foreachWord_succ h
  | ifWord => exact ih.ifWord_succ h
  | whileWord => exact ih.whileWord_succ h
  | breakWord =>
      obtain ⟨rfl, r, rfl⟩ := semicolon_done h
      exact ⟨_, rfl, .breaks, Statement.endsBefore_of_takesElse rfl _⟩
  | continueWord =>
      obtain ⟨rfl, r, rfl⟩ := semicolon_done h
      exact ⟨_, rfl, .continues, Statement.endsBefore_of_takesElse rfl _⟩
  | returnWord => exact returnWord_succ h
  | func => cases h
  | inWord => cases h
  | elseWord => cases h

omit ih in
/-- A keyword that begins no statement is left. -/
theorem keywordStatement_none_succ {word : Keyword}
    (h : Parser.keywordStatement (n + 1) word p ts = (.done none, rest)) : rest = ts := by
  cases word with
  | func | inWord | elseWord =>
      cases h
      rfl
  | var =>
      refine absurd h (Gives.bind (fun _ => .bind fun _ => .bind fun found => ?_) ts rest)
      cases found with
      | true => exact .bind fun _ => .bind fun _ => .some _
      | false => exact .bind fun _ => .some _
  | forWord =>
      refine absurd h (Gives.bind (fun _ => .bind fun _ => .bind fun _ => .bind fun _ =>
        .bind fun _ => .bind fun _ => .bind fun _ => .bind fun _ => ?_) ts rest)
      exact .bind fun _ => .bind fun _ => .some _
  | foreachWord =>
      refine absurd h (Gives.bind (fun _ => .bind fun _ => .bind fun _ => .bind fun _ => ?_)
        ts rest)
      exact .bind fun _ => .bind fun _ => .bind fun _ => .bind fun _ => .some _
  | ifWord =>
      refine absurd h (Gives.bind (fun _ => .bind fun _ => .bind fun _ => .bind fun _ =>
        .bind fun _ => .bind fun found => ?_) ts rest)
      cases found with
      | some _ => exact .bind fun _ => .some _
      | none => exact .some _
  | whileWord =>
      refine absurd h (Gives.bind (fun _ => .bind fun _ => .bind fun _ => ?_) ts rest)
      exact .bind fun _ => .bind fun _ => .some _
  | breakWord | continueWord =>
      exact absurd h (Gives.bind (fun _ => .bind fun _ => .some _) ts rest)
  | returnWord =>
      refine absurd h (Gives.bind (fun _ => .bind fun found => ?_) ts rest)
      cases found with
      | true => exact .some _
      | false => exact .bind fun _ => .bind fun _ => .some _

/-- A statement that was read is derived: from its keyword on, as a block, an assignment or
a call. -/
theorem statement_succ {s : Statement}
    (h : Parser.statement (n + 1) ts = (.done (some s), rest)) : s.Between ts rest := by
  obtain ⟨next, _, hpeek, h₁⟩ := Run.bind_eq_done_iff.mp h
  obtain ⟨hnext, rfl⟩ := peek_done hpeek
  split at h₁
  next => cases h₁
  next word p =>
    obtain ⟨ts', rfl⟩ := List.head?_eq_some_iff.mp hnext
    exact ih.keywordStatement h₁
  next => exact ih.block h₁
  next =>
    obtain ⟨found, _, hhead, h₂⟩ := Run.bind_eq_done_iff.mp h₁
    rcases assignmentHead_done hhead with ⟨target, q, rfl, hlvalue⟩ | ⟨rfl, rfl⟩
    · obtain ⟨value, _, hexpression, h₃⟩ := Run.bind_eq_done_iff.mp h₂
      obtain ⟨_, _, hsemicolon, hpure⟩ := Run.bind_eq_done_iff.mp h₃
      cases hpure
      obtain ⟨used, rfl, htarget⟩ := (expressionsSound n).lvalue hlvalue
      obtain ⟨used', rfl, hvalue⟩ := (expressionsSound n).expression hexpression
      obtain ⟨r, rfl⟩ := expect_done hsemicolon
      exact ⟨used ++ ⟨.symbol .assign, q⟩ :: (used' ++ [⟨.symbol .semicolon, r⟩]),
        by simp, .assignment htarget hvalue, Statement.endsBefore_of_takesElse rfl _⟩
    · obtain ⟨called, _, hcall, h₃⟩ := Run.bind_eq_done_iff.mp h₂
      cases called with
      | none => cases h₃
      | some e =>
          obtain ⟨_, _, hsemicolon, hpure⟩ := Run.bind_eq_done_iff.mp h₃
          cases hpure
          obtain ⟨used, rfl, he⟩ := (expressionsSound n).call hcall
          obtain ⟨r, rfl⟩ := expect_done hsemicolon
          exact ⟨used ++ [⟨.symbol .semicolon, r⟩],
            by simp, .call he, Statement.endsBefore_of_takesElse rfl _⟩

/-- Where there is no statement, nothing is taken. -/
theorem statement_none_succ (h : Parser.statement (n + 1) ts = (.done none, rest)) :
    rest = ts := by
  obtain ⟨next, _, hpeek, h₁⟩ := Run.bind_eq_done_iff.mp h
  obtain ⟨hnext, rfl⟩ := peek_done hpeek
  split at h₁
  next =>
    cases h₁
    rfl
  next => exact ih.keywordStatement_none h₁
  next => exact ih.block_none h₁
  next =>
    obtain ⟨found, _, hhead, h₂⟩ := Run.bind_eq_done_iff.mp h₁
    rcases assignmentHead_done hhead with ⟨target, q, rfl, -⟩ | ⟨rfl, rfl⟩
    · exact absurd h₂ (Gives.bind (fun _ => .bind fun _ => .some _) _ rest)
    · obtain ⟨called, _, hcall, h₃⟩ := Run.bind_eq_done_iff.mp h₂
      cases called with
      | none =>
          cases h₃
          exact (expressionsSound n).call_none hcall
      | some e => exact absurd h₃ (Gives.bind (fun _ => .some _) _ rest)

/-- A statement that must be there is derived. -/
theorem requiredStatement_succ {s : Statement}
    (h : Parser.requiredStatement (n + 1) ts = (.done s, rest)) : s.Between ts rest :=
  ih.statement (required_done h)

/-- A block that was read is derived. -/
theorem block_succ {s : Statement} (h : Parser.block (n + 1) ts = (.done (some s), rest)) :
    s.Between ts rest := by
  obtain ⟨next, _, hpeek, h₁⟩ := Run.bind_eq_done_iff.mp h
  obtain ⟨hnext, rfl⟩ := peek_done hpeek
  split at h₁
  next p =>
    obtain ⟨ts', rfl⟩ := List.head?_eq_some_iff.mp hnext
    have h₂ := advance_bind_done h₁
    obtain ⟨ss, _, hbody, hpure⟩ := Run.bind_eq_done_iff.mp h₂
    cases hpure
    obtain ⟨used, q, hused, hss⟩ := ih.blockBody hbody
    exact ⟨⟨.symbol .openBrace, p⟩ :: (used ++ [⟨.symbol .closeBrace, q⟩]),
      by simpa using hused, .block hss, Statement.endsBefore_of_takesElse rfl _⟩
  next => cases h₁

omit ih in
/-- Where there is no block, nothing is taken. -/
theorem block_none_succ (h : Parser.block (n + 1) ts = (.done none, rest)) : rest = ts := by
  obtain ⟨next, _, hpeek, h₁⟩ := Run.bind_eq_done_iff.mp h
  obtain ⟨-, rfl⟩ := peek_done hpeek
  split at h₁
  next => exact absurd h₁ (Gives.bind (fun _ => .bind fun _ => .some _) _ rest)
  next =>
    cases h₁
    rfl

/-- The statements of a block are derived up to the closing brace. -/
theorem blockBody_succ {ss : List Statement}
    (h : Parser.blockBody (n + 1) ts = (.done ss, rest)) :
    ∃ used q, ts = used ++ ⟨.symbol .closeBrace, q⟩ :: rest ∧
      (Passage.statements ss).Derives used := by
  obtain ⟨found, _, heat, h₁⟩ := Run.bind_eq_done_iff.mp h
  rcases eat_done heat with ⟨rfl, q, rfl⟩ | ⟨rfl, -, rfl⟩
  · cases h₁
    exact ⟨[], q, rfl, .noStatements⟩
  · obtain ⟨first, _, hfirst, h₂⟩ := Run.bind_eq_done_iff.mp h₁
    obtain ⟨others, _, hothers, hpure⟩ := Run.bind_eq_done_iff.mp h₂
    cases hpure
    obtain ⟨used, rfl, hs, -⟩ := ih.requiredStatement hfirst
    obtain ⟨used', q, rfl, hss⟩ := ih.blockBody hothers
    exact ⟨used ++ used', q, by simp, .moreStatements hs hss⟩

end StatementsSound

/-- **Statements are read by the grammar.** -/
theorem statementsSound (n : Nat) : StatementsSound n := by
  induction n with
  | zero =>
      constructor <;> intros <;> rename_i h
      all_goals cases h
  | succ n ih =>
      exact ⟨ih.statement_succ, ih.statement_none_succ, ih.keywordStatement_succ,
        StatementsSound.keywordStatement_none_succ, ih.requiredStatement_succ, ih.block_succ,
        StatementsSound.block_none_succ, ih.blockBody_succ⟩

/-! ## Functions and scripts -/

/-- The tokens of the parameters that `Parser.parameters` has still to read: after
others there is a comma before them. -/
inductive RemainingParameters : (first : Bool) → List String → Bool → List Token → Prop where
  | absent {first : Bool} : RemainingParameters first [] false []
  | atFirst {names : List String} {variadic : Bool} {ts : List Token}
      (h : Parameters1 names variadic ts) : RemainingParameters true names variadic ts
  | afterOthers {names : List String} {variadic : Bool} {ts : List Token} {q : Position}
      (h : Parameters1 names variadic ts) :
      RemainingParameters false names variadic (⟨.symbol .comma, q⟩ :: ts)

/-- With what separates them from those before, parameters are remaining ones. -/
theorem separator_done {first : Bool} {names : List String} {variadic : Bool}
    {ts used rest : List Token} (h : separator first ts = (.done (), used ++ rest))
    (hparams : Parameters1 names variadic used) :
    ∃ used', ts = used' ++ rest ∧ RemainingParameters first names variadic used' := by
  cases first with
  | true =>
      cases h
      exact ⟨used, rfl, .atFirst hparams⟩
  | false =>
      obtain ⟨q, rfl⟩ := expect_done h
      exact ⟨⟨.symbol .comma, q⟩ :: used, rfl, .afterOthers hparams⟩

/-- The parameters that were read are those of their tokens, up to the closing
parenthesis. -/
theorem parameters_done {n : Nat} {first : Bool} {names : List String} {variadic : Bool}
    {ts rest : List Token} (h : parameters n first ts = (.done (names, variadic), rest)) :
    ∃ used q, ts = used ++ ⟨.symbol .closeParen, q⟩ :: rest ∧
      RemainingParameters first names variadic used := by
  induction n generalizing first names variadic ts rest with
  | zero => cases h
  | succ n ih =>
      obtain ⟨found, _, heat, h₁⟩ := Run.bind_eq_done_iff.mp h
      rcases eat_done heat with ⟨rfl, q, rfl⟩ | ⟨rfl, -, rfl⟩
      · cases h₁
        exact ⟨[], q, rfl, .absent⟩
      · obtain ⟨_, _, hlead, h₂⟩ := Run.bind_eq_done_iff.mp h₁
        obtain ⟨found, _, hellipsis, h₃⟩ := Run.bind_eq_done_iff.mp h₂
        rcases eat_done hellipsis with ⟨rfl, p, rfl⟩ | ⟨rfl, -, rfl⟩
        · obtain ⟨found, _, hclose, h₄⟩ := Run.bind_eq_done_iff.mp h₃
          rcases eat_done hclose with ⟨rfl, q, rfl⟩ | ⟨rfl, -, rfl⟩
          · cases h₄
            have hparams : Parameters1 [] true [⟨.symbol .ellipsis, p⟩] := .ellipsis
            obtain ⟨used, rfl, hused⟩ := separator_done hlead hparams
            exact ⟨used, q, rfl, hused⟩
          · obtain ⟨next, _, -, hfail⟩ := Run.bind_eq_done_iff.mp h₄
            cases hfail
        · obtain ⟨name, _, hname, h₄⟩ := Run.bind_eq_done_iff.mp h₃
          obtain ⟨⟨names', variadic'⟩, _, hothers, hpure⟩ := Run.bind_eq_done_iff.mp h₄
          cases hpure
          obtain ⟨p, rfl⟩ := identifier_done hname
          obtain ⟨used, q, rfl, hused⟩ := ih hothers
          have hparams :
              Parameters1 (name :: names') variadic (⟨.identifier name, p⟩ :: used) := by
            cases hused with
            | absent => exact .last
            | afterOthers hmore => exact .more hmore
          obtain ⟨used', rfl, hused'⟩ := separator_done hlead hparams
          exact ⟨used', q, rfl, hused'⟩

/-- A function that was read is derived. -/
theorem function_done {n : Nat} {f : FunctionDef} {ts rest : List Token}
    (h : function n ts = (.done (some f), rest)) :
    ∃ used, ts = used ++ rest ∧ f.Derives used := by
  cases n with
  | zero => cases h
  | succ n =>
      obtain ⟨found, _, heat, h₁⟩ := Run.bind_eq_done_iff.mp h
      rcases eatKeyword_done heat with ⟨p, rfl, rfl⟩ | ⟨rfl, -, -⟩
      · obtain ⟨name, _, hname, h₂⟩ := Run.bind_eq_done_iff.mp h₁
        obtain ⟨_, _, hopen, h₃⟩ := Run.bind_eq_done_iff.mp h₂
        obtain ⟨⟨params, variadic⟩, _, hparameters, h₄⟩ := Run.bind_eq_done_iff.mp h₃
        obtain ⟨body, _, hblock, h₅⟩ := Run.bind_eq_done_iff.mp h₄
        obtain ⟨n', rfl⟩ := identifier_done hname
        obtain ⟨q, rfl⟩ := expect_done hopen
        obtain ⟨used, q', rfl, hused⟩ := parameters_done hparameters
        have hparams : Parameters params variadic used := by
          cases hused with
          | absent => exact .absent
          | atFirst hmore => exact .given hmore
        split at h₅
        next bodyPosition statements =>
          cases h₅
          obtain ⟨inner, rfl, hbody, -⟩ := (statementsSound n).block hblock
          exact ⟨⟨.keyword .func, p⟩ :: ⟨.identifier name, n'⟩ :: ⟨.symbol .openParen, q⟩ ::
              (used ++ ⟨.symbol .closeParen, q'⟩ :: inner),
            by simp, .intro hparams hbody⟩
        next =>
          obtain ⟨next, _, -, hfail⟩ := Run.bind_eq_done_iff.mp h₅
          cases hfail
      · cases h₁

/-- **Items are read by the grammar, up to the last token.** -/
theorem items_done {n : Nat} {ss : List Statement} {fs : List FunctionDef}
    {ts rest : List Token} (h : items n ts = (.done (ss, fs), rest)) :
    Items ss fs ts ∧ rest = [] := by
  induction n generalizing ss fs ts with
  | zero => cases h
  | succ n ih =>
      obtain ⟨next, _, hpeek, h₁⟩ := Run.bind_eq_done_iff.mp h
      obtain ⟨hnext, rfl⟩ := peek_done hpeek
      cases next with
      | none =>
          cases h₁
          rw [List.head?_eq_none_iff] at hnext
          subst hnext
          exact ⟨.nil, rfl⟩
      | some token =>
          obtain ⟨found, mid, hstatement, h₂⟩ := Run.bind_eq_done_iff.mp h₁
          cases found with
          | some s =>
              obtain ⟨⟨ss', fs'⟩, _, hitems, hpure⟩ := Run.bind_eq_done_iff.mp h₂
              cases hpure
              obtain ⟨used, rfl, hs, -⟩ := (statementsSound n).statement hstatement
              obtain ⟨hmore, hend⟩ := ih hitems
              exact ⟨.statement hs hmore, hend⟩
          | none =>
              obtain rfl := (statementsSound n).statement_none hstatement
              obtain ⟨found, mid', hfunction, h₃⟩ := Run.bind_eq_done_iff.mp h₂
              cases found with
              | none => cases h₃
              | some f =>
                  obtain ⟨⟨ss', fs'⟩, _, hitems, hpure⟩ := Run.bind_eq_done_iff.mp h₃
                  cases hpure
                  obtain ⟨used, rfl, hf⟩ := function_done hfunction
                  obtain ⟨hmore, hend⟩ := ih hitems
                  exact ⟨.function hf hmore, hend⟩

/-- A reading with the fuel for its tokens that gives a value has really ended with it. -/
theorem parse_eq_ok {α : Type} {p : Nat → Parser α} {ts : List Token} {a : α}
    (h : (parse p ts).1 = .ok a) : ∃ rest, p (fuel ts) ts = (.done a, rest) := by
  unfold parse at h
  rcases hp : p (fuel ts) ts with ⟨b | e | _, rest⟩ <;> rw [hp] at h <;> cases h
  exact ⟨rest, rfl⟩

end Parser

namespace Script

/-- **Whatever is read is derived.**  If reading the tokens gives a script, the
whole list of tokens derives this script by the rules of the grammar. -/
theorem derives_of_ofTokens {name : String} {tokens : List Token} {script : Script}
    (h : ofTokens name tokens = .ok script) : script.name = name ∧ script.Derives tokens := by
  unfold ofTokens at h
  split at h
  next statements functions hparse =>
    cases h
    obtain ⟨rest, hitems⟩ := Parser.parse_eq_ok hparse
    exact ⟨rfl, (Parser.items_done hitems).1⟩
  next => cases h

/-- `if (a) if (b) f(); else x = -a - b - (x);` and `func f(...) {}`. -/
def danglingElse : List Token :=
  [.keyword .ifWord, .symbol .openParen, .identifier "a", .symbol .closeParen,
    .keyword .ifWord, .symbol .openParen, .identifier "b", .symbol .closeParen,
    .identifier "f", .symbol .openParen, .symbol .closeParen, .symbol .semicolon,
    .keyword .elseWord, .identifier "x", .symbol .assign, .symbol .minus, .identifier "a",
    .symbol .minus, .identifier "b", .symbol .minus, .symbol .openParen, .identifier "x",
    .symbol .closeParen, .symbol .semicolon,
    .keyword .func, .identifier "f", .symbol .openParen, .symbol .ellipsis, .symbol .closeParen,
    .symbol .openBrace, .symbol .closeBrace].map (⟨·, ⟨"s", 1, 1⟩⟩)

/-- The script that `danglingElse` is read as. -/
def nearestIf : Script :=
  let p : Position := ⟨"s", 1, 1⟩
  let difference : Expr :=
    .binary p .sub p (.binary p .sub p (.unary p .negate (.var p "a")) (.var p "b")) (.var p "x")
  let inner : Statement :=
    .ifElse p (.var p "b") (.evaluate p (.call p "f" []))
      (some (.evaluate p (.assign p p "x" difference)))
  ⟨"s", [.ifElse p (.var p "a") inner none], [⟨p, ⟨"f", [], true⟩, p, []⟩]⟩

/-- The `else` belongs to the second `if`, the differences group to the left and
the parentheses leave no node. -/
theorem derives_of_ofTokens_danglingElse :
    ofTokens "s" danglingElse = .ok nearestIf ∧ nearestIf.Derives danglingElse := by
  have h : ofTokens "s" danglingElse = .ok nearestIf := by rfl
  exact ⟨h, (derives_of_ofTokens h).2⟩

end Script

end Scriptlet
