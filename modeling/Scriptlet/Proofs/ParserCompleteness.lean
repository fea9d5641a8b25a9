import Scriptlet.Proofs.ExpressionCompleteness

/-!
# Every script of the grammar is read

What tokens derive is what the parser reads from them: statements, functions and
scripts, on top of what is known of expressions.  A statement is read in front
of any tokens that it does not take an `else` from (`Statement.EndsBefore`).
-/

namespace Scriptlet

namespace Parser

variable {ts us rest : List Token}

/-- An expression is read up to a symbol that ends expressions. -/
theorem expression_of_derives {e : Expr} (h : (Phrase.expression e).Derives ts) {n : Nat}
    (hn : 24 * ts.length + 16 ≤ n) {mark : Symbol} (hmark : mark.endsExpression = true)
    (q : Position) (rest : List Token) :
    expression n (ts ++ ⟨.symbol mark, q⟩ :: rest) = (.done e, ⟨.symbol mark, q⟩ :: rest) :=
  h.parsed n _ hn (Phrase.endsBefore_of_endsExpression hmark _ _ _)

/-- The tokens of an expression begin with one that an expression can begin with. -/
theorem startsWith_of_derives {e : Expr} (h : (Phrase.expression e).Derives ts) :
    StartsWith Lexeme.startsExpression ts :=
  h.startsWith.resolve_left (by simp)

/-- A counter is read from its tokens, and where there is none an expression begins. -/
theorem loopCounter_of_derives {counter : Option String} (h : LoopCounter counter ts)
    (hrest : StartsWith Lexeme.startsExpression rest) :
    loopCounter (ts ++ rest) = (.done counter, rest) := by
  cases h with
  | absent => exact Run.bind_eq_of_done (eatKeyword_of_ne (hrest.ne_keyword rfl)) rfl
  | declared =>
      refine Run.bind_eq_of_done (eatKeyword_keyword _ _ _) (Run.bind_eq_of_done rfl ?_)
      exact Run.bind_eq_of_done (expect_symbol _ _ _) rfl

/-- The word `var` before the item of a loop may be there or not. -/
theorem loopVar_of_derives (h : LoopVar ts) (item : String) (i : Position) (rest : List Token) :
    ∃ found, eatKeyword .var (ts ++ ⟨.identifier item, i⟩ :: rest) =
      (.done found, ⟨.identifier item, i⟩ :: rest) := by
  cases h with
  | absent => exact ⟨none, eatKeyword_of_ne (by simp)⟩
  | written => exact ⟨_, eatKeyword_keyword _ _ _⟩

/-! ## Statements -/

/-- What the parser makes of a statement, or of what stands between the braces of
a block. -/
def PassageParsed : Passage → List Token → Prop
  | .statement s, ts => ∀ n rest, 24 * ts.length + 1 ≤ n → s.EndsBefore rest →
      statement n (ts ++ rest) = (.done (some s), rest)
  | .statements ss, ts => ∀ n q rest, 24 * ts.length + 3 ≤ n →
      blockBody n (ts ++ ⟨.symbol .closeBrace, q⟩ :: rest) = (.done ss, rest)

namespace PassageParsed

/-- A statement that must be there is read. -/
theorem required {s : Statement} (h : PassageParsed (.statement s) ts)
    (hstart : StartsWith Lexeme.startsStatement ts) {n : Nat} (hn : 24 * ts.length + 2 ≤ n)
    (hends : s.EndsBefore rest) : requiredStatement n (ts ++ rest) = (.done s, rest) := by
  obtain ⟨m, rfl⟩ : ∃ m, n = m + 1 := ⟨n - 1, by omega⟩
  exact required_of_done (h m rest (by omega) hends) (hstart.append rest).ne_nil

/-- A statement that begins with a keyword is read by this keyword. -/
theorem of_keyword {s : Statement} {word : Keyword} {p : Position}
    (h : ∀ n rest, 24 * ts.length + 23 ≤ n → s.EndsBefore rest →
      keywordStatement (n + 1) word p (⟨.keyword word, p⟩ :: (ts ++ rest)) =
        (.done (some s), rest)) :
    PassageParsed (.statement s) (⟨.keyword word, p⟩ :: ts) := by
  intro n rest hn hends
  simp only [List.length_cons] at hn
  obtain ⟨m, rfl⟩ : ∃ m, n = m + 2 := ⟨n - 2, by omega⟩
  exact Run.bind_eq_of_done rfl (h m rest (by omega) hends)

/-- `var`, a name and a semicolon are read as a declaration. -/
theorem declaration {name : String} {p q r : Position} :
    PassageParsed (.statement (.declare p name none))
      [⟨.keyword .var, p⟩, ⟨.identifier name, q⟩, ⟨.symbol .semicolon, r⟩] := by
  refine of_keyword fun n rest hn _ => ?_
  refine Run.bind_eq_of_done rfl (Run.bind_eq_of_done rfl ?_)
  refine Run.bind_eq_of_done (eat_of_nextIs_eq_false rfl) ?_
  exact Run.bind_eq_of_done (expect_symbol _ _ _) rfl

/-- `var`, a name, `=` and an expression are read as a declaration with a value. -/
theorem initialization {name : String} {value : Expr} {p q r r' : Position}
    (hvalue : (Phrase.expression value).Derives ts) :
    PassageParsed (.statement (.declare p name (some value)))
      (⟨.keyword .var, p⟩ :: ⟨.identifier name, q⟩ :: ⟨.symbol .assign, r⟩ ::
        (ts ++ [⟨.symbol .semicolon, r'⟩])) := by
  refine of_keyword fun n rest hn _ => ?_
  simp only [List.length_cons, List.length_append, List.length_nil] at hn
  simp only [List.cons_append, List.append_assoc, List.nil_append]
  refine Run.bind_eq_of_done rfl (Run.bind_eq_of_done rfl ?_)
  refine Run.bind_eq_of_done (eat_symbol _ _ _) ?_
  refine Run.bind_eq_of_done (expression_of_derives hvalue (by omega) rfl r' rest) ?_
  exact Run.bind_eq_of_done (expect_symbol _ _ _) rfl

/-- A place, `=`, an expression and a semicolon are read as an assignment. -/
theorem assignment {target : LValue} {value : Expr} {q r : Position}
    (htarget : (Phrase.lvalue target).Derives ts) (hvalue : (Phrase.expression value).Derives us) :
    PassageParsed (.statement (.ofExpr (target.assign target.position value)))
      (ts ++ ⟨.symbol .assign, q⟩ :: (us ++ [⟨.symbol .semicolon, r⟩])) := by
  intro n rest hn _
  simp only [List.length_cons, List.length_append, List.length_nil] at hn
  simp only [List.cons_append, List.append_assoc, List.nil_append]
  obtain ⟨m, rfl⟩ : ∃ m, n = m + 1 := ⟨n - 1, by omega⟩
  have hends : (Phrase.lvalue target).EndsBefore
      (⟨.symbol .assign, q⟩ :: (us ++ ⟨.symbol .semicolon, r⟩ :: rest)) :=
    Phrase.endsBefore_symbol (by simp [Phrase.continuations]) q _
  have hhead := assignmentHead_of_assign (htarget.parsed m _ (by omega) hends)
  have hgo : expression m (us ++ ⟨.symbol .semicolon, r⟩ :: rest) =
      (.done value, ⟨.symbol .semicolon, r⟩ :: rest) :=
    expression_of_derives hvalue (by omega) rfl r rest
  -- an lvalue begins with a name or `...`, so neither a keyword nor a block is in front
  cases htarget with
  | named hname | element hname _ =>
      rcases Lexeme.lvalueName?_eq_some_iff.mp hname with rfl | ⟨rfl, -⟩
      all_goals
        refine Run.bind_eq_of_done rfl (Run.bind_eq_of_done hhead ?_)
        exact Run.bind_eq_of_done hgo (Run.bind_eq_of_done (expect_symbol _ _ _) rfl)

/-- A call and a semicolon are read as a statement. -/
theorem call {e : Expr} {r : Position} (h : (Phrase.call e).Derives ts) :
    PassageParsed (.statement (.ofExpr e)) (ts ++ [⟨.symbol .semicolon, r⟩]) := by
  intro n rest hn _
  simp only [List.length_cons, List.length_append, List.length_nil] at hn
  simp only [List.append_assoc, List.cons_append, List.nil_append]
  obtain ⟨m, rfl⟩ : ∃ m, n = m + 1 := ⟨n - 1, by omega⟩
  have hhead := h.parsed.1 m (⟨.symbol .semicolon, r⟩ :: rest) (by omega) rfl rfl
  have hcall := h.parsed.2 m (⟨.symbol .semicolon, r⟩ :: rest) (by omega)
  cases h
  refine Run.bind_eq_of_done rfl (Run.bind_eq_of_done hhead ?_)
  exact Run.bind_eq_of_done hcall (Run.bind_eq_of_done (expect_symbol _ _ _) rfl)

/-- `return` and a semicolon are read as a return without a value. -/
theorem returnNothing {p r : Position} :
    PassageParsed (.statement (.returns p none))
      [⟨.keyword .returnWord, p⟩, ⟨.symbol .semicolon, r⟩] := by
  refine of_keyword fun n rest hn _ => ?_
  exact Run.bind_eq_of_done rfl (Run.bind_eq_of_done (eat_symbol _ _ _) rfl)

/-- `return` with an expression is read as a return with a value. -/
theorem returnValue {value : Expr} {p r : Position}
    (hvalue : (Phrase.expression value).Derives ts) :
    PassageParsed (.statement (.returns p (some value)))
      (⟨.keyword .returnWord, p⟩ :: (ts ++ [⟨.symbol .semicolon, r⟩])) := by
  refine of_keyword fun n rest hn _ => ?_
  simp only [List.length_append, List.length_cons, List.length_nil] at hn
  simp only [List.append_assoc, List.cons_append, List.nil_append]
  have hnext : nextIs .semicolon (ts ++ ⟨.symbol .semicolon, r⟩ :: rest) = false :=
    ((startsWith_of_derives hvalue).append _).nextIs_eq_false rfl
  refine Run.bind_eq_of_done rfl (Run.bind_eq_of_done (eat_of_nextIs_eq_false hnext) ?_)
  refine Run.bind_eq_of_done (expression_of_derives hvalue (by omega) rfl r rest) ?_
  exact Run.bind_eq_of_done (expect_symbol _ _ _) rfl

/-- `break` and a semicolon are read as that statement. -/
theorem breaks {p r : Position} :
    PassageParsed (.statement (.breaks p))
      [⟨.keyword .breakWord, p⟩, ⟨.symbol .semicolon, r⟩] := by
  refine of_keyword fun n rest hn _ => ?_
  exact Run.bind_eq_of_done rfl (Run.bind_eq_of_done (expect_symbol _ _ _) rfl)

/-- `continue` and a semicolon are read as that statement. -/
theorem continues {p r : Position} :
    PassageParsed (.statement (.continues p))
      [⟨.keyword .continueWord, p⟩, ⟨.symbol .semicolon, r⟩] := by
  refine of_keyword fun n rest hn _ => ?_
  exact Run.bind_eq_of_done rfl (Run.bind_eq_of_done (expect_symbol _ _ _) rfl)

/-- The head of a `for` loop and a statement are read as the loop. -/
theorem forLoop {counter : Option String} {start condition step : Expr} {body : Statement}
    {cs ts ts' ts'' us : List Token} {p q r r' q' : Position} (hcounter : LoopCounter counter cs)
    (hstart : (Phrase.expression start).Derives ts)
    (hcondition : (Phrase.expression condition).Derives ts')
    (hstep : (Phrase.expression step).Derives ts'')
    (hbody : PassageParsed (.statement body) us)
    (hfirst : StartsWith Lexeme.startsStatement us) :
    PassageParsed (.statement (.forLoop p counter start condition step body))
      (⟨.keyword .forWord, p⟩ :: ⟨.symbol .openParen, q⟩ :: (cs ++ (ts ++
        ⟨.symbol .semicolon, r⟩ :: (ts' ++ ⟨.symbol .semicolon, r'⟩ ::
          (ts'' ++ ⟨.symbol .closeParen, q'⟩ :: us))))) := by
  refine of_keyword fun n rest hn hends => ?_
  simp only [List.length_append, List.length_cons] at hn
  simp only [List.append_assoc, List.cons_append]
  refine Run.bind_eq_of_done rfl (Run.bind_eq_of_done (expect_symbol _ _ _) ?_)
  refine Run.bind_eq_of_done (loopCounter_of_derives hcounter
    ((startsWith_of_derives hstart).append _)) ?_
  refine Run.bind_eq_of_done (expression_of_derives hstart (by omega) rfl r _) ?_
  refine Run.bind_eq_of_done (expect_symbol _ _ _) ?_
  refine Run.bind_eq_of_done (expression_of_derives hcondition (by omega) rfl r' _) ?_
  refine Run.bind_eq_of_done (expect_symbol _ _ _) ?_
  refine Run.bind_eq_of_done (expression_of_derives hstep (by omega) rfl q' _) ?_
  refine Run.bind_eq_of_done (expect_symbol _ _ _) ?_
  exact Run.bind_eq_of_done (hbody.required hfirst (by omega) hends) rfl

/-- The head of a `foreach` loop and a statement are read as the loop. -/
theorem forEach {item : String} {collection : Expr} {body : Statement} {vs ts us : List Token}
    {p q i r q' : Position} (hvar : LoopVar vs)
    (hcollection : (Phrase.expression collection).Derives ts)
    (hbody : PassageParsed (.statement body) us)
    (hfirst : StartsWith Lexeme.startsStatement us) :
    PassageParsed (.statement (.forEach p item collection body))
      (⟨.keyword .foreachWord, p⟩ :: ⟨.symbol .openParen, q⟩ :: (vs ++
        ⟨.identifier item, i⟩ :: ⟨.keyword .inWord, r⟩ ::
          (ts ++ ⟨.symbol .closeParen, q'⟩ :: us))) := by
  refine of_keyword fun n rest hn hends => ?_
  simp only [List.length_append, List.length_cons] at hn
  simp only [List.append_assoc, List.cons_append]
  refine Run.bind_eq_of_done rfl (Run.bind_eq_of_done (expect_symbol _ _ _) ?_)
  obtain ⟨found, hfound⟩ := loopVar_of_derives hvar item i
    (⟨.keyword .inWord, r⟩ :: (ts ++ ⟨.symbol .closeParen, q'⟩ :: (us ++ rest)))
  refine Run.bind_eq_of_done hfound (Run.bind_eq_of_done rfl ?_)
  refine Run.bind_eq_of_done (expectKeyword_keyword _ _ _) ?_
  refine Run.bind_eq_of_done (expression_of_derives hcollection (by omega) rfl q' _) ?_
  refine Run.bind_eq_of_done (expect_symbol _ _ _) ?_
  exact Run.bind_eq_of_done (hbody.required hfirst (by omega) hends) rfl

/-- What `if` and `while` begin with is read: a condition in parentheses and a
statement. -/
theorem guarded_eq {α : Type} {f : Expr → Statement → Parser α}
    {outcome : Outcome ParseError α × List Token}
    {condition : Expr} {body : Statement} (hcondition : (Phrase.expression condition).Derives ts)
    (hbody : PassageParsed (.statement body) us)
    (hfirst : StartsWith Lexeme.startsStatement us) {n : Nat}
    (hn : 24 * (ts.length + us.length) + 16 ≤ n) (hends : body.EndsBefore rest)
    (hgo : f condition body rest = outcome) (q q' : Position) :
    (do
      expect .openParen
      let condition ← expression n
      expect .closeParen
      let body ← requiredStatement n
      f condition body : Parser α)
      (⟨.symbol .openParen, q⟩ :: (ts ++ ⟨.symbol .closeParen, q'⟩ :: (us ++ rest))) = outcome := by
  refine Run.bind_eq_of_done (expect_symbol _ _ _) ?_
  refine Run.bind_eq_of_done (expression_of_derives hcondition (by omega) rfl q' _) ?_
  refine Run.bind_eq_of_done (expect_symbol _ _ _) ?_
  exact Run.bind_eq_of_done (hbody.required hfirst (by omega) hends) hgo

/-- `while`, a condition in parentheses and a statement are read as the loop. -/
theorem whileLoop {condition : Expr} {body : Statement} {p q q' : Position}
    (hcondition : (Phrase.expression condition).Derives ts)
    (hbody : PassageParsed (.statement body) us)
    (hfirst : StartsWith Lexeme.startsStatement us) :
    PassageParsed (.statement (.whileLoop p condition body))
      (⟨.keyword .whileWord, p⟩ :: ⟨.symbol .openParen, q⟩ ::
        (ts ++ ⟨.symbol .closeParen, q'⟩ :: us)) := by
  refine of_keyword fun n rest hn hends => ?_
  simp only [List.length_append, List.length_cons] at hn
  simp only [List.append_assoc, List.cons_append]
  exact Run.bind_eq_of_done rfl (guarded_eq hcondition hbody hfirst (by omega) hends rfl q q')

/-- `if`, a condition and a statement are read as a statement with one branch, unless `else`
follows. -/
theorem ifOnly {condition : Expr} {thenBranch : Statement} {p q q' : Position}
    (hcondition : (Phrase.expression condition).Derives ts)
    (hthen : PassageParsed (.statement thenBranch) us)
    (hfirst : StartsWith Lexeme.startsStatement us) :
    PassageParsed (.statement (.ifElse p condition thenBranch none))
      (⟨.keyword .ifWord, p⟩ :: ⟨.symbol .openParen, q⟩ ::
        (ts ++ ⟨.symbol .closeParen, q'⟩ :: us)) := by
  refine of_keyword fun n rest hn hends => ?_
  simp only [List.length_append, List.length_cons] at hn
  simp only [List.append_assoc, List.cons_append]
  -- no `else` follows the whole, so none follows its only part
  have hnoElse : ∀ r rest', rest ≠ ⟨.keyword .elseWord, r⟩ :: rest' := hends rfl
  refine Run.bind_eq_of_done rfl (guarded_eq hcondition hthen hfirst (by omega)
    (fun _ => hnoElse) ?_ q q')
  exact Run.bind_eq_of_done (eatKeyword_of_ne hnoElse) rfl

/-- `if` with `else` and another statement is read as a statement with two branches. -/
theorem ifElse {condition : Expr} {thenBranch elseBranch : Statement} {us' : List Token}
    {p q q' r : Position} (hcondition : (Phrase.expression condition).Derives ts)
    (hthen : PassageParsed (.statement thenBranch) us)
    (hfirst : StartsWith Lexeme.startsStatement us) (hnearest : thenBranch.takesElse = false)
    (helse : PassageParsed (.statement elseBranch) us')
    (hsecond : StartsWith Lexeme.startsStatement us') :
    PassageParsed (.statement (.ifElse p condition thenBranch (some elseBranch)))
      (⟨.keyword .ifWord, p⟩ :: ⟨.symbol .openParen, q⟩ ::
        (ts ++ ⟨.symbol .closeParen, q'⟩ :: (us ++ ⟨.keyword .elseWord, r⟩ :: us'))) := by
  refine of_keyword fun n rest hn hends => ?_
  simp only [List.length_append, List.length_cons] at hn
  simp only [List.append_assoc, List.cons_append]
  refine Run.bind_eq_of_done rfl (guarded_eq hcondition hthen hfirst (by omega)
    (Statement.endsBefore_of_takesElse hnearest _) ?_ q q')
  refine Run.bind_eq_of_done (eatKeyword_keyword _ _ _) ?_
  exact Run.bind_eq_of_done (helse.required hsecond (by omega) hends) rfl

/-! ## Blocks -/

/-- A block is read by its braces. -/
theorem block_eq {ss : List Statement} (h : PassageParsed (.statements ss) ts) {n : Nat}
    (hn : 24 * ts.length + 4 ≤ n) (p q : Position) (rest : List Token) :
    Parser.block n (⟨.symbol .openBrace, p⟩ :: (ts ++ ⟨.symbol .closeBrace, q⟩ :: rest)) =
      (.done (some (.block p ss)), rest) := by
  obtain ⟨m, rfl⟩ : ∃ m, n = m + 1 := ⟨n - 1, by omega⟩
  refine Run.bind_eq_of_done rfl (Run.bind_eq_of_done rfl ?_)
  exact Run.bind_eq_of_done (h m q rest (by omega)) rfl

/-- Statements between braces are read as a block. -/
theorem block {ss : List Statement} {p q : Position} (h : PassageParsed (.statements ss) ts) :
    PassageParsed (.statement (.block p ss))
      (⟨.symbol .openBrace, p⟩ :: (ts ++ [⟨.symbol .closeBrace, q⟩])) := by
  intro n rest hn _
  simp only [List.length_append, List.length_cons, List.length_nil] at hn
  simp only [List.cons_append, List.append_assoc, List.nil_append]
  obtain ⟨m, rfl⟩ : ∃ m, n = m + 1 := ⟨n - 1, by omega⟩
  exact Run.bind_eq_of_done rfl (h.block_eq (by omega) p q rest)

/-- In front of the closing brace no statements are read. -/
theorem noStatements : PassageParsed (.statements []) [] := by
  intro n q rest hn
  obtain ⟨m, rfl⟩ : ∃ m, n = m + 1 := ⟨n - 1, by omega⟩
  exact Run.bind_eq_of_done (eat_symbol _ _ _) rfl

/-- A statement is read, and then the others up to the closing brace. -/
theorem moreStatements {s : Statement} {ss : List Statement}
    (hfirst : StartsWith Lexeme.startsStatement ts) (h : PassageParsed (.statement s) ts)
    (hends : ∀ q rest, s.EndsBefore (us ++ ⟨.symbol .closeBrace, q⟩ :: rest))
    (hmore : PassageParsed (.statements ss) us) :
    PassageParsed (.statements (s :: ss)) (ts ++ us) := by
  intro n q rest hn
  have hpos : 0 < ts.length := List.length_pos_iff.mpr hfirst.ne_nil
  simp only [List.length_append] at hn
  rw [List.append_assoc]
  obtain ⟨m, rfl⟩ : ∃ m, n = m + 1 := ⟨n - 1, by omega⟩
  have hbrace : nextIs .closeBrace (ts ++ (us ++ ⟨.symbol .closeBrace, q⟩ :: rest)) = false :=
    (hfirst.append _).nextIs_eq_false rfl
  refine Run.bind_eq_of_done (eat_of_nextIs_eq_false hbrace) ?_
  refine Run.bind_eq_of_done (h.required hfirst (by omega) (hends q rest)) ?_
  exact Run.bind_eq_of_done (hmore m q rest (by omega)) rfl

end PassageParsed

end Parser

/-- Statements in a row have no tokens or begin as a statement does. -/
theorem Passage.Derives.statements_startsWith {ss : List Statement} {ts : List Token}
    (h : (Passage.statements ss).Derives ts) :
    ts = [] ∨ StartsWith Lexeme.startsStatement ts := by
  cases h with
  | noStatements => exact .inl rfl
  | moreStatements h _ => exact .inr ((h.startsWith rfl).append _)

/-- Inside a block every statement ends before those that follow it. -/
theorem Passage.Derives.endsBefore_statements {ss : List Statement} {ts : List Token}
    (h : (Passage.statements ss).Derives ts) (s : Statement) (q : Position) (rest : List Token) :
    s.EndsBefore (ts ++ ⟨.symbol .closeBrace, q⟩ :: rest) := by
  intro _
  rcases h.statements_startsWith with rfl | hstart
  · simp
  · exact (hstart.append _).ne_keyword rfl

/-- **Every statement that tokens derive is read from them.** -/
theorem Passage.Derives.parsed {passage : Passage} {ts : List Token} (h : passage.Derives ts) :
    Parser.PassageParsed passage ts := by
  induction h with
  | declaration => exact .declaration
  | initialization hvalue => exact .initialization hvalue
  | assignment htarget hvalue => exact .assignment htarget hvalue
  | call h => exact .call h
  | forLoop hcounter hstart hcondition hstep hbody ih =>
      exact .forLoop hcounter hstart hcondition hstep ih (hbody.startsWith rfl)
  | forEach hvar hcollection hbody ih =>
      exact .forEach hvar hcollection ih (hbody.startsWith rfl)
  | ifOnly hcondition hthen ih => exact .ifOnly hcondition ih (hthen.startsWith rfl)
  | ifElse hcondition hthen hnearest helse ih ih' =>
      exact .ifElse hcondition ih (hthen.startsWith rfl) hnearest ih' (helse.startsWith rfl)
  | whileLoop hcondition hbody ih => exact .whileLoop hcondition ih (hbody.startsWith rfl)
  | block _ ih => exact ih.block
  | returnNothing => exact .returnNothing
  | returnValue hvalue => exact .returnValue hvalue
  | breaks => exact .breaks
  | continues => exact .continues
  | noStatements => exact .noStatements
  | moreStatements h hmore ih ih' =>
      exact .moreStatements (h.startsWith rfl) ih (hmore.endsBefore_statements _) ih'

/-! ## Functions and scripts -/

namespace Parser

variable {ts rest : List Token}

/-- What stands before a parameter that is or is not the first. -/
def separatorTokens : (first : Bool) → Position → List Token
  | true, _ => []
  | false, c => [⟨.symbol .comma, c⟩]

/-- What stands before a parameter is passed. -/
theorem separator_separatorTokens (first : Bool) (c : Position) (ts : List Token) :
    separator first (separatorTokens first c ++ ts) = (.done (), ts) := by
  cases first with
  | true => rfl
  | false => exact expect_symbol _ _ _

/-- Parameters are read up to the closing parenthesis, by induction on their tokens. -/
theorem parameters_of_parameters1 {names : List String} {variadic : Bool}
    (h : Parameters1 names variadic ts) (n : Nat) (hn : ts.length + 1 ≤ n) (first : Bool)
    (c q : Position) (rest : List Token) :
    parameters n first (separatorTokens first c ++ (ts ++ ⟨.symbol .closeParen, q⟩ :: rest)) =
      (.done (names, variadic), rest) := by
  induction h generalizing n first c with
  | ellipsis =>
      obtain ⟨m, rfl⟩ : ∃ m, n = m + 1 := ⟨n - 1, by omega⟩
      refine Run.bind_eq_of_done (eat_of_nextIs_eq_false (by cases first <;> rfl)) ?_
      refine Run.bind_eq_of_done (separator_separatorTokens first c _) ?_
      refine Run.bind_eq_of_done (eat_symbol _ _ _) ?_
      exact Run.bind_eq_of_done (eat_symbol _ _ _) rfl
  | last =>
      simp only [List.length_cons] at hn
      obtain ⟨m, rfl⟩ : ∃ m, n = m + 2 := ⟨n - 2, by omega⟩
      refine Run.bind_eq_of_done (eat_of_nextIs_eq_false (by cases first <;> rfl)) ?_
      refine Run.bind_eq_of_done (separator_separatorTokens first c _) ?_
      refine Run.bind_eq_of_done (eat_of_nextIs_eq_false rfl) (Run.bind_eq_of_done rfl ?_)
      exact Run.bind_eq_of_done (Run.bind_eq_of_done (eat_symbol _ _ _) rfl) rfl
  | @more name names variadic ts p comma h ih =>
      simp only [List.length_cons] at hn
      obtain ⟨m, rfl⟩ : ∃ m, n = m + 1 := ⟨n - 1, by omega⟩
      refine Run.bind_eq_of_done (eat_of_nextIs_eq_false (by cases first <;> rfl)) ?_
      refine Run.bind_eq_of_done (separator_separatorTokens first c _) ?_
      refine Run.bind_eq_of_done (eat_of_nextIs_eq_false rfl) (Run.bind_eq_of_done rfl ?_)
      exact Run.bind_eq_of_done (ih m (by omega) false comma) rfl

/-- Parameters are read up to the closing parenthesis, also if there are none. -/
theorem parameters_of_derives {names : List String} {variadic : Bool}
    (h : Parameters names variadic ts) {n : Nat} (hn : ts.length + 1 ≤ n) (q : Position)
    (rest : List Token) :
    parameters n true (ts ++ ⟨.symbol .closeParen, q⟩ :: rest) =
      (.done (names, variadic), rest) := by
  cases h with
  | absent =>
      obtain ⟨m, rfl⟩ : ∃ m, n = m + 1 := ⟨n - 1, by omega⟩
      exact Run.bind_eq_of_done (eat_symbol _ _ _) rfl
  | given h => exact parameters_of_parameters1 h n hn true q q rest

/-- A function is read from its tokens. -/
theorem function_of_derives {f : FunctionDef} (h : f.Derives ts) {n : Nat}
    (hn : 24 * ts.length ≤ n) (rest : List Token) :
    function n (ts ++ rest) = (.done (some f), rest) := by
  cases h with
  | intro hparams hbody =>
      cases hbody with
      | block hstatements =>
          simp only [List.length_append, List.length_cons, List.length_nil] at hn
          simp only [List.append_assoc, List.cons_append, List.nil_append]
          obtain ⟨m, rfl⟩ : ∃ m, n = m + 1 := ⟨n - 1, by omega⟩
          refine Run.bind_eq_of_done (eatKeyword_keyword _ _ _) (Run.bind_eq_of_done rfl ?_)
          refine Run.bind_eq_of_done (expect_symbol _ _ _) ?_
          refine Run.bind_eq_of_done (parameters_of_derives hparams (by omega) _ _) ?_
          exact Run.bind_eq_of_done (hstatements.parsed.block_eq (by omega) _ _ rest) rfl

end Parser

/-- Items have no tokens or begin with a statement or with `func`; never with `else`. -/
theorem Items.ne_else {ss : List Statement} {fs : List FunctionDef} {ts : List Token}
    (h : Items ss fs ts) (p : Position) (rest : List Token) :
    ts ≠ ⟨.keyword .elseWord, p⟩ :: rest := by
  cases h with
  | nil => simp
  | statement h _ => exact ((h.startsWith rfl).append _).ne_keyword rfl p rest
  | function h _ =>
      cases h
      simp

/-- **Every list of items is read from its tokens.** -/
theorem Items.parsed {ss : List Statement} {fs : List FunctionDef} {ts : List Token}
    (h : Items ss fs ts) {n : Nat} (hn : 24 * ts.length + 2 ≤ n) :
    Parser.items n ts = (.done (ss, fs), []) := by
  induction h generalizing n with
  | nil =>
      obtain ⟨m, rfl⟩ : ∃ m, n = m + 1 := ⟨n - 1, by omega⟩
      rfl
  | @statement s ss fs ts ts' hstatement hmore ih =>
      obtain ⟨token, us, rfl, -⟩ := hstatement.startsWith rfl
      simp only [List.length_append, List.length_cons] at hn
      obtain ⟨m, rfl⟩ : ∃ m, n = m + 1 := ⟨n - 1, by omega⟩
      have hread : Parser.statement m (token :: us ++ ts') = (.done (some s), ts') :=
        hstatement.parsed m ts' (by simp only [List.length_cons]; omega) fun _ => hmore.ne_else
      refine Run.bind_eq_of_done rfl (Run.bind_eq_of_done hread ?_)
      exact Run.bind_eq_of_done (ih (by omega)) rfl
  | @function f ss fs ts ts' hfunction hmore ih =>
      have hlength : 24 * (ts ++ ts').length + 2 ≤ n := hn
      simp only [List.length_append] at hlength
      have hread := Parser.function_of_derives hfunction (n := n - 1) (by omega) ts'
      have hpos : 0 < ts.length := by
        cases hfunction
        simp
      obtain ⟨m, rfl⟩ : ∃ m, n = m + 3 := ⟨n - 3, by omega⟩
      -- `func` begins no statement, so a function is looked for
      have hnone : Parser.statement (m + 2) (ts ++ ts') = (.done none, ts ++ ts') := by
        cases hfunction
        rfl
      cases hfunction
      refine Run.bind_eq_of_done rfl (Run.bind_eq_of_done hnone ?_)
      refine Run.bind_eq_of_done hread ?_
      exact Run.bind_eq_of_done (ih (by omega)) rfl

/-- **Every script of the grammar is read from its tokens.** -/
theorem Script.Derives.ofTokens {script : Script} {ts : List Token} (h : script.Derives ts) :
    Script.ofTokens script.name ts = .ok script := by
  have hitems := Items.parsed h (n := Parser.fuel ts) (by unfold Parser.fuel; omega)
  unfold Script.ofTokens Parser.parse
  rw [hitems]
  rfl

end Scriptlet
