import Scriptlet.Proofs.Boundary

/-!
# Every expression of the grammar is read

If tokens derive a phrase and nothing after them carries it on, the parser of
the phrase gives the phrase's tree and leaves what comes after.  The fuel that
is needed grows by twenty-four with each token, and within that by the rank of
the phrase in the chain of calls: `24 * ts.length` for lvalues and calls, and
sixteen more for expressions.

The proof is by induction on the derivation (`Phrase.Derives.parsed`), one lemma
per rule.  Two things have to be carried along:

* A level of operators groups to the left, but the parser reads its first
  operand with a function of its own and goes on from there.  So what is known
  of an operand chain is not what it gives but where it stands after it
  (`Parser.ReachesChain`).
* A conditional is read only after an lvalue with `=` was looked for in vain
  (`Parser.NoTarget`).
-/

namespace Scriptlet

namespace Parser

/-- An lvalue with `=` after it is looked for in vain in front of these tokens,
unless what follows them makes it one. -/
def NoTarget (ts : List Token) : Prop :=
  ∀ n rest, 24 * ts.length ≤ n → nextIs .openBracket rest = false → nextIs .assign rest = false →
    assignmentHead (lvalue n) (ts ++ rest) = (.done none, ts ++ rest)

/-- After tokens that derive operands of one level, the parser stands in the
chain of this level, with less fuel by at most one unit per token. -/
def ReachesChain (ops : List BinaryOp) (tighter : List (List BinaryOp)) (e : Expr)
    (ts : List Token) : Prop :=
  ∀ n rest, 24 * ts.length + 4 + tighter.length ≤ n + 1 →
    (Phrase.binary tighter e).EndsBefore rest →
    ∃ k, k ≤ ts.length ∧ binary (n + 1) (ops :: tighter) (ts ++ rest) =
      (chain (n - k) ops tighter e >>= fun whole => pure (some whole)) rest

/-- What the parser makes of a phrase in front of any tokens that do not carry it on. -/
def Parsed : Phrase → List Token → Prop
  | .expression e, ts => ∀ n rest, 24 * ts.length + 16 ≤ n →
      (Phrase.expression e).EndsBefore rest → expression n (ts ++ rest) = (.done e, rest)
  | .conditional e, ts => NoTarget ts ∧ ∀ n rest, 24 * ts.length + 14 ≤ n →
      (Phrase.conditional e).EndsBefore rest →
        conditional n (ts ++ rest) = (.done (some e), rest)
  | .binary [] e, ts => NoTarget ts ∧ ∀ n rest, 24 * ts.length + 3 ≤ n →
      (Phrase.binary [] e).EndsBefore rest → binary n [] (ts ++ rest) = (.done (some e), rest)
  | .binary (ops :: tighter) e, ts => NoTarget ts ∧
      ((ops :: tighter).flatten.Nodup → ReachesChain ops tighter e ts)
  | .unary e, ts => NoTarget ts ∧ ∀ n rest, 24 * ts.length + 2 ≤ n →
      (Phrase.unary e).EndsBefore rest → unary n (ts ++ rest) = (.done (some e), rest)
  | .primary e, ts => NoTarget ts ∧ ∀ n rest, 24 * ts.length + 1 ≤ n →
      (Phrase.primary e).EndsBefore rest → primary n (ts ++ rest) = (.done (some e), rest)
  | .lvalue target, ts => ∀ n rest, 24 * ts.length ≤ n → (Phrase.lvalue target).EndsBefore rest →
      lvalue n (ts ++ rest) = (.done (some target), rest)
  | .call e, ts => NoTarget ts ∧ ∀ n rest, 24 * ts.length ≤ n →
      call n (ts ++ rest) = (.done (some e), rest)
  | .elements es, ts => ∀ n closing q rest, closing = .closeParen ∨ closing = .closeBracket →
      24 * ts.length + 18 ≤ n →
        separated n closing (ts ++ ⟨.symbol closing, q⟩ :: rest) = (.done es, rest)
  | .elements1 es, ts => ∀ n closing q rest, closing = .closeParen ∨ closing = .closeBracket →
      24 * ts.length + 17 ≤ n →
        separated1 n closing (ts ++ ⟨.symbol closing, q⟩ :: rest) = (.done es, rest)

/-! ## Looking for an lvalue in vain -/

namespace NoTarget

variable {ts : List Token}

/-- No lvalue is in front of a token that begins none. -/
theorem of_lvalueName?_eq_none {lexeme : Lexeme} (h : lexeme.lvalueName? = none) (p : Position)
    (ts : List Token) : NoTarget (⟨lexeme, p⟩ :: ts) := by
  intro n rest hn _ _
  obtain ⟨m, rfl⟩ : ∃ m, n = m + 1 := ⟨n - 1, by simp only [List.length_cons] at hn; omega⟩
  have hhead := lvalueHead_of_eq_none h p (ts ++ rest)
  exact assignmentHead_of_none (Run.bind_eq_of_done hhead rfl)

/-- The name of a call is an lvalue, but a parenthesis follows it. -/
theorem of_call (name : String) (p q : Position) (ts : List Token) :
    NoTarget (⟨.identifier name, p⟩ :: ⟨.symbol .openParen, q⟩ :: ts) := by
  intro n rest hn _ _
  obtain ⟨m, rfl⟩ : ∃ m, n = m + 1 := ⟨n - 1, by simp only [List.length_cons] at hn; omega⟩
  have hlvalue : lvalue (m + 1) (⟨.identifier name, p⟩ :: ⟨.symbol .openParen, q⟩ :: (ts ++ rest)) =
      (.done (some (.var p name)), ⟨.symbol .openParen, q⟩ :: (ts ++ rest)) :=
    Run.bind_eq_of_done rfl (Run.bind_eq_of_done (eat_of_nextIs_eq_false rfl) rfl)
  exact assignmentHead_of_nextIs_eq_false hlvalue rfl

/-- An lvalue is found, but no `=` follows it. -/
theorem of_lvalue {target : LValue} (h : Parsed (.lvalue target) ts) : NoTarget ts := by
  intro n rest hn hbracket hassign
  have hends : (Phrase.lvalue target).EndsBefore rest := by
    intro mark hmark
    obtain rfl : mark = .openBracket := by simpa [Phrase.continuations] using hmark
    exact hbracket
  exact assignmentHead_of_nextIs_eq_false (h n rest hn hends) hassign

/-- Where there is no target in front, there is none in front of more tokens. -/
theorem append (h : NoTarget ts) {mark : Symbol} (hbracket : mark ≠ .openBracket)
    (hassign : mark ≠ .assign) (q : Position) (us : List Token) :
    NoTarget (ts ++ ⟨.symbol mark, q⟩ :: us) := by
  intro n rest hn _ _
  rw [List.append_assoc, List.cons_append]
  refine h n _ ?_ (by simpa [nextIs] using hbracket) (by simpa [nextIs] using hassign)
  simp only [List.length_append, List.length_cons] at hn
  omega

end NoTarget

/-! ## Levels of operators -/

/-- If no operator is in two levels, none is in two of the tighter ones. -/
theorem nodup_flatten_of_cons {ops : List BinaryOp} {tighter : List (List BinaryOp)}
    (h : (ops :: tighter).flatten.Nodup) : tighter.flatten.Nodup := by
  rw [List.flatten_cons, List.nodup_append] at h
  exact h.2.1

/-- A level of operators ends where the chain does. -/
theorem Parsed.binary {levels : List (List BinaryOp)} {e : Expr} {ts : List Token}
    (h : Parsed (.binary levels e) ts) (hnodup : levels.flatten.Nodup) {n : Nat}
    {rest : List Token} (hn : 24 * ts.length + 3 + levels.length ≤ n)
    (hends : (Phrase.binary levels e).EndsBefore rest) :
    Parser.binary n levels (ts ++ rest) = (.done (some e), rest) := by
  cases levels with
  | nil => exact h.2 n rest hn hends
  | cons ops tighter =>
      simp only [List.length_cons] at hn
      obtain ⟨m, rfl⟩ : ∃ m, n = m + 1 := ⟨n - 1, by omega⟩
      obtain ⟨k, hk, hreach⟩ := h.2 hnodup m rest (by omega) hends.tighter
      rw [hreach]
      obtain ⟨j, hj⟩ : ∃ j, m - k = j + 1 := ⟨m - k - 1, by omega⟩
      rw [hj]
      have hnone : operatorAmong ops rest = (.done none, rest) :=
        operatorAmong_of_nextIs_eq_false fun op hop => hends.nextIs_operator hop
      exact Run.bind_eq_of_done (Run.bind_eq_of_done hnone rfl) rfl

namespace Parsed

variable {e : Expr} {ts ts' ts'' : List Token}

/-- In front of an operation no assignment is found, unless `=` follows. -/
theorem noTarget_binary {levels : List (List BinaryOp)} (h : Parsed (.binary levels e) ts) :
    NoTarget ts := by
  cases levels with
  | nil => exact h.1
  | cons ops tighter => exact h.1

/-- On every level the parser passes an operation of a tighter one through. -/
theorem ofTighter {ops : List BinaryOp} {tighter : List (List BinaryOp)}
    (h : Parsed (.binary tighter e) ts) : Parsed (.binary (ops :: tighter) e) ts := by
  refine ⟨h.noTarget_binary, fun hnodup n rest hn hends => ⟨0, Nat.zero_le _, ?_⟩⟩
  exact Run.bind_eq_of_done (h.binary (nodup_flatten_of_cons hnodup) (by omega) hends) rfl

/-- In the chain of its level the parser takes an operator and its right operand. -/
theorem operation {ops : List BinaryOp} {tighter : List (List BinaryOp)} {op : BinaryOp}
    {left right : Expr} {p : Position} (hop : op ∈ ops)
    (hleft : Parsed (.binary (ops :: tighter) left) ts)
    (hright : Parsed (.binary tighter right) ts') :
    Parsed (.binary (ops :: tighter) (.binary left.position op p left right))
      (ts ++ ⟨.symbol op.symbol, p⟩ :: ts') := by
  have hsymbol : op.symbol ≠ .openBracket ∧ op.symbol ≠ .assign := by
    cases op <;> decide
  refine ⟨hleft.1.append hsymbol.1 hsymbol.2 p ts', fun hnodup n rest hn hends => ?_⟩
  simp only [List.length_append, List.length_cons] at hn ⊢
  rw [List.append_assoc, List.cons_append]
  -- the left operand leads into the chain, in front of the operator
  obtain ⟨k, hk, hreach⟩ := hleft.2 hnodup n (⟨.symbol op.symbol, p⟩ :: (ts' ++ rest))
    (by omega) (Phrase.endsBefore_operator hnodup hop left p _)
  obtain ⟨m, hm⟩ : ∃ m, n - k = m + 1 := ⟨n - k - 1, by omega⟩
  have hm' : n - (k + 1) = m := by omega
  refine ⟨k + 1, by omega, ?_⟩
  rw [hreach, hm, hm']
  have hstep : chain (m + 1) ops tighter left (⟨.symbol op.symbol, p⟩ :: (ts' ++ rest)) =
      chain m ops tighter (.binary left.position op p left right) rest :=
    Run.bind_eq_of_done (operatorAmong_symbol hop p _)
      (Run.bind_eq_of_done (hright.binary (nodup_flatten_of_cons hnodup) (by omega) hends) rfl)
  exact Run.bind_eq_bind hstep _

/-! ## The rules above the levels -/

/-- A place, `=` and a value are read as an assignment. -/
theorem assignment {target : LValue} {value : Expr} {q : Position}
    (htarget : Parsed (.lvalue target) ts) (hvalue : Parsed (.expression value) ts') :
    Parsed (.expression (target.assign target.position value))
      (ts ++ ⟨.symbol .assign, q⟩ :: ts') := by
  intro n rest hn hends
  simp only [List.length_append, List.length_cons] at hn
  obtain ⟨m, rfl⟩ : ∃ m, n = m + 2 := ⟨n - 2, by omega⟩
  rw [List.append_assoc, List.cons_append]
  refine required_of_done ?_ (by simp)
  have hends' : (Phrase.lvalue target).EndsBefore (⟨.symbol .assign, q⟩ :: (ts' ++ rest)) :=
    Phrase.endsBefore_symbol (by simp [Phrase.continuations]) q _
  have hlvalue := htarget m _ (by omega) hends'
  refine Run.bind_eq_of_done (assignmentHead_of_assign hlvalue) ?_
  exact Run.bind_eq_of_done (hvalue m rest (by omega) hends) rfl

/-- Where no assignment is found, a conditional is read. -/
theorem ofConditional (h : Parsed (.conditional e) ts) (hts : ts ≠ []) :
    Parsed (.expression e) ts := by
  intro n rest hn hends
  obtain ⟨m, rfl⟩ : ∃ m, n = m + 2 := ⟨n - 2, by omega⟩
  have hbracket : nextIs .openBracket rest = false := hends _ (by simp [Phrase.continuations])
  have hassign : nextIs .assign rest = false := hends _ (by simp [Phrase.continuations])
  have hends' : (Phrase.conditional e).EndsBefore rest :=
    hends.mono (List.subset_cons_self _ _)
  refine required_of_done ?_ (List.append_ne_nil_of_left_ne_nil hts rest)
  exact Run.bind_eq_of_done (h.1 m rest (by omega) hbracket hassign)
    (h.2 m rest (by omega) hends')

/-- A condition, `?` and `:` with both branches are read as a conditional. -/
theorem choice {condition thenBranch elseBranch : Expr} {q q' : Position}
    (hcondition : Parsed (.binary BinaryOp.levels condition) ts)
    (hthen : Parsed (.conditional thenBranch) ts')
    (helse : Parsed (.conditional elseBranch) ts'') (hts'' : ts'' ≠ []) :
    Parsed (.conditional (.conditional condition.position condition thenBranch elseBranch))
      (ts ++ ⟨.symbol .question, q⟩ :: (ts' ++ ⟨.symbol .colon, q'⟩ :: ts'')) := by
  refine ⟨hcondition.noTarget_binary.append (by decide) (by decide) q _, ?_⟩
  intro n rest hn hends
  simp only [List.length_append, List.length_cons] at hn
  obtain ⟨m, rfl⟩ : ∃ m, n = m + 1 := ⟨n - 1, by omega⟩
  simp only [List.append_assoc, List.cons_append]
  have hlevels : BinaryOp.levels.length = 10 := rfl
  refine Run.bind_eq_of_done (hcondition.binary (by decide) (by omega)
    (Phrase.endsBefore_question _ _ _ _)) ?_
  refine Run.bind_eq_of_done (eat_symbol _ _ _) ?_
  refine Run.bind_eq_of_done (required_of_done (hthen.2 m _ (by omega)
    (Phrase.endsBefore_of_endsExpression rfl _ _ _)) (by simp)) ?_
  refine Run.bind_eq_of_done (expect_symbol _ _ _) ?_
  refine Run.bind_eq_of_done (required_of_done (helse.2 m rest (by omega) hends) ?_) rfl
  exact List.append_ne_nil_of_left_ne_nil hts'' rest

/-- Without `?` behind it an operation is all of a conditional. -/
theorem ofBinary (h : Parsed (.binary BinaryOp.levels e) ts) : Parsed (.conditional e) ts := by
  refine ⟨h.noTarget_binary, ?_⟩
  intro n rest hn hends
  obtain ⟨m, rfl⟩ : ∃ m, n = m + 1 := ⟨n - 1, by omega⟩
  have hlevels : BinaryOp.levels.length = 10 := rfl
  have hbinary : Parser.binary m BinaryOp.levels (ts ++ rest) = (.done (some e), rest) :=
    h.binary (by decide) (by omega) (hends.mono (List.subset_cons_self _ _))
  have hquestion : nextIs .question rest = false := hends _ (List.mem_cons_self ..)
  exact Run.bind_eq_of_done hbinary
    (Run.bind_eq_of_done (eat_of_nextIs_eq_false hquestion) rfl)

/-! ## The rules below the levels -/

/-- Below all levels of operators there is a unary expression. -/
theorem ofUnary (h : Parsed (.unary e) ts) : Parsed (.binary [] e) ts := by
  refine ⟨h.1, ?_⟩
  intro n rest hn hends
  obtain ⟨m, rfl⟩ : ∃ m, n = m + 1 := ⟨n - 1, by omega⟩
  exact h.2 m rest (by omega) hends

/-- A sign and an operand are read as a unary expression. -/
theorem operator {op : UnaryOp} {operand : Expr} {p : Position}
    (h : Parsed (.unary operand) ts) :
    Parsed (.unary (.unary p op operand)) (⟨.symbol op.symbol, p⟩ :: ts) := by
  have hname : (Lexeme.symbol op.symbol).lvalueName? = none := by
    cases op <;> rfl
  refine ⟨.of_lvalueName?_eq_none hname p ts, ?_⟩
  intro n rest hn hends
  simp only [List.length_cons] at hn
  obtain ⟨m, rfl⟩ : ∃ m, n = m + 1 := ⟨n - 1, by omega⟩
  refine Run.bind_eq_of_done (unaryOperator_symbol op p (ts ++ rest)) ?_
  exact Run.bind_eq_of_done (h.2 m rest (by omega) hends) rfl

/-- Without a sign in front a primary expression is read. -/
theorem ofPrimary (hderives : (Phrase.primary e).Derives ts) (h : Parsed (.primary e) ts) :
    Parsed (.unary e) ts := by
  refine ⟨h.1, ?_⟩
  intro n rest hn hends
  obtain ⟨m, rfl⟩ : ∃ m, n = m + 1 := ⟨n - 1, by omega⟩
  have hnone : unaryOperator (ts ++ rest) = (.done none, ts ++ rest) :=
    unaryOperator_of_nextIs_eq_false fun op => hderives.nextIs_unary op rest
  exact Run.bind_eq_of_done hnone (h.2 m rest (by omega) hends)

/-- A call is tried first, so it is read as one. -/
theorem ofCall (h : Parsed (.call e) ts) : Parsed (.primary e) ts := by
  refine ⟨h.1, ?_⟩
  intro n rest hn hends
  obtain ⟨m, rfl⟩ : ∃ m, n = m + 1 := ⟨n - 1, by omega⟩
  exact Run.bind_eq_of_done (h.2 m rest (by omega)) rfl

/-- Without the head of a call in front no call is read. -/
theorem call_eq_none {n : Nat} (hn : 0 < n) (h : callHead ts = (.done none, ts)) :
    Parser.call n ts = (.done none, ts) := by
  obtain ⟨m, rfl⟩ : ∃ m, n = m + 1 := ⟨n - 1, by omega⟩
  exact Run.bind_eq_of_done h rfl

/-- Without the head of an lvalue in front no lvalue is read. -/
theorem lvalue_eq_none {n : Nat} (hn : 0 < n) (h : lvalueHead ts = (.done none, ts)) :
    Parser.lvalue n ts = (.done none, ts) := by
  obtain ⟨m, rfl⟩ : ∃ m, n = m + 1 := ⟨n - 1, by omega⟩
  exact Run.bind_eq_of_done h rfl

/-- A place that is no call is read as a variable or as an element. -/
theorem ofLValue {target : LValue} (hderives : (Phrase.lvalue target).Derives ts)
    (h : Parsed (.lvalue target) ts) : Parsed (.primary target.read) ts := by
  refine ⟨.of_lvalue h, ?_⟩
  intro n rest hn hends
  have hbracket : nextIs .openBracket rest = false := hends _ (by simp [Phrase.continuations])
  have hparen : nextIs .openParen rest = false := hends _ (by simp [Phrase.continuations])
  have hcall : callHead (ts ++ rest) = (.done none, ts ++ rest) := by
    cases hderives with
    | named _ => exact callHead_of_nextIs_eq_false hparen
    | element _ _ => exact callHead_of_nextIs_eq_false rfl
  have hpos : 0 < ts.length := by cases hderives <;> simp
  obtain ⟨m, rfl⟩ : ∃ m, n = m + 1 := ⟨n - 1, by omega⟩
  refine Run.bind_eq_of_done (call_eq_none (by omega) hcall) ?_
  refine Run.bind_eq_of_done (h m rest (by omega) fun mark hmark => ?_) rfl
  obtain rfl : mark = .openBracket := by simpa [Phrase.continuations] using hmark
  exact hbracket

/-- A token that spells out a value is read as a literal. -/
theorem literal {lexeme : Lexeme} {value : Literal} {p : Position}
    (h : Literal.read? lexeme = some (.ok value)) :
    Parsed (.primary (.literal p value)) [⟨lexeme, p⟩] := by
  obtain ⟨-, hname, -, hidentifier⟩ := Literal.lexeme_of_read? h
  refine ⟨.of_lvalueName?_eq_none hname p [], ?_⟩
  intro n rest hn _
  simp only [List.length_cons] at hn
  obtain ⟨m, rfl⟩ : ∃ m, n = m + 1 := ⟨n - 1, by omega⟩
  have hcall := callHead_of_ne_identifier hidentifier p rest
  have hlvalue := lvalueHead_of_eq_none hname p rest
  refine Run.bind_eq_of_done (call_eq_none (by omega) hcall) ?_
  refine Run.bind_eq_of_done (lvalue_eq_none (by omega) hlvalue) ?_
  refine Run.bind_eq_of_done rfl ?_
  cases lexeme with
  | string _ | double _ | integer _ | hexInteger _ | boolean _ => exact literal_of_read? h p _ rest
  | identifier _ | keyword _ | symbol _ => cases h

/-- With an opening symbol in front neither a call nor an lvalue is read. -/
theorem primary_opening {n : Nat} (hn : 0 < n) {mark : Symbol} (hmark : mark ≠ .ellipsis)
    (p : Position) (ts : List Token) :
    Parser.call n (⟨.symbol mark, p⟩ :: ts) = (.done none, ⟨.symbol mark, p⟩ :: ts) ∧
      Parser.lvalue n (⟨.symbol mark, p⟩ :: ts) = (.done none, ⟨.symbol mark, p⟩ :: ts) := by
  have hname : (Lexeme.symbol mark).lvalueName? = none := by
    cases mark <;> first | rfl | exact absurd rfl hmark
  exact ⟨call_eq_none hn (callHead_of_ne_identifier (by simp) p ts),
    lvalue_eq_none hn (lvalueHead_of_eq_none hname p ts)⟩

/-- Elements in brackets are read as a list. -/
theorem list {es : List Expr} {p q : Position} (h : Parsed (.elements es) ts) :
    Parsed (.primary (.list p es))
      (⟨.symbol .openBracket, p⟩ :: (ts ++ [⟨.symbol .closeBracket, q⟩])) := by
  refine ⟨.of_lvalueName?_eq_none rfl p _, ?_⟩
  intro n rest hn _
  simp only [List.length_cons, List.length_append, List.length_nil] at hn
  obtain ⟨m, rfl⟩ : ∃ m, n = m + 1 := ⟨n - 1, by omega⟩
  simp only [List.cons_append, List.append_assoc, List.nil_append]
  obtain ⟨hcall, hlvalue⟩ := primary_opening (show 0 < m by omega)
    (show Symbol.openBracket ≠ .ellipsis by decide) p (ts ++ ⟨.symbol .closeBracket, q⟩ :: rest)
  refine Run.bind_eq_of_done hcall (Run.bind_eq_of_done hlvalue ?_)
  refine Run.bind_eq_of_done rfl (Run.bind_eq_of_done rfl ?_)
  exact Run.bind_eq_of_done (h m .closeBracket q rest (.inr rfl) (by omega)) rfl

/-- An expression in parentheses is read as itself. -/
theorem parentheses {p q : Position} (h : Parsed (.expression e) ts) :
    Parsed (.primary e) (⟨.symbol .openParen, p⟩ :: (ts ++ [⟨.symbol .closeParen, q⟩])) := by
  refine ⟨.of_lvalueName?_eq_none rfl p _, ?_⟩
  intro n rest hn _
  simp only [List.length_cons, List.length_append, List.length_nil] at hn
  obtain ⟨m, rfl⟩ : ∃ m, n = m + 1 := ⟨n - 1, by omega⟩
  simp only [List.cons_append, List.append_assoc, List.nil_append]
  obtain ⟨hcall, hlvalue⟩ := primary_opening (show 0 < m by omega)
    (show Symbol.openParen ≠ .ellipsis by decide) p (ts ++ ⟨.symbol .closeParen, q⟩ :: rest)
  refine Run.bind_eq_of_done hcall (Run.bind_eq_of_done hlvalue ?_)
  refine Run.bind_eq_of_done rfl (Run.bind_eq_of_done rfl ?_)
  have hinner := h m (⟨.symbol .closeParen, q⟩ :: rest) (by omega)
    (Phrase.endsBefore_of_endsExpression rfl _ _ _)
  exact Run.bind_eq_of_done hinner (Run.bind_eq_of_done (expect_symbol _ _ _) rfl)

/-- A name without a bracket behind it is read as a variable. -/
theorem named {lexeme : Lexeme} {name : String} {p : Position}
    (hname : lexeme.lvalueName? = some name) : Parsed (.lvalue (.var p name)) [⟨lexeme, p⟩] := by
  intro n rest hn hends
  simp only [List.length_cons] at hn
  obtain ⟨m, rfl⟩ : ∃ m, n = m + 1 := ⟨n - 1, by omega⟩
  have hbracket : nextIs .openBracket rest = false := hends _ (List.mem_cons_self ..)
  refine Run.bind_eq_of_done (lvalueHead_of_eq_some hname p rest) ?_
  exact Run.bind_eq_of_done (eat_of_nextIs_eq_false hbracket) rfl

/-- A name with an index in brackets is read as an element. -/
theorem element {lexeme : Lexeme} {name : String} {index : Expr} {p q q' : Position}
    (hname : lexeme.lvalueName? = some name) (h : Parsed (.expression index) ts) :
    Parsed (.lvalue (.element p name index))
      (⟨lexeme, p⟩ :: ⟨.symbol .openBracket, q⟩ :: (ts ++ [⟨.symbol .closeBracket, q'⟩])) := by
  intro n rest hn _
  simp only [List.length_cons, List.length_append, List.length_nil] at hn
  obtain ⟨m, rfl⟩ : ∃ m, n = m + 1 := ⟨n - 1, by omega⟩
  simp only [List.cons_append, List.append_assoc, List.nil_append]
  refine Run.bind_eq_of_done (lvalueHead_of_eq_some hname p _) ?_
  refine Run.bind_eq_of_done (eat_symbol _ _ _) ?_
  have hindex := h m (⟨.symbol .closeBracket, q'⟩ :: rest) (by omega)
    (Phrase.endsBefore_of_endsExpression rfl _ _ _)
  exact Run.bind_eq_of_done hindex (Run.bind_eq_of_done (expect_symbol _ _ _) rfl)

/-- A name with arguments in parentheses is read as a call. -/
theorem call {name : String} {es : List Expr} {p q q' : Position} (h : Parsed (.elements es) ts) :
    Parsed (.call (.call p name es))
      (⟨.identifier name, p⟩ :: ⟨.symbol .openParen, q⟩ ::
        (ts ++ [⟨.symbol .closeParen, q'⟩])) := by
  refine ⟨.of_call name p q _, ?_⟩
  intro n rest hn
  simp only [List.length_cons, List.length_append, List.length_nil] at hn
  obtain ⟨m, rfl⟩ : ∃ m, n = m + 1 := ⟨n - 1, by omega⟩
  simp only [List.cons_append, List.append_assoc, List.nil_append]
  refine Run.bind_eq_of_done rfl ?_
  exact Run.bind_eq_of_done (h m .closeParen q' rest (.inl rfl) (by omega)) rfl

/-- In front of the closing mark no elements are read. -/
theorem noElements : Parsed (.elements []) [] := by
  intro n closing q rest _ hn
  obtain ⟨m, rfl⟩ : ∃ m, n = m + 1 := ⟨n - 1, by omega⟩
  exact Run.bind_eq_of_done (eat_symbol _ _ _) rfl

/-- In front of another token the elements are read. -/
theorem ofElements1 {es : List Expr} (hstart : StartsWith Lexeme.startsExpression ts)
    (h : Parsed (.elements1 es) ts) : Parsed (.elements es) ts := by
  intro n closing q rest hclosing hn
  obtain ⟨m, rfl⟩ : ∃ m, n = m + 1 := ⟨n - 1, by omega⟩
  have hnext : nextIs closing (ts ++ ⟨.symbol closing, q⟩ :: rest) = false := by
    refine (hstart.append _).nextIs_eq_false ?_
    rcases hclosing with rfl | rfl <;> rfl
  exact Run.bind_eq_of_done (eat_of_nextIs_eq_false hnext)
    (h m closing q rest hclosing (by omega))

/-- In front of the closing mark the last element is read. -/
theorem lastElement (h : Parsed (.expression e) ts) : Parsed (.elements1 [e]) ts := by
  intro n closing q rest hclosing hn
  obtain ⟨m, rfl⟩ : ∃ m, n = m + 1 := ⟨n - 1, by omega⟩
  have hends : closing.endsExpression = true ∧
      nextIs .comma (⟨.symbol closing, q⟩ :: rest) = false := by
    rcases hclosing with rfl | rfl <;> exact ⟨rfl, rfl⟩
  have hfirst := h m (⟨.symbol closing, q⟩ :: rest) (by omega)
    (Phrase.endsBefore_of_endsExpression hends.1 _ _ _)
  refine Run.bind_eq_of_done hfirst (Run.bind_eq_of_done (eat_of_nextIs_eq_false hends.2) ?_)
  exact Run.bind_eq_of_done (expect_symbol _ _ _) rfl

/-- In front of a comma an element is read, and then the others. -/
theorem moreElements {es : List Expr} {q : Position} (h : Parsed (.expression e) ts)
    (hmore : Parsed (.elements1 es) ts') :
    Parsed (.elements1 (e :: es)) (ts ++ ⟨.symbol .comma, q⟩ :: ts') := by
  intro n closing q' rest hclosing hn
  simp only [List.length_append, List.length_cons] at hn
  obtain ⟨m, rfl⟩ : ∃ m, n = m + 1 := ⟨n - 1, by omega⟩
  rw [List.append_assoc, List.cons_append]
  have hfirst := h m (⟨.symbol .comma, q⟩ :: (ts' ++ ⟨.symbol closing, q'⟩ :: rest)) (by omega)
    (Phrase.endsBefore_of_endsExpression rfl _ _ _)
  refine Run.bind_eq_of_done hfirst (Run.bind_eq_of_done (eat_symbol _ _ _) ?_)
  exact Run.bind_eq_of_done (hmore m closing q' rest hclosing (by omega)) rfl

end Parsed

end Parser

/-- **Every phrase that tokens derive is read from them.** -/
theorem Phrase.Derives.parsed {phrase : Phrase} {ts : List Token} (h : phrase.Derives ts) :
    Parser.Parsed phrase ts := by
  induction h with
  | assignment _ _ htarget hvalue => exact htarget.assignment hvalue
  | ofConditional hderives h =>
      exact h.ofConditional (hderives.startsWith.resolve_left (by simp)).ne_nil
  | choice _ _ helse hcondition hthen helse' =>
      exact hcondition.choice hthen helse' (helse.startsWith.resolve_left (by simp)).ne_nil
  | ofBinary _ h => exact h.ofBinary
  | operation hop _ _ hleft hright => exact .operation hop hleft hright
  | ofTighter _ h => exact h.ofTighter
  | ofUnary _ h => exact h.ofUnary
  | operator _ h => exact h.operator
  | ofPrimary hderives h => exact .ofPrimary hderives h
  | ofCall _ h => exact h.ofCall
  | ofLValue hderives h => exact .ofLValue hderives h
  | literal hvalue => exact .literal hvalue
  | list _ h => exact h.list
  | parentheses _ h => exact h.parentheses
  | named hname => exact .named hname
  | element hname _ h => exact .element hname h
  | call _ h => exact h.call
  | noElements => exact .noElements
  | ofElements1 hderives h => exact .ofElements1 (hderives.startsWith.resolve_left (by simp)) h
  | lastElement _ h => exact h.lastElement
  | moreElements _ _ h hmore => exact h.moreElements hmore

end Scriptlet
