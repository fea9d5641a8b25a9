import Scriptlet.Proofs.ParserCompleteness
import Scriptlet.Proofs.Rendering

/-!
# Writing a script and reading it back

A rendering of a tree is derived by the grammar, from a tree with the positions
of the tokens in place of its own (`Passage.Renders.derives`).  The ranks of the
rendering are the levels of the grammar: `Phrase.ofRank` names the phrase of a
rank, and what derives a phrase derives those of the lower ranks.

Since whatever the grammar derives is read, a script comes back from each of its
renderings (`Script.ofTokens_of_renders`), and every writable script has one.
-/

namespace Scriptlet

/-! ## Ranks and phrases -/

/-- The phrase that stands where a rank is asked for. -/
def Phrase.ofRank : Nat → Expr → Phrase
  | 0, e => .expression e
  | 1, e => .conditional e
  | 12, e => .unary e
  | 13, e => .primary e
  | k + 2, e => .binary (BinaryOp.levels.drop k) e

/-- There are twelve levels of operators. -/
theorem BinaryOp.rank_lt (op : BinaryOp) : op.rank < 12 := by
  cases op <;> decide

/-- Nothing binds tighter than a primary expression. -/
theorem Expr.rank_le (e : Expr) : e.rank ≤ 13 := by
  cases e with
  | binary _ op =>
      have hlt := op.rank_lt
      show op.rank ≤ 13
      omega
  | _ => simp [Expr.rank]

namespace Phrase

variable {e : Expr} {ts ts' : List Token}

/-- What stands where a rank is asked for can stand where the next lower one is. -/
theorem derives_ofRank_of_succ {r : Nat} (hr : r < 13) (h : (ofRank (r + 1) e).Derives ts) :
    (ofRank r e).Derives ts := by
  match r, hr, h with
  | 0, _, h => exact .ofConditional h
  | 1, _, h => exact .ofBinary h
  | 2, _, h | 3, _, h | 4, _, h | 5, _, h | 6, _, h | 7, _, h | 8, _, h | 9, _, h | 10, _, h =>
      exact .ofTighter h
  | 11, _, h => exact .ofTighter (.ofUnary h)
  | 12, _, h => exact .ofPrimary h

/-- What binds tighter stands where less is asked for. -/
theorem derives_ofRank_of_le {r r' : Nat} (hle : r ≤ r') (hr' : r' ≤ 13)
    (h : (ofRank r' e).Derives ts) : (ofRank r e).Derives ts := by
  induction hle with
  | refl => exact h
  | step _ ih => exact ih (by omega) (derives_ofRank_of_succ (by omega) h)

/-- An operation is derived at the rank of its operator from a left operand of this
rank and a right operand of the next one. -/
theorem derives_operation {op : BinaryOp} {left right : Expr} {p : Position}
    (hleft : (ofRank op.rank left).Derives ts) (hright : (ofRank (op.rank + 1) right).Derives ts') :
    (ofRank op.rank (.binary left.position op p left right)).Derives
      (ts ++ ⟨.symbol op.symbol, p⟩ :: ts') := by
  cases op with
  | mul | div | mod => exact .operation (by decide) hleft (.ofUnary hright)
  | _ => exact .operation (by decide) hleft hright

end Phrase

/-! ## Renderings are derived -/

/-- The tokens derive the fragment, apart from positions. -/
def Fragment.Derivable : Fragment → List Token → Prop
  | .operand r e, ts => r ≤ 13 → ∃ e', e'.erase = e.erase ∧ (Phrase.ofRank r e').Derives ts
  | .bare e, ts => ∃ e', e'.erase = e.erase ∧ (Phrase.ofRank e.rank e').Derives ts
  | .elements es, ts =>
    ∃ es', Expr.eraseAll es' = Expr.eraseAll es ∧ (Phrase.elements es').Derives ts
  | .elements1 es, ts =>
    ∃ es', Expr.eraseAll es' = Expr.eraseAll es ∧ (Phrase.elements1 es').Derives ts

/-- **Parentheses where they are needed are enough.**  What renders a fragment
derives it. -/
theorem Fragment.Renders.derivable {fragment : Fragment} {ts : List Token}
    (h : fragment.Renders ts) : fragment.Derivable ts := by
  induction h with
  | @plain r e ts hrank _ ih =>
      intro _
      obtain ⟨e', herase, hderives⟩ := ih
      exact ⟨e', herase, Phrase.derives_ofRank_of_le hrank e.rank_le hderives⟩
  | parenthesized _ ih =>
      intro hr
      obtain ⟨e', herase, hderives⟩ := ih (Nat.zero_le _)
      refine ⟨e', herase, Phrase.derives_ofRank_of_le hr (Nat.le_refl 13) ?_⟩
      exact Phrase.Derives.parentheses hderives
  | @literal lexeme value o p hvalue => exact ⟨.literal p value, rfl, .literal hvalue⟩
  | @name lexeme name o p hname => exact ⟨.var p name, rfl, .ofLValue (.named hname)⟩
  | element hname _ ih =>
      obtain ⟨index', herase, hderives⟩ := ih (Nat.zero_le _)
      exact ⟨.element _ _ index', by simp [Expr.erase, herase],
        .ofLValue (.element hname hderives)⟩
  | unary _ ih =>
      obtain ⟨operand', herase, hderives⟩ := ih (by omega)
      exact ⟨.unary _ _ operand', by simp [Expr.erase, herase], .operator hderives⟩
  | @binary op left right ts ts' o t p _ _ ihleft ihright =>
      have hrank := op.rank_lt
      obtain ⟨left', hleft, hderives⟩ := ihleft (by omega)
      obtain ⟨right', hright, hderives'⟩ := ihright (by omega)
      exact ⟨.binary left'.position op p left' right', by simp [Expr.erase, hleft, hright],
        Phrase.derives_operation hderives hderives'⟩
  | assign hname _ ih =>
      obtain ⟨value', herase, hderives⟩ := ih (Nat.zero_le _)
      exact ⟨.assign _ _ _ value', by simp [Expr.erase, herase],
        .assignment (.named hname) hderives⟩
  | @assignElement lexeme name index value ts ts' o t p q q' r hname _ _ ihindex ihvalue =>
      obtain ⟨index', hindex, hderives⟩ := ihindex (Nat.zero_le _)
      obtain ⟨value', hvalue, hderives'⟩ := ihvalue (Nat.zero_le _)
      have htarget : (Phrase.lvalue (.element p name index')).Derives
          (⟨lexeme, p⟩ :: ⟨.symbol .openBracket, q⟩ :: (ts ++ [⟨.symbol .closeBracket, q'⟩])) :=
        .element hname hderives
      have hassign := Phrase.Derives.assignment (q := r) htarget hderives'
      simp only [List.cons_append, List.append_assoc, List.nil_append] at hassign
      exact ⟨.assignElement p p name index' value', by simp [Expr.erase, hindex, hvalue], hassign⟩
  | conditional _ _ _ ihcondition ihthen ihelse =>
      obtain ⟨condition', hcondition, hderives⟩ := ihcondition (by omega)
      obtain ⟨thenBranch', hthen, hderives'⟩ := ihthen (by omega)
      obtain ⟨elseBranch', helse, hderives''⟩ := ihelse (by omega)
      exact ⟨.conditional condition'.position condition' thenBranch' elseBranch',
        by simp [Expr.erase, hcondition, hthen, helse], .choice hderives hderives' hderives''⟩
  | list _ ih =>
      obtain ⟨es', herase, hderives⟩ := ih
      exact ⟨.list _ es', by simp [Expr.erase, herase], .list hderives⟩
  | call _ ih =>
      obtain ⟨es', herase, hderives⟩ := ih
      exact ⟨.call _ _ es', by simp [Expr.erase, herase], .ofCall (.call hderives)⟩
  | noElements => exact ⟨[], rfl, .noElements⟩
  | ofElements1 _ ih =>
      obtain ⟨es', herase, hderives⟩ := ih
      exact ⟨es', herase, .ofElements1 hderives⟩
  | lastElement _ ih =>
      obtain ⟨e', herase, hderives⟩ := ih (Nat.zero_le _)
      exact ⟨[e'], by simp [Expr.eraseAll, herase], .lastElement hderives⟩
  | moreElements _ _ ih ihmore =>
      obtain ⟨e', herase, hderives⟩ := ih (Nat.zero_le _)
      obtain ⟨es', herases, hderives'⟩ := ihmore
      exact ⟨e' :: es', by simp [Expr.eraseAll, herase, herases],
        .moreElements hderives hderives'⟩

/-- A rendering of a whole expression is one of the grammar. -/
theorem Fragment.Renders.expression {e : Expr} {ts : List Token}
    (h : Fragment.Renders (.operand 0 e) ts) :
    ∃ e', e'.erase = e.erase ∧ (Phrase.expression e').Derives ts :=
  h.derivable (Nat.zero_le _)

/-- Whether a statement takes an `else` has nothing to do with positions. -/
theorem Statement.takesElse_erase : (s : Statement) → s.erase.takesElse = s.takesElse
  | .ifElse _ _ _ none => rfl
  | .ifElse _ _ _ (some elseBranch) => elseBranch.takesElse_erase
  | .forLoop _ _ _ _ _ body => body.takesElse_erase
  | .forEach _ _ _ body => body.takesElse_erase
  | .whileLoop _ _ body => body.takesElse_erase
  | .declare _ _ _ => rfl
  | .evaluate _ _ => rfl
  | .block _ _ => rfl
  | .returns _ _ => rfl
  | .breaks _ => rfl
  | .continues _ => rfl

/-- An expression that stands alone is derived as a statement with the semicolon
after it. -/
theorem Fragment.Renders.evaluate {e : Expr} {ts : List Token} (h : Fragment.Renders (.bare e) ts)
    (halone : e.standsAlone = true) (r : Position) :
    ∃ e', e'.erase = e.erase ∧
      (Passage.statement (.ofExpr e')).Derives (ts ++ [⟨.symbol .semicolon, r⟩]) := by
  cases h with
  | @assign lexeme name value ts o t p q hname hvalue =>
      obtain ⟨value', herase, hderives⟩ := hvalue.expression
      exact ⟨.assign p p name value', by simp [Expr.erase, herase],
        .assignment (.named hname) hderives⟩
  | @assignElement lexeme name index value ts ts' o t p q q' r' hname hindex hvalue =>
      obtain ⟨index', herase, hderives⟩ := hindex.expression
      obtain ⟨value', herase', hderives'⟩ := hvalue.expression
      have htarget : (Phrase.lvalue (.element p name index')).Derives
          (⟨lexeme, p⟩ :: ⟨.symbol .openBracket, q⟩ :: (ts ++ [⟨.symbol .closeBracket, q'⟩])) :=
        .element hname hderives
      have hstatement := Passage.Derives.assignment (q := r') (r := r) htarget hderives'
      simp only [List.cons_append, List.append_assoc, List.nil_append] at hstatement ⊢
      exact ⟨.assignElement p p name index' value', by simp [Expr.erase, herase, herase'],
        hstatement⟩
  | @call name es ts o p q q' hes =>
      obtain ⟨es', herase, hderives⟩ := hes.derivable
      exact ⟨.call p name es', by simp [Expr.erase, herase], .call (.call hderives)⟩
  | _ => cases halone

/-- The tokens derive the passage, apart from positions. -/
def Passage.Derivable : Passage → List Token → Prop
  | .statement s, ts => s.Writable →
      ∃ s', s'.erase = s.erase ∧ (Passage.statement s').Derives ts
  | .statements ss, ts => Statement.AllWritable ss →
      ∃ ss', Statement.eraseAll ss' = Statement.eraseAll ss ∧
        (Passage.statements ss').Derives ts

/-- **What renders a writable statement derives it.** -/
theorem Passage.Renders.derivable {passage : Passage} {ts : List Token}
    (h : passage.Renders ts) : passage.Derivable ts := by
  induction h with
  | @declaration name o p => exact fun _ => ⟨.declare p name none, rfl, .declaration⟩
  | @initialization name value ts o p q r r' hvalue =>
      intro _
      obtain ⟨value', herase, hderives⟩ := hvalue.expression
      exact ⟨.declare p name (some value'), by simp [Statement.erase, herase],
        .initialization hderives⟩
  | evaluate h =>
      intro hwritable
      obtain ⟨e', herase, hderives⟩ := h.evaluate hwritable.1 _
      exact ⟨.ofExpr e', by simp [Statement.ofExpr, Statement.erase, herase], hderives⟩
  | @forLoop counter _ _ _ _ _ _ _ _ _ o p q r r' q' hcounter hstart hcondition hstep _ ih =>
      intro hwritable
      obtain ⟨start', herase, hderives⟩ := hstart.expression
      obtain ⟨condition', herase', hderives'⟩ := hcondition.expression
      obtain ⟨step', herase'', hderives''⟩ := hstep.expression
      obtain ⟨body', hbody, hderivesBody⟩ := ih hwritable.2.2.2
      exact ⟨.forLoop p counter start' condition' step' body',
        by simp [Statement.erase, herase, herase', herase'', hbody],
        .forLoop hcounter hderives hderives' hderives'' hderivesBody⟩
  | @forEach item _ _ _ _ _ o p q i r q' hvar hcollection _ ih =>
      intro hwritable
      obtain ⟨collection', herase, hderives⟩ := hcollection.expression
      obtain ⟨body', hbody, hderivesBody⟩ := ih hwritable.2
      exact ⟨.forEach p item collection' body', by simp [Statement.erase, herase, hbody],
        .forEach hvar hderives hderivesBody⟩
  | @ifOnly _ _ _ _ o p q q' hcondition _ ih =>
      intro hwritable
      obtain ⟨condition', herase, hderives⟩ := hcondition.expression
      obtain ⟨thenBranch', hthen, hderivesThen⟩ := ih hwritable.2
      exact ⟨.ifElse p condition' thenBranch' none, by simp [Statement.erase, herase, hthen],
        .ifOnly hderives hderivesThen⟩
  | @ifElse _ thenBranch _ _ _ _ o p q q' r hcondition _ _ ih ih' =>
      intro hwritable
      obtain ⟨-, hwritableThen, hnearest, hwritableElse⟩ := hwritable
      obtain ⟨condition', herase, hderives⟩ := hcondition.expression
      obtain ⟨thenBranch', hthen, hderivesThen⟩ := ih hwritableThen
      obtain ⟨elseBranch', helse, hderivesElse⟩ := ih' hwritableElse
      have hnearest' : thenBranch'.takesElse = false := by
        rw [← thenBranch'.takesElse_erase, hthen, thenBranch.takesElse_erase, hnearest]
      exact ⟨.ifElse p condition' thenBranch' (some elseBranch'),
        by simp [Statement.erase, herase, hthen, helse],
        .ifElse hderives hderivesThen hnearest' hderivesElse⟩
  | @whileLoop _ _ _ _ o p q q' hcondition _ ih =>
      intro hwritable
      obtain ⟨condition', herase, hderives⟩ := hcondition.expression
      obtain ⟨body', hbody, hderivesBody⟩ := ih hwritable.2
      exact ⟨.whileLoop p condition' body', by simp [Statement.erase, herase, hbody],
        .whileLoop hderives hderivesBody⟩
  | @block _ _ o p q _ ih =>
      intro hwritable
      obtain ⟨ss', herase, hderives⟩ := ih hwritable
      exact ⟨.block p ss', by simp [Statement.erase, herase], .block hderives⟩
  | @returnNothing o p r => exact fun _ => ⟨.returns p none, rfl, .returnNothing⟩
  | @returnValue _ _ o p r hvalue =>
      intro _
      obtain ⟨value', herase, hderives⟩ := hvalue.expression
      exact ⟨.returns p (some value'), by simp [Statement.erase, herase], .returnValue hderives⟩
  | @breaks o p r => exact fun _ => ⟨.breaks p, rfl, .breaks⟩
  | @continues o p r => exact fun _ => ⟨.continues p, rfl, .continues⟩
  | noStatements => exact fun _ => ⟨[], rfl, .noStatements⟩
  | moreStatements _ _ ih ihmore =>
      intro hwritable
      obtain ⟨s', herase, hderives⟩ := ih hwritable.1
      obtain ⟨ss', herases, hderives'⟩ := ihmore hwritable.2
      exact ⟨s' :: ss', by simp [Statement.eraseAll, herase, herases],
        .moreStatements hderives hderives'⟩

/-- A rendered function is derived, apart from its positions. -/
theorem FunctionDef.Renders.derives {f : FunctionDef} {ts : List Token} (h : f.Renders ts)
    (hwritable : Statement.AllWritable f.body) :
    ∃ f' : FunctionDef, f'.erase = f.erase ∧ f'.Derives ts := by
  cases h with
  | @intro _ _ p n q q' b c hparams hbody =>
      obtain ⟨body', herase, hderives⟩ := hbody.derivable hwritable
      exact ⟨⟨p, f.signature, b, body'⟩, by simp [FunctionDef.erase, herase],
        .intro hparams (.block hderives)⟩

/-- The rendered statements and functions of a script are derived, apart from their
positions. -/
theorem RenderedItems.derives {ss : List Statement} {fs : List FunctionDef} {ts : List Token}
    (h : RenderedItems ss fs ts) (hss : Statement.AllWritable ss)
    (hfs : ∀ f ∈ fs, Statement.AllWritable f.body) :
    ∃ ss' fs', Statement.eraseAll ss' = Statement.eraseAll ss ∧
      fs'.map FunctionDef.erase = fs.map FunctionDef.erase ∧ Items ss' fs' ts := by
  induction h with
  | nil => exact ⟨[], [], rfl, rfl, .nil⟩
  | statement h _ ih =>
      obtain ⟨s', herase, hderives⟩ := h.derivable hss.1
      obtain ⟨ss', fs', hss', hfs', hitems⟩ := ih hss.2 hfs
      exact ⟨s' :: ss', fs', by simp [Statement.eraseAll, herase, hss'], hfs',
        .statement hderives hitems⟩
  | function h _ ih =>
      obtain ⟨f', herase, hderives⟩ := h.derives (hfs _ (List.mem_cons_self ..))
      obtain ⟨ss', fs', hss', hfs', hitems⟩ :=
        ih hss fun f hf => hfs f (List.mem_cons_of_mem _ hf)
      exact ⟨ss', f' :: fs', hss', by simp [herase, hfs'], .function hderives hitems⟩

/-! ## Every writable script has a rendering -/

/-- In any place an expression can be written, if need be in parentheses. -/
theorem Fragment.Renders.exists_operand (p : Position) {e : Expr}
    (h : ∃ ts, Fragment.Renders (.bare e) ts)
    (r : Nat) : ∃ ts, Fragment.Renders (.operand r e) ts := by
  obtain ⟨ts, hts⟩ := h
  by_cases hrank : r ≤ e.rank
  · exact ⟨ts, .plain hrank hts⟩
  · have hinner : Fragment.Renders (.operand 0 e) ts := .plain (Nat.zero_le _) hts
    exact ⟨⟨.symbol .openParen, p⟩ :: (ts ++ [⟨.symbol .closeParen, p⟩]), .parenthesized hinner⟩

mutual

/-- Every writable expression can be written. -/
theorem Expr.exists_renders (p : Position) :
    (e : Expr) → e.Writable → ∃ ts, Fragment.Renders (.bare e) ts
  | .literal _ _, ⟨lexeme, hlexeme⟩ => ⟨[⟨lexeme, p⟩], .literal hlexeme⟩
  | .var _ name, _ => ⟨[⟨.identifier name, p⟩], .name rfl⟩
  | .element _ name index, h => by
      obtain ⟨ts, hts⟩ := Fragment.Renders.exists_operand p (index.exists_renders p h) 0
      exact ⟨⟨.identifier name, p⟩ :: ⟨.symbol .openBracket, p⟩ ::
        (ts ++ [⟨.symbol .closeBracket, p⟩]), .element rfl hts⟩
  | .unary _ op operand, h => by
      obtain ⟨ts, hts⟩ := Fragment.Renders.exists_operand p (operand.exists_renders p h) 12
      exact ⟨⟨.symbol op.symbol, p⟩ :: ts, .unary hts⟩
  | .binary _ op _ left right, h => by
      obtain ⟨ts, hts⟩ := Fragment.Renders.exists_operand p (left.exists_renders p h.1) op.rank
      obtain ⟨us, hus⟩ :=
        Fragment.Renders.exists_operand p (right.exists_renders p h.2) (op.rank + 1)
      exact ⟨ts ++ ⟨.symbol op.symbol, p⟩ :: us, .binary hts hus⟩
  | .assign _ _ name value, h => by
      obtain ⟨ts, hts⟩ := Fragment.Renders.exists_operand p (value.exists_renders p h) 0
      exact ⟨⟨.identifier name, p⟩ :: ⟨.symbol .assign, p⟩ :: ts, .assign rfl hts⟩
  | .assignElement _ _ name index value, h => by
      obtain ⟨ts, hts⟩ := Fragment.Renders.exists_operand p (index.exists_renders p h.1) 0
      obtain ⟨us, hus⟩ := Fragment.Renders.exists_operand p (value.exists_renders p h.2) 0
      exact ⟨⟨.identifier name, p⟩ :: ⟨.symbol .openBracket, p⟩ ::
        (ts ++ ⟨.symbol .closeBracket, p⟩ :: ⟨.symbol .assign, p⟩ :: us),
        .assignElement rfl hts hus⟩
  | .conditional _ condition thenBranch elseBranch, h => by
      obtain ⟨ts, hts⟩ := Fragment.Renders.exists_operand p (condition.exists_renders p h.1) 2
      obtain ⟨us, hus⟩ := Fragment.Renders.exists_operand p (thenBranch.exists_renders p h.2.1) 1
      obtain ⟨vs, hvs⟩ := Fragment.Renders.exists_operand p (elseBranch.exists_renders p h.2.2) 1
      exact ⟨ts ++ ⟨.symbol .question, p⟩ :: (us ++ ⟨.symbol .colon, p⟩ :: vs),
        .conditional hts hus hvs⟩
  | .list _ elements, h => by
      obtain ⟨ts, hts⟩ := Expr.exists_renders_elements p elements h
      exact ⟨⟨.symbol .openBracket, p⟩ :: (ts ++ [⟨.symbol .closeBracket, p⟩]), .list hts⟩
  | .call _ name arguments, h => by
      obtain ⟨ts, hts⟩ := Expr.exists_renders_elements p arguments h
      exact ⟨⟨.identifier name, p⟩ :: ⟨.symbol .openParen, p⟩ ::
        (ts ++ [⟨.symbol .closeParen, p⟩]), .call hts⟩

/-- Writable expressions can be written with commas between them. -/
theorem Expr.exists_renders_elements (p : Position) :
    (es : List Expr) → Expr.AllWritable es → ∃ ts, Fragment.Renders (.elements es) ts
  | [], _ => ⟨[], .noElements⟩
  | [e], h => by
      obtain ⟨ts, hts⟩ := Fragment.Renders.exists_operand p (e.exists_renders p h.1) 0
      exact ⟨ts, .ofElements1 (.lastElement hts)⟩
  | e :: e' :: es, h => by
      obtain ⟨ts, hts⟩ := Fragment.Renders.exists_operand p (e.exists_renders p h.1) 0
      obtain ⟨us, hus⟩ := Expr.exists_renders_elements p (e' :: es) h.2
      cases hus with
      | ofElements1 hus =>
          exact ⟨ts ++ ⟨.symbol .comma, p⟩ :: us, .ofElements1 (.moreElements hts hus)⟩

end

/-- A whole expression can be written. -/
theorem Expr.exists_renders_whole (p : Position) (e : Expr) (h : e.Writable) :
    ∃ ts, Fragment.Renders (.operand 0 e) ts :=
  Fragment.Renders.exists_operand p (e.exists_renders p h) 0

/-- Every counter, or none, can be written in tokens. -/
theorem LoopCounter.exists_tokens (p : Position) :
    (counter : Option String) → ∃ ts, LoopCounter counter ts
  | none => ⟨[], .absent⟩
  | some name => ⟨[⟨.keyword .var, p⟩, ⟨.identifier name, p⟩, ⟨.symbol .assign, p⟩], .declared⟩

mutual

/-- Every writable statement can be written. -/
theorem Statement.exists_renders (p : Position) :
    (s : Statement) → s.Writable → ∃ ts, Passage.Renders (.statement s) ts
  | .declare _ name none, _ =>
      ⟨[⟨.keyword .var, p⟩, ⟨.identifier name, p⟩, ⟨.symbol .semicolon, p⟩], .declaration⟩
  | .declare _ name (some value), h => by
      obtain ⟨ts, hts⟩ := value.exists_renders_whole p h
      exact ⟨⟨.keyword .var, p⟩ :: ⟨.identifier name, p⟩ :: ⟨.symbol .assign, p⟩ ::
        (ts ++ [⟨.symbol .semicolon, p⟩]), .initialization hts⟩
  | .evaluate _ value, h => by
      obtain ⟨ts, hts⟩ := value.exists_renders p h.2
      exact ⟨ts ++ [⟨.symbol .semicolon, p⟩], .evaluate hts⟩
  | .forLoop _ counter start condition step body, h => by
      obtain ⟨cs, hcs⟩ := LoopCounter.exists_tokens p counter
      obtain ⟨ts, hts⟩ := start.exists_renders_whole p h.1
      obtain ⟨us, hus⟩ := condition.exists_renders_whole p h.2.1
      obtain ⟨vs, hvs⟩ := step.exists_renders_whole p h.2.2.1
      obtain ⟨ws, hws⟩ := body.exists_renders p h.2.2.2
      exact ⟨⟨.keyword .forWord, p⟩ :: ⟨.symbol .openParen, p⟩ :: (cs ++ (ts ++
        ⟨.symbol .semicolon, p⟩ :: (us ++ ⟨.symbol .semicolon, p⟩ ::
          (vs ++ ⟨.symbol .closeParen, p⟩ :: ws)))), .forLoop hcs hts hus hvs hws⟩
  | .forEach _ item collection body, h => by
      obtain ⟨ts, hts⟩ := collection.exists_renders_whole p h.1
      obtain ⟨us, hus⟩ := body.exists_renders p h.2
      exact ⟨⟨.keyword .foreachWord, p⟩ :: ⟨.symbol .openParen, p⟩ :: ([] ++
        ⟨.identifier item, p⟩ :: ⟨.keyword .inWord, p⟩ ::
          (ts ++ ⟨.symbol .closeParen, p⟩ :: us)), .forEach .absent hts hus⟩
  | .ifElse _ condition thenBranch none, h => by
      obtain ⟨ts, hts⟩ := condition.exists_renders_whole p h.1
      obtain ⟨us, hus⟩ := thenBranch.exists_renders p h.2
      exact ⟨⟨.keyword .ifWord, p⟩ :: ⟨.symbol .openParen, p⟩ ::
        (ts ++ ⟨.symbol .closeParen, p⟩ :: us), .ifOnly hts hus⟩
  | .ifElse _ condition thenBranch (some elseBranch), h => by
      obtain ⟨ts, hts⟩ := condition.exists_renders_whole p h.1
      obtain ⟨us, hus⟩ := thenBranch.exists_renders p h.2.1
      obtain ⟨vs, hvs⟩ := elseBranch.exists_renders p h.2.2.2
      exact ⟨⟨.keyword .ifWord, p⟩ :: ⟨.symbol .openParen, p⟩ ::
        (ts ++ ⟨.symbol .closeParen, p⟩ :: (us ++ ⟨.keyword .elseWord, p⟩ :: vs)),
        .ifElse hts hus hvs⟩
  | .whileLoop _ condition body, h => by
      obtain ⟨ts, hts⟩ := condition.exists_renders_whole p h.1
      obtain ⟨us, hus⟩ := body.exists_renders p h.2
      exact ⟨⟨.keyword .whileWord, p⟩ :: ⟨.symbol .openParen, p⟩ ::
        (ts ++ ⟨.symbol .closeParen, p⟩ :: us), .whileLoop hts hus⟩
  | .block _ statements, h => by
      obtain ⟨ts, hts⟩ := Statement.exists_renders_all p statements h
      exact ⟨⟨.symbol .openBrace, p⟩ :: (ts ++ [⟨.symbol .closeBrace, p⟩]), .block hts⟩
  | .returns _ none, _ => ⟨[⟨.keyword .returnWord, p⟩, ⟨.symbol .semicolon, p⟩], .returnNothing⟩
  | .returns _ (some value), h => by
      obtain ⟨ts, hts⟩ := value.exists_renders_whole p h
      exact ⟨⟨.keyword .returnWord, p⟩ :: (ts ++ [⟨.symbol .semicolon, p⟩]), .returnValue hts⟩
  | .breaks _, _ => ⟨[⟨.keyword .breakWord, p⟩, ⟨.symbol .semicolon, p⟩], .breaks⟩
  | .continues _, _ => ⟨[⟨.keyword .continueWord, p⟩, ⟨.symbol .semicolon, p⟩], .continues⟩

/-- Writable statements can be written one after the other. -/
theorem Statement.exists_renders_all (p : Position) :
    (ss : List Statement) → Statement.AllWritable ss → ∃ ts, Passage.Renders (.statements ss) ts
  | [], _ => ⟨[], .noStatements⟩
  | s :: ss, h => by
      obtain ⟨ts, hts⟩ := s.exists_renders p h.1
      obtain ⟨us, hus⟩ := Statement.exists_renders_all p ss h.2
      exact ⟨ts ++ us, .moreStatements hts hus⟩

end

/-- One parameter or more can be written in tokens. -/
theorem Parameters1.exists_tokens (p : Position) (variadic : Bool) (name : String)
    (names : List String) :
    ∃ ts, Parameters1 (name :: names) variadic ts := by
  induction names generalizing name with
  | nil =>
      cases variadic with
      | true =>
          exact ⟨[⟨.identifier name, p⟩, ⟨.symbol .comma, p⟩, ⟨.symbol .ellipsis, p⟩],
            .more .ellipsis⟩
      | false => exact ⟨[⟨.identifier name, p⟩], .last⟩
  | cons name' names ih =>
      obtain ⟨ts, hts⟩ := ih name'
      exact ⟨⟨.identifier name, p⟩ :: ⟨.symbol .comma, p⟩ :: ts, .more hts⟩

/-- Parameters can be written in tokens, also if there are none. -/
theorem Parameters.exists_tokens (p : Position) (names : List String) (variadic : Bool) :
    ∃ ts, Parameters names variadic ts := by
  cases names with
  | nil =>
      cases variadic with
      | true => exact ⟨[⟨.symbol .ellipsis, p⟩], .given .ellipsis⟩
      | false => exact ⟨[], .absent⟩
  | cons name names =>
      obtain ⟨ts, hts⟩ := Parameters1.exists_tokens p variadic name names
      exact ⟨ts, .given hts⟩

/-- Every function with a writable body has tokens that render it. -/
theorem FunctionDef.exists_renders (p : Position) (f : FunctionDef)
    (h : Statement.AllWritable f.body) :
    ∃ ts, f.Renders ts := by
  obtain ⟨ts, hts⟩ := Parameters.exists_tokens p f.signature.params f.signature.variadic
  obtain ⟨us, hus⟩ := Statement.exists_renders_all p f.body h
  exact ⟨⟨.keyword .func, p⟩ :: ⟨.identifier f.signature.name, p⟩ :: ⟨.symbol .openParen, p⟩ ::
    (ts ++ ⟨.symbol .closeParen, p⟩ :: ⟨.symbol .openBrace, p⟩ ::
      (us ++ [⟨.symbol .closeBrace, p⟩])), .intro hts hus⟩

/-- Statements and functions can be written, the functions first. -/
theorem RenderedItems.exists_tokens {ss : List Statement} {fs : List FunctionDef}
    (hss : Statement.AllWritable ss) (hfs : ∀ f ∈ fs, Statement.AllWritable f.body) :
    ∃ ts, RenderedItems ss fs ts := by
  induction fs with
  | nil =>
      induction ss with
      | nil => exact ⟨[], .nil⟩
      | cons s ss ih =>
          obtain ⟨ts, hts⟩ := s.exists_renders .nowhere hss.1
          obtain ⟨us, hus⟩ := ih hss.2
          exact ⟨ts ++ us, .statement hts hus⟩
  | cons f fs ih =>
      obtain ⟨ts, hts⟩ := f.exists_renders .nowhere (hfs f (List.mem_cons_self ..))
      obtain ⟨us, hus⟩ := ih fun g hg => hfs g (List.mem_cons_of_mem f hg)
      exact ⟨ts ++ us, .function hts hus⟩

namespace Script

/-- **Written scripts read back.**  A writable script has a rendering, and every
rendering of it, with as many parentheses more than are needed as one likes, is
read as the same script, positions aside. -/
theorem ofTokens_of_renders {script : Script} (h : script.Writable) :
    (∃ ts, script.Renders ts) ∧
      ∀ ts, script.Renders ts →
        ∃ script', ofTokens script.name ts = .ok script' ∧ script'.erase = script.erase := by
  refine ⟨RenderedItems.exists_tokens h.1 h.2, fun ts hts => ?_⟩
  obtain ⟨ss', fs', hss, hfs, hitems⟩ := RenderedItems.derives hts h.1 h.2
  have hderives : (Script.mk script.name ss' fs').Derives ts := hitems
  refine ⟨⟨script.name, ss', fs'⟩, hderives.ofTokens, ?_⟩
  simp only [erase, hss, hfs]

/-- A script with the statement `x = (a + b) * -c;` and the function `func f(y) {}`. -/
def product : Script :=
  let sum : Expr := .binary .nowhere .add .nowhere (.var .nowhere "a") (.var .nowhere "b")
  ⟨"s", [.evaluate .nowhere (.assign .nowhere .nowhere "x"
      (.binary .nowhere .mul .nowhere sum (.unary .nowhere .negate (.var .nowhere "c"))))],
    [⟨.nowhere, ⟨"f", ["y"], false⟩, .nowhere, []⟩]⟩

/-- `func f(y) {} x = ((a) + b) * -c;` -/
def productTokens : List Token :=
  [.keyword .func, .identifier "f", .symbol .openParen, .identifier "y", .symbol .closeParen,
    .symbol .openBrace, .symbol .closeBrace, .identifier "x", .symbol .assign,
    .symbol .openParen, .symbol .openParen, .identifier "a", .symbol .closeParen, .symbol .plus,
    .identifier "b", .symbol .closeParen, .symbol .star, .symbol .minus, .identifier "c",
    .symbol .semicolon].map (⟨·, ⟨"s", 1, 1⟩⟩)

/-- The tokens of the example render its script, with more parentheses than it needs. -/
theorem renders_product : product.Renders productTokens := by
  let p : Position := ⟨"s", 1, 1⟩
  have hname : ∀ name r, r ≤ 13 →
      Fragment.Renders (.operand r (.var .nowhere name)) [⟨.identifier name, p⟩] :=
    fun name r hr => .plain hr (.name rfl)
  have hfirst : Fragment.Renders (.operand BinaryOp.add.rank (.var .nowhere "a"))
      (⟨.symbol .openParen, p⟩ :: ([⟨.identifier "a", p⟩] ++ [⟨.symbol .closeParen, p⟩])) :=
    .parenthesized (hname "a" 0 (by decide))
  have hsum := Fragment.Renders.plain (r := 0) (by decide)
    (Fragment.Renders.binary (o := .nowhere) (t := .nowhere) (p := p) hfirst
      (hname "b" _ (by decide)))
  have hleft := Fragment.Renders.parenthesized (r := BinaryOp.mul.rank) (p := p) (q := p) hsum
  have hminus : Fragment.Renders (.bare (.unary .nowhere .negate (.var .nowhere "c")))
      [⟨.symbol .minus, p⟩, ⟨.identifier "c", p⟩] :=
    .unary (hname "c" 12 (by decide))
  have hright := Fragment.Renders.plain (r := BinaryOp.mul.rank + 1) (by decide) hminus
  have hproduct := Fragment.Renders.plain (r := 0) (by decide)
    (Fragment.Renders.binary (o := .nowhere) (t := .nowhere) (p := p) hleft hright)
  have hassign : Fragment.Renders _ (⟨.identifier "x", p⟩ :: ⟨.symbol .assign, p⟩ :: _) :=
    .assign (o := .nowhere) (t := .nowhere) rfl hproduct
  have hstatement := Passage.Renders.evaluate (o := .nowhere) (r := p) hassign
  have hfunction : FunctionDef.Renders ⟨.nowhere, ⟨"f", ["y"], false⟩, .nowhere, []⟩
      (⟨.keyword .func, p⟩ :: ⟨.identifier "f", p⟩ :: ⟨.symbol .openParen, p⟩ ::
        ([⟨.identifier "y", p⟩] ++ ⟨.symbol .closeParen, p⟩ ::
          ⟨.symbol .openBrace, p⟩ :: ([] ++ [⟨.symbol .closeBrace, p⟩]))) :=
    .intro (.given .last) .noStatements
  exact .function hfunction (.statement hstatement .nil)

/-- The parentheses around the sum are needed, those around `a` are not. -/
theorem ofTokens_of_renders_product :
    product.Writable ∧ product.Renders productTokens ∧
      ∃ script', ofTokens "s" productTokens = .ok script' ∧ script'.erase = product.erase := by
  have hwritable : product.Writable := by
    simp [product, Script.Writable, Statement.AllWritable, Statement.Writable,
      Expr.standsAlone, Expr.Writable]
  exact ⟨hwritable, renders_product, (ofTokens_of_renders hwritable).2 _ renders_product⟩

end Script

end Scriptlet
