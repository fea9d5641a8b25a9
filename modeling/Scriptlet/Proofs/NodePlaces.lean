import Scriptlet.Proofs.NodeSpans

/-!
# Where nodes begin

The place that a node keeps is that of the first token of its span, opening parentheses left
aside, whichever tokens it is read from (`Node.begins_of_readFrom`).  Operations, choices,
assignments and the statements made of them have no token in front, so what is written there is
the place that the leftmost part keeps.  A binary operation keeps a second place, that of the
operator between the spans of its operands.
-/

namespace Scriptlet

/-! ## Where a span begins -/

/-- The place that a node keeps. -/
def Node.position : Node → Position
  | .expression e => e.position
  | .lvalue target => target.position
  | .statement s => s.position
  | .function f => f.position

/-- The place is that of the first token which is no opening parenthesis. -/
def Begins (p : Position) (ts : List Token) : Prop :=
  ∃ t, ts.find? (·.lexeme != .symbol .openParen) = some t ∧ p = t.position

namespace Begins

variable {p : Position} {ts us : List Token}

/-- More tokens at the end do not change the beginning. -/
theorem append (h : Begins p ts) (us : List Token) : Begins p (ts ++ us) := by
  obtain ⟨t, ht, hp⟩ := h
  exact ⟨t, by rw [List.find?_append, ht, Option.some_or], hp⟩

/-- A token other than a parenthesis is the first one that counts. -/
theorem cons {l : Lexeme} (h : l ≠ .symbol .openParen) (p : Position) (ts : List Token) :
    Begins p (⟨l, p⟩ :: ts) :=
  ⟨⟨l, p⟩, List.find?_cons_of_pos (by simpa using h), rfl⟩

/-- A parenthesis in front does not change the beginning. -/
theorem parentheses (h : Begins p ts) {q : Position} (us : List Token) :
    Begins p (⟨.symbol .openParen, q⟩ :: (ts ++ us)) := by
  obtain ⟨t, ht, hp⟩ := h.append us
  exact ⟨t, by rwa [List.find?_cons_of_neg (by simp)], hp⟩

/-- The beginning is the place of one of the tokens. -/
theorem exists_mem (h : Begins p ts) : ∃ t ∈ ts, p = t.position := by
  obtain ⟨t, ht, hp⟩ := h
  exact ⟨t, List.mem_of_find?_eq_some ht, hp⟩

end Begins

/-- A place that is read keeps where it begins. -/
theorem LValue.position_read (target : LValue) : target.read.position = target.position := by
  cases target <;> rfl

/-- An assignment keeps the place that it is given. -/
theorem LValue.position_assign (target : LValue) (p : Position) (value : Expr) :
    (target.assign p value).position = p := by
  cases target <;> rfl

/-- **A node of an expression keeps the place where its tokens begin.**  By induction on the
derivation: a node begins where its first part does. -/
theorem Phrase.Derives.begins {phrase : Phrase} {ts : List Token} (h : phrase.Derives ts)
    {n : Node} (hn : phrase.node? = some n) : Begins n.position ts := by
  induction h generalizing n with
  | @assignment target value _ _ _ _ _ ih _ =>
      cases hn
      rw [Node.position, LValue.position_assign]
      exact (ih rfl).append _
  | ofConditional _ ih | ofBinary _ ih | ofTighter _ ih | ofUnary _ ih | ofPrimary _ ih
  | ofCall _ ih => exact ih hn
  | choice _ _ _ ih _ _ | operation _ _ _ ih _ =>
      cases hn
      exact (ih rfl).append _
  | @operator op _ _ _ _ _ =>
      cases hn
      exact .cons (by cases op <;> simp [UnaryOp.symbol]) _ _
  | @ofLValue target _ _ ih =>
      cases hn
      rw [Node.position, LValue.position_read]
      exact ih rfl
  | literal hvalue =>
      cases hn
      exact .cons ((Literal.lexeme_of_read? hvalue).2.2.1 _) _ _
  | parentheses _ ih => exact (ih hn).parentheses _
  | list _ _ | call _ _ =>
      cases hn
      exact .cons (by simp) _ _
  | named hname | element hname _ _ =>
      cases hn
      refine .cons (fun hopen => ?_) _ _
      rw [hopen] at hname
      cases hname
  | noElements | ofElements1 _ _ | lastElement _ _ | moreElements _ _ _ _ => cases hn

/-- A statement keeps the place where its tokens begin. -/
theorem Passage.Derives.begins {s : Statement} {ts : List Token}
    (h : (Passage.statement s).Derives ts) : Begins s.position ts := by
  cases h with
  | assignment htarget hvalue =>
      rw [Statement.ofExpr, Statement.position, LValue.position_assign]
      exact (htarget.begins rfl).append _
  | call hcall => exact (hcall.begins rfl).append _
  | declaration | initialization | forLoop | forEach | ifOnly | ifElse | whileLoop | block
  | returnNothing | returnValue | breaks | continues => exact .cons (by simp) _ _

/-- **A node begins with its span**, whichever tokens it is read from. -/
theorem Node.begins_of_readFrom {n : Node} {ts : List Token} (h : n.ReadFrom ts) :
    Begins n.position ts := by
  have hderives := derives_of_readFrom h
  cases n with
  | expression e => exact Phrase.Derives.begins hderives rfl
  | lvalue target => exact Phrase.Derives.begins hderives rfl
  | statement s => exact Passage.Derives.begins hderives
  | function f =>
      cases hderives
      exact .cons (by simp) _ _

/-! ## Scripts -/

def Node.statement? : Node → Option Statement
  | .statement s => some s
  | _ => none

def Node.function? : Node → Option FunctionDef
  | .function f => some f
  | _ => none

/-- The node is in the tree of the script. -/
inductive Script.HasNode (script : Script) : Node → Prop where
  | statement {s : Statement} (h : s ∈ script.statements) : HasNode script (.statement s)
  | function {f : FunctionDef} (h : f ∈ script.functions) : HasNode script (.function f)
  | child {n c : Node} (hn : HasNode script n) (hc : c ∈ n.children) : HasNode script c

/-- The tokens of items are the spans of statements and functions. -/
theorem Items.spelled {ss : List Statement} {fs : List FunctionDef} {ts : List Token}
    (h : Items ss fs ts) :
    ∃ nodes : List Node, Part.Spelled (nodes.map .node) ts ∧
      nodes.filterMap Node.statement? = ss ∧ nodes.filterMap Node.function? = fs := by
  induction h with
  | nil => exact ⟨[], .nil, rfl, rfl⟩
  | @statement s _ _ _ _ hfirst _ ih =>
      obtain ⟨nodes, hspelled, rfl, rfl⟩ := ih
      exact ⟨.statement s :: nodes, .node hfirst.readFrom hspelled, rfl, rfl⟩
  | @function f _ _ _ _ hfirst _ ih =>
      obtain ⟨nodes, hspelled, rfl, rfl⟩ := ih
      have hread : (Node.function f).ReadFrom _ := Node.readFrom_of_derives hfirst
      exact ⟨.function f :: nodes, .node hread hspelled, rfl, rfl⟩

namespace Script

variable {name : String} {tokens ts : List Token} {script : Script} {n : Node}

/-- A node of the script, and a run of the tokens that it is read from. -/
structure Span (script : Script) (tokens : List Token) (n : Node) (ts : List Token) : Prop where
  hasNode : script.HasNode n
  isInfix : ts <:+: tokens
  read : n.ReadFrom ts

/-- The tokens of a script are the spans of its statements and functions. -/
theorem spelled_of_ofTokens (h : ofTokens name tokens = .ok script) :
    ∃ nodes : List Node, Part.Spelled (nodes.map .node) tokens ∧
      nodes.filterMap Node.statement? = script.statements ∧
      nodes.filterMap Node.function? = script.functions := by
  unfold ofTokens at h
  split at h
  next statements functions hparse =>
    cases h
    obtain ⟨rest, hitems⟩ := Parser.parse_eq_ok hparse
    exact (Parser.items_done hitems).1.spelled
  next => cases h

/-- Every node has a span.  The induction goes down the tree: the items have spans among the
tokens, and the nodes below a node have them within its own. -/
theorem HasNode.exists_span (hn : script.HasNode n) (h : ofTokens name tokens = .ok script) :
    ∃ ts, script.Span tokens n ts := by
  obtain ⟨nodes, hspelled, hstatements, hfunctions⟩ := spelled_of_ofTokens h
  have hitem : ∀ m ∈ nodes, ∃ ts, ts <:+: tokens ∧ m.ReadFrom ts := fun m hm =>
    hspelled.exists_readFrom (List.mem_map_of_mem hm)
  induction hn with
  | @statement s hs =>
      have hnode := hs
      rw [← hstatements, List.mem_filterMap] at hnode
      obtain ⟨m, hm, hms⟩ := hnode
      cases m with
      | statement _ =>
          cases hms
          obtain ⟨ts, hts, hread⟩ := hitem _ hm
          exact ⟨ts, .statement hs, hts, hread⟩
      | expression _ | lvalue _ | function _ => cases hms
  | @function f hf =>
      have hnode := hf
      rw [← hfunctions, List.mem_filterMap] at hnode
      obtain ⟨m, hm, hmf⟩ := hnode
      cases m with
      | function _ =>
          cases hmf
          obtain ⟨ts, hts, hread⟩ := hitem _ hm
          exact ⟨ts, .function hf, hts, hread⟩
      | expression _ | lvalue _ | statement _ => cases hmf
  | child hparent hc ih =>
      obtain ⟨ts, hspan⟩ := ih
      obtain ⟨us, hus, hread⟩ := Node.exists_readFrom_of_child hspan.read hc
      exact ⟨us, .child hparent hc, hus.trans hspan.isInfix, hread⟩

/-- The operands of an operation have their spans on both sides of the operator. -/
theorem Span.operator {p : Position} {op : BinaryOp} {q : Position} {left right : Expr}
    (h : script.Span tokens (.expression (.binary p op q left right)) ts) :
    ∃ ls rs, script.Span tokens (.expression left) ls ∧
      script.Span tokens (.expression right) rs ∧
      InParentheses (ls ++ ⟨.symbol op.symbol, q⟩ :: rs) ts := by
  obtain ⟨ls, rs, hin, hleft, hright⟩ := Node.operator_of_readFrom h.read
  have hwhole := hin.isInfix.trans h.isInfix
  have hls := (List.prefix_append ls (⟨.symbol op.symbol, q⟩ :: rs)).isInfix
  have hrs := (List.suffix_append (ls ++ [⟨.symbol op.symbol, q⟩]) rs).isInfix
  rw [List.append_assoc, List.singleton_append] at hrs
  exact ⟨ls, rs, ⟨.child h.hasNode (.head _), hls.trans hwhole, hleft⟩,
    ⟨.child h.hasNode (.tail _ (.head _)), hrs.trans hwhole, hright⟩, hin⟩

/-- **Every node begins with its span.**  The tokens of a script are the spans of its statements
and functions, and every node of the tree has a span among them.  Wherever a node is read from, the
run of tokens consists of the parts of the node, and the place that the node keeps is that of the
first token which is no opening parenthesis; the second place that a binary operation keeps is that
of the operator between the spans of its operands.  So no place is unknown if those of the tokens
are not. -/
theorem nodes_begin_with_spans (h : ofTokens name tokens = .ok script) :
    (∃ nodes : List Node, Part.Spelled (nodes.map .node) tokens ∧
      nodes.filterMap Node.statement? = script.statements ∧
      nodes.filterMap Node.function? = script.functions) ∧
    (∀ n, script.HasNode n → ∃ ts, script.Span tokens n ts) ∧
    (∀ n ts, script.Span tokens n ts → n.Consists ts ∧ Begins n.position ts) ∧
    (∀ p op q left right ts, script.Span tokens (.expression (.binary p op q left right)) ts →
      ∃ ls rs, script.Span tokens (.expression left) ls ∧
        script.Span tokens (.expression right) rs ∧
        InParentheses (ls ++ ⟨.symbol op.symbol, q⟩ :: rs) ts) ∧
    ((∀ t ∈ tokens, 0 < t.position.line) →
      (∀ n, script.HasNode n → 0 < n.position.line) ∧
      ∀ p op q left right, script.HasNode (.expression (.binary p op q left right)) →
        0 < q.line) := by
  refine ⟨spelled_of_ofTokens h, fun n hn => hn.exists_span h, fun n ts hspan => ?_,
    fun p op q left right ts hspan => hspan.operator, fun hknown => ⟨fun n hn => ?_, ?_⟩⟩
  · exact ⟨Node.consists_of_readFrom hspan.read, Node.begins_of_readFrom hspan.read⟩
  · obtain ⟨ts, hspan⟩ := hn.exists_span h
    obtain ⟨t, ht, hposition⟩ := (Node.begins_of_readFrom hspan.read).exists_mem
    rw [hposition]
    exact hknown t (hspan.isInfix.subset ht)
  · intro p op q left right hn
    obtain ⟨ts, hspan⟩ := hn.exists_span h
    obtain ⟨ls, rs, -, -, hin⟩ := hspan.operator
    have hoperator := hin.isInfix.subset (List.mem_append_right ls (.head rs))
    exact hknown _ (hspan.isInfix.subset hoperator)

/-- `x = ((a) - b) * c ? d : e;`, each token in a column of its own. -/
def nestedTokens : List Token :=
  ([.identifier "x", .symbol .assign, .symbol .openParen, .symbol .openParen, .identifier "a",
    .symbol .closeParen, .symbol .minus, .identifier "b", .symbol .closeParen, .symbol .star,
    .identifier "c", .symbol .question, .identifier "d", .symbol .colon, .identifier "e",
    .symbol .semicolon].zipIdx 1).map fun (l, column) => ⟨l, ⟨"s", 1, column⟩⟩

/-- The product in `nestedTokens`. -/
def nestedProduct : Expr :=
  .binary ⟨"s", 1, 5⟩ .mul ⟨"s", 1, 10⟩
    (.binary ⟨"s", 1, 5⟩ .sub ⟨"s", 1, 7⟩ (.var ⟨"s", 1, 5⟩ "a") (.var ⟨"s", 1, 8⟩ "b"))
    (.var ⟨"s", 1, 11⟩ "c")

/-- The choice in `nestedTokens`. -/
def nestedChoice : Expr :=
  .conditional ⟨"s", 1, 5⟩ nestedProduct (.var ⟨"s", 1, 13⟩ "d") (.var ⟨"s", 1, 15⟩ "e")

/-- The script that `nestedTokens` is read as. -/
def nestedScript : Script :=
  ⟨"s", [.evaluate ⟨"s", 1, 1⟩ (.assign ⟨"s", 1, 1⟩ ⟨"s", 1, 1⟩ "x" nestedChoice)], []⟩

/-- The choice and the product begin within both pairs of parentheses, where `a` stands. -/
theorem nodes_begin_with_spans_nestedTokens :
    ofTokens "s" nestedTokens = .ok nestedScript ∧
    (∃ ts, nestedScript.Span nestedTokens (.expression nestedChoice) ts ∧
      Begins ⟨"s", 1, 5⟩ ts) ∧
    (∃ ts, nestedScript.Span nestedTokens (.expression nestedProduct) ts ∧
      Begins ⟨"s", 1, 5⟩ ts ∧
      ∃ ls rs, nestedScript.Span nestedTokens (.expression (.var ⟨"s", 1, 11⟩ "c")) rs ∧
        InParentheses (ls ++ ⟨.symbol .star, ⟨"s", 1, 10⟩⟩ :: rs) ts) ∧
    ∀ n, nestedScript.HasNode n → 0 < n.position.line := by
  have hread : ofTokens "s" nestedTokens = .ok nestedScript := rfl
  have hchoice : nestedScript.HasNode (.expression nestedChoice) :=
    .child (.child (.statement (.head _)) (.head _)) (.tail _ (.head _))
  have hproduct : nestedScript.HasNode (.expression nestedProduct) := .child hchoice (.head _)
  have hlines : ∀ t ∈ nestedTokens, 0 < t.position.line := by
    intro t ht
    obtain ⟨⟨l, column⟩, -, rfl⟩ := List.mem_map.mp ht
    exact Nat.one_pos
  obtain ⟨-, hspans, hbegins, hoperators, hknown⟩ := nodes_begin_with_spans hread
  obtain ⟨us, hchoiceSpan⟩ := hspans _ hchoice
  obtain ⟨ts, hspan⟩ := hspans _ hproduct
  obtain ⟨ls, rs, -, hright, hin⟩ := hoperators _ _ _ _ _ _ hspan
  exact ⟨hread, ⟨us, hchoiceSpan, (hbegins _ _ hchoiceSpan).2⟩,
    ⟨ts, hspan, (hbegins _ _ hspan).2, ls, rs, hright, hin⟩, (hknown hlines).1⟩

end Script

end Scriptlet
