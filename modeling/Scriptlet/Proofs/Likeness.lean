import Mathlib.Data.List.Forall2
import Scriptlet.Function

/-!
# Code that is alike

Two pieces of code can be the same but for what things are called and where they stand.
A `Likeness` says which names and which places correspond to each other, and two trees
are alike if they have the same shape with corresponding names and places in it.

Nothing is asked of the correspondence here.  With equal names on both sides the trees
differ in layout only, with equal places in spelling only, and with equality for both
code is alike only to itself.
-/

namespace Scriptlet

/-- Which names and which places of two pieces of code correspond. -/
structure Likeness where
  name : String → String → Prop
  place : Position → Position → Prop

/-! ## Trees -/

/-- Expressions of the same shape with corresponding names and places. -/
inductive Expr.Alike (l : Likeness) : Expr → Expr → Prop where
  | literal {p q : Position} (hp : l.place p q) (value : Literal) :
      Alike l (.literal p value) (.literal q value)
  | var {p q : Position} {a b : String} (hp : l.place p q) (hname : l.name a b) :
      Alike l (.var p a) (.var q b)
  | element {p q : Position} {a b : String} {index index' : Expr} (hp : l.place p q)
      (hname : l.name a b) (hindex : Alike l index index') :
      Alike l (.element p a index) (.element q b index')
  | unary {p q : Position} (op : UnaryOp) {operand operand' : Expr} (hp : l.place p q)
      (hoperand : Alike l operand operand') : Alike l (.unary p op operand) (.unary q op operand')
  | binary {p q o o' : Position} (op : BinaryOp) {left left' right right' : Expr}
      (hp : l.place p q) (ho : l.place o o') (hleft : Alike l left left')
      (hright : Alike l right right') :
      Alike l (.binary p op o left right) (.binary q op o' left' right')
  | assign {p q t t' : Position} {a b : String} {value value' : Expr} (hp : l.place p q)
      (ht : l.place t t') (hname : l.name a b) (hvalue : Alike l value value') :
      Alike l (.assign p t a value) (.assign q t' b value')
  | assignElement {p q t t' : Position} {a b : String} {index index' value value' : Expr}
      (hp : l.place p q) (ht : l.place t t') (hname : l.name a b)
      (hindex : Alike l index index') (hvalue : Alike l value value') :
      Alike l (.assignElement p t a index value) (.assignElement q t' b index' value')
  | conditional {p q : Position}
      {condition condition' thenBranch thenBranch' elseBranch elseBranch' : Expr}
      (hp : l.place p q) (hcondition : Alike l condition condition')
      (hthen : Alike l thenBranch thenBranch') (helse : Alike l elseBranch elseBranch') :
      Alike l (.conditional p condition thenBranch elseBranch)
        (.conditional q condition' thenBranch' elseBranch')
  | list {p q : Position} {elements elements' : List Expr} (hp : l.place p q)
      (helements : List.Forall₂ (Expr.Alike l) elements elements') :
      Alike l (.list p elements) (.list q elements')
  | call {p q : Position} {a b : String} {arguments arguments' : List Expr} (hp : l.place p q)
      (hname : l.name a b) (harguments : List.Forall₂ (Expr.Alike l) arguments arguments') :
      Alike l (.call p a arguments) (.call q b arguments')

/-- Lvalues of the same shape with corresponding names and places. -/
inductive LValue.Alike (l : Likeness) : LValue → LValue → Prop where
  | var {p q : Position} {a b : String} (hp : l.place p q) (hname : l.name a b) :
      Alike l (.var p a) (.var q b)
  | element {p q : Position} {a b : String} {index index' : Expr} (hp : l.place p q)
      (hname : l.name a b) (hindex : Expr.Alike l index index') :
      Alike l (.element p a index) (.element q b index')

/-- Statements of the same shape with corresponding names and places. -/
inductive Statement.Alike (l : Likeness) : Statement → Statement → Prop where
  | declare {p q : Position} {a b : String} {value value' : Option Expr} (hp : l.place p q)
      (hname : l.name a b) (hvalue : Option.Rel (Expr.Alike l) value value') :
      Alike l (.declare p a value) (.declare q b value')
  | evaluate {p q : Position} {value value' : Expr} (hp : l.place p q)
      (hvalue : Expr.Alike l value value') : Alike l (.evaluate p value) (.evaluate q value')
  | forLoop {p q : Position} {counter counter' : Option String}
      {start start' condition condition' step step' : Expr} {body body' : Statement}
      (hp : l.place p q) (hcounter : Option.Rel l.name counter counter')
      (hstart : Expr.Alike l start start') (hcondition : Expr.Alike l condition condition')
      (hstep : Expr.Alike l step step') (hbody : Alike l body body') :
      Alike l (.forLoop p counter start condition step body)
        (.forLoop q counter' start' condition' step' body')
  | forEach {p q : Position} {a b : String} {collection collection' : Expr}
      {body body' : Statement} (hp : l.place p q) (hitem : l.name a b)
      (hcollection : Expr.Alike l collection collection') (hbody : Alike l body body') :
      Alike l (.forEach p a collection body) (.forEach q b collection' body')
  | ifElse {p q : Position} {condition condition' : Expr} {thenBranch thenBranch' : Statement}
      {elseBranch elseBranch' : Option Statement} (hp : l.place p q)
      (hcondition : Expr.Alike l condition condition') (hthen : Alike l thenBranch thenBranch')
      (helse : Option.Rel (Statement.Alike l) elseBranch elseBranch') :
      Alike l (.ifElse p condition thenBranch elseBranch)
        (.ifElse q condition' thenBranch' elseBranch')
  | whileLoop {p q : Position} {condition condition' : Expr} {body body' : Statement}
      (hp : l.place p q) (hcondition : Expr.Alike l condition condition')
      (hbody : Alike l body body') :
      Alike l (.whileLoop p condition body) (.whileLoop q condition' body')
  | block {p q : Position} {statements statements' : List Statement} (hp : l.place p q)
      (hstatements : List.Forall₂ (Statement.Alike l) statements statements') :
      Alike l (.block p statements) (.block q statements')
  | returns {p q : Position} {value value' : Option Expr} (hp : l.place p q)
      (hvalue : Option.Rel (Expr.Alike l) value value') :
      Alike l (.returns p value) (.returns q value')
  | breaks {p q : Position} (hp : l.place p q) : Alike l (.breaks p) (.breaks q)
  | continues {p q : Position} (hp : l.place p q) : Alike l (.continues p) (.continues q)

/-- Signatures with corresponding names. -/
structure Signature.Alike (l : Likeness) (s t : Signature) : Prop where
  name : l.name s.name t.name
  params : List.Forall₂ l.name s.params t.params
  variadic_eq : s.variadic = t.variadic

/-- Functions with corresponding names and places, and bodies that are alike. -/
structure FunctionDef.Alike (l : Likeness) (f g : FunctionDef) : Prop where
  position : l.place f.position g.position
  signature : f.signature.Alike l g.signature
  bodyPosition : l.place f.bodyPosition g.bodyPosition
  body : List.Forall₂ (Statement.Alike l) f.body g.body

/-- Scripts whose statements and functions are alike, one by one. -/
structure Script.Alike (l : Likeness) (script script' : Script) : Prop where
  name_eq : script.name = script'.name
  statements : List.Forall₂ (Statement.Alike l) script.statements script'.statements
  functions : List.Forall₂ (FunctionDef.Alike l) script.functions script'.functions

/-! ## Where alike code stands -/

/-- Expressions that are alike begin at corresponding places. -/
theorem Expr.Alike.position {l : Likeness} {e e' : Expr} (h : e.Alike l e') :
    l.place e.position e'.position := by
  cases h <;> assumption

/-- Signatures that are alike accept the same numbers of arguments. -/
theorem Signature.Alike.accepts_eq {l : Likeness} {s t : Signature} (h : s.Alike l t)
    (count : Nat) : s.accepts count = t.accepts count := by
  unfold Signature.accepts
  rw [h.params.length_eq, h.variadic_eq]

namespace LValue.Alike

variable {l : Likeness} {target target' : LValue}

/-- Lvalues that are alike begin at corresponding places. -/
theorem position (h : target.Alike l target') : l.place target.position target'.position := by
  cases h <;> assumption

/-- Reading lvalues that are alike is alike. -/
theorem read (h : target.Alike l target') : target.read.Alike l target'.read := by
  cases h with
  | var hp hname => exact .var hp hname
  | element hp hname hindex => exact .element hp hname hindex

/-- Assigning to lvalues that are alike is alike. -/
theorem assign (h : target.Alike l target') {p q : Position} (hp : l.place p q)
    {value value' : Expr} (hvalue : value.Alike l value') :
    (target.assign p value).Alike l (target'.assign q value') := by
  cases h with
  | var ht hname => exact .assign hp ht hname hvalue
  | element ht hname hindex => exact .assignElement hp ht hname hindex hvalue

end LValue.Alike

/-- Statements that evaluate expressions that are alike are alike. -/
theorem Expr.Alike.ofExpr {l : Likeness} {e e' : Expr} (h : e.Alike l e') :
    (Statement.ofExpr e).Alike l (.ofExpr e') :=
  .evaluate h.position h

/-! ## Code beside itself -/

/-- Every name and every place corresponds to itself. -/
structure Likeness.Reflexive (l : Likeness) : Prop where
  name : ∀ a, l.name a a
  place : ∀ p, l.place p p

section Reflexive

variable {l : Likeness}

mutual

/-- An expression is like itself. -/
theorem Expr.alike_refl (hl : l.Reflexive) : ∀ e : Expr, e.Alike l e
  | .literal p value => .literal (hl.place p) value
  | .var p name => .var (hl.place p) (hl.name name)
  | .element p name index => .element (hl.place p) (hl.name name) (Expr.alike_refl hl index)
  | .unary p op operand => .unary op (hl.place p) (Expr.alike_refl hl operand)
  | .binary p op o left right =>
    .binary op (hl.place p) (hl.place o) (Expr.alike_refl hl left) (Expr.alike_refl hl right)
  | .assign p t name value =>
    .assign (hl.place p) (hl.place t) (hl.name name) (Expr.alike_refl hl value)
  | .assignElement p t name index value =>
    .assignElement (hl.place p) (hl.place t) (hl.name name) (Expr.alike_refl hl index)
      (Expr.alike_refl hl value)
  | .conditional p condition thenBranch elseBranch =>
    .conditional (hl.place p) (Expr.alike_refl hl condition) (Expr.alike_refl hl thenBranch)
      (Expr.alike_refl hl elseBranch)
  | .list p elements => .list (hl.place p) (Expr.allAlike_refl hl elements)
  | .call p name arguments => .call (hl.place p) (hl.name name) (Expr.allAlike_refl hl arguments)

/-- Expressions are like themselves, one by one. -/
theorem Expr.allAlike_refl (hl : l.Reflexive) : ∀ es : List Expr, List.Forall₂ (Expr.Alike l) es es
  | [] => .nil
  | e :: es => .cons (Expr.alike_refl hl e) (Expr.allAlike_refl hl es)

end

theorem Expr.optionAlike_refl (hl : l.Reflexive) (e? : Option Expr) :
    Option.Rel (Expr.Alike l) e? e? := by
  cases e? with
  | none => exact .none
  | some e => exact .some (Expr.alike_refl hl e)

mutual

/-- A statement is like itself. -/
theorem Statement.alike_refl (hl : l.Reflexive) : ∀ s : Statement, s.Alike l s
  | .declare p name value =>
    .declare (hl.place p) (hl.name name) (Expr.optionAlike_refl hl value)
  | .evaluate p value => .evaluate (hl.place p) (Expr.alike_refl hl value)
  | .forLoop p none start condition step body =>
    .forLoop (hl.place p) .none (Expr.alike_refl hl start) (Expr.alike_refl hl condition)
      (Expr.alike_refl hl step) (Statement.alike_refl hl body)
  | .forLoop p (some name) start condition step body =>
    .forLoop (hl.place p) (.some (hl.name name)) (Expr.alike_refl hl start)
      (Expr.alike_refl hl condition) (Expr.alike_refl hl step) (Statement.alike_refl hl body)
  | .forEach p item collection body =>
    .forEach (hl.place p) (hl.name item) (Expr.alike_refl hl collection)
      (Statement.alike_refl hl body)
  | .ifElse p condition thenBranch none =>
    .ifElse (hl.place p) (Expr.alike_refl hl condition) (Statement.alike_refl hl thenBranch) .none
  | .ifElse p condition thenBranch (some elseBranch) =>
    .ifElse (hl.place p) (Expr.alike_refl hl condition) (Statement.alike_refl hl thenBranch)
      (.some (Statement.alike_refl hl elseBranch))
  | .whileLoop p condition body =>
    .whileLoop (hl.place p) (Expr.alike_refl hl condition) (Statement.alike_refl hl body)
  | .block p statements => .block (hl.place p) (Statement.allAlike_refl hl statements)
  | .returns p value => .returns (hl.place p) (Expr.optionAlike_refl hl value)
  | .breaks p => .breaks (hl.place p)
  | .continues p => .continues (hl.place p)

/-- Statements are like themselves, one by one. -/
theorem Statement.allAlike_refl (hl : l.Reflexive) :
    ∀ ss : List Statement, List.Forall₂ (Statement.Alike l) ss ss
  | [] => .nil
  | s :: ss => .cons (Statement.alike_refl hl s) (Statement.allAlike_refl hl ss)

end

/-- A signature is like itself. -/
theorem Signature.alike_refl (hl : l.Reflexive) (s : Signature) : s.Alike l s :=
  ⟨hl.name s.name, List.forall₂_same.mpr fun a _ => hl.name a, rfl⟩

/-- A function is like itself. -/
theorem FunctionDef.alike_refl (hl : l.Reflexive) (f : FunctionDef) : f.Alike l f :=
  ⟨hl.place f.position, Signature.alike_refl hl f.signature, hl.place f.bodyPosition,
    Statement.allAlike_refl hl f.body⟩

/-- **Code is alike to itself** if names and places correspond to themselves. -/
theorem Script.alike_refl (hl : l.Reflexive) (script : Script) : script.Alike l script :=
  ⟨rfl, Statement.allAlike_refl hl script.statements,
    List.forall₂_same.mpr fun f _ => FunctionDef.alike_refl hl f⟩

end Reflexive

end Scriptlet
