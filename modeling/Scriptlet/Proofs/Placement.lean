import Scriptlet.Proofs.Jumps
import Scriptlet.Proofs.ParserSoundness

/-!
# Places in a tree

Every place that a tree names is the place of one of the tokens that it was read
from.  This is read off the grammar, whose rules say which token a place is taken
from.
-/

namespace Scriptlet

/-! ## Trees with all places in a set -/

mutual

/-- All places in the expression are in the set. -/
def Expr.Placed (place : Position → Prop) : Expr → Prop
  | .literal p _ => place p
  | .var p _ => place p
  | .element p _ index => place p ∧ index.Placed place
  | .unary p _ operand => place p ∧ operand.Placed place
  | .binary p _ o left right => place p ∧ place o ∧ left.Placed place ∧ right.Placed place
  | .assign p t _ value => place p ∧ place t ∧ value.Placed place
  | .assignElement p t _ index value =>
    place p ∧ place t ∧ index.Placed place ∧ value.Placed place
  | .conditional p condition thenBranch elseBranch =>
    place p ∧ condition.Placed place ∧ thenBranch.Placed place ∧ elseBranch.Placed place
  | .list p elements => place p ∧ Expr.AllPlaced place elements
  | .call p _ arguments => place p ∧ Expr.AllPlaced place arguments

/-- All places in the expressions are in the set. -/
def Expr.AllPlaced (place : Position → Prop) : List Expr → Prop
  | [] => True
  | e :: es => e.Placed place ∧ Expr.AllPlaced place es

end

/-- All places in the lvalue are in the set. -/
def LValue.Placed (place : Position → Prop) : LValue → Prop
  | .var p _ => place p
  | .element p _ index => place p ∧ index.Placed place

mutual

/-- All places in the statement are in the set. -/
def Statement.Placed (place : Position → Prop) : Statement → Prop
  | .declare p _ none => place p
  | .declare p _ (some value) => place p ∧ value.Placed place
  | .evaluate p value => place p ∧ value.Placed place
  | .forLoop p _ start condition step body =>
    place p ∧ start.Placed place ∧ condition.Placed place ∧ step.Placed place ∧ body.Placed place
  | .forEach p _ collection body => place p ∧ collection.Placed place ∧ body.Placed place
  | .ifElse p condition thenBranch none =>
    place p ∧ condition.Placed place ∧ thenBranch.Placed place
  | .ifElse p condition thenBranch (some elseBranch) =>
    place p ∧ condition.Placed place ∧ thenBranch.Placed place ∧ elseBranch.Placed place
  | .whileLoop p condition body => place p ∧ condition.Placed place ∧ body.Placed place
  | .block p statements => place p ∧ Statement.AllPlaced place statements
  | .returns p none => place p
  | .returns p (some value) => place p ∧ value.Placed place
  | .breaks p => place p
  | .continues p => place p

/-- All places in the statements are in the set. -/
def Statement.AllPlaced (place : Position → Prop) : List Statement → Prop
  | [] => True
  | s :: ss => s.Placed place ∧ Statement.AllPlaced place ss

end

/-- All places in the function are in the set. -/
structure FunctionDef.Placed (place : Position → Prop) (f : FunctionDef) : Prop where
  position : place f.position
  body : (Statement.block f.bodyPosition f.body).Placed place

/-- All places in the script are in the set. -/
structure Script.Placed (place : Position → Prop) (script : Script) : Prop where
  statements : Statement.AllPlaced place script.statements
  functions : ∀ f ∈ script.functions, f.Placed place

variable {place : Position → Prop}

namespace LValue.Placed

variable {target : LValue}

/-- Reading a place to assign to adds no place. -/
theorem read (h : target.Placed place) : target.read.Placed place := by
  cases target <;> exact h

/-- Assigning to an lvalue at its own place adds no other place than those of the value. -/
theorem assign (h : target.Placed place) {value : Expr} (hvalue : value.Placed place) :
    (target.assign target.position value).Placed place := by
  cases target with
  | var p name => exact ⟨h, h, hvalue⟩
  | element p name index => exact ⟨h.1, h.1, h.2, hvalue⟩

end LValue.Placed

/-- The place that an expression keeps is one of its places. -/
theorem Expr.Placed.position {e : Expr} (h : e.Placed place) : place e.position := by
  cases e with
  | literal _ _ | var _ _ => exact h
  | _ => exact h.1

/-- Evaluating an expression as a statement adds no other place. -/
theorem Expr.Placed.ofExpr {e : Expr} (h : e.Placed place) : (Statement.ofExpr e).Placed place :=
  ⟨h.position, h⟩

/-- Each of the statements has its places in the set. -/
theorem Statement.AllPlaced.of_mem {ss : List Statement} (h : Statement.AllPlaced place ss)
    {s : Statement} (hs : s ∈ ss) : s.Placed place := by
  induction hs with
  | head => exact h.1
  | tail _ _ ih => exact ih h.2

/-- The place of a stray jump is one of the places. -/
theorem Statement.Stray.placed {jump : Jump} {p : Position} {s : Statement} (h : s.Stray jump p)
    (hs : s.Placed place) : place p := by
  induction h with
  | here => cases jump <;> exact hs
  | inBlock hmem _ ih => exact ih (hs.2.of_mem hmem)
  | @inThen q condition thenBranch elseBranch _ ih =>
      cases elseBranch with
      | none => exact ih hs.2.2
      | some s => exact ih hs.2.2.1
  | inElse _ ih => exact ih hs.2.2.2

/-- A stray jump among statements has its place in the set. -/
theorem Statement.StrayAmong.placed {jump : Jump} {p : Position} {ss : List Statement}
    (h : Statement.StrayAmong jump p ss) (hss : Statement.AllPlaced place ss) : place p := by
  obtain ⟨s, hs, hstray⟩ := h
  exact hstray.placed (hss.of_mem hs)

/-! ## Any tree -/

mutual

/-- In the set of all places every expression has its places. -/
theorem Expr.placed_of_forall (h : ∀ p, place p) : ∀ e : Expr, e.Placed place
  | .literal p _ => h p
  | .var p _ => h p
  | .element p _ index => ⟨h p, placed_of_forall h index⟩
  | .unary p _ operand => ⟨h p, placed_of_forall h operand⟩
  | .binary p _ o left right =>
    ⟨h p, h o, placed_of_forall h left, placed_of_forall h right⟩
  | .assign p t _ value => ⟨h p, h t, placed_of_forall h value⟩
  | .assignElement p t _ index value =>
    ⟨h p, h t, placed_of_forall h index, placed_of_forall h value⟩
  | .conditional p condition thenBranch elseBranch =>
    ⟨h p, placed_of_forall h condition, placed_of_forall h thenBranch,
      placed_of_forall h elseBranch⟩
  | .list p elements => ⟨h p, allPlaced_of_forall h elements⟩
  | .call p _ arguments => ⟨h p, allPlaced_of_forall h arguments⟩

theorem Expr.allPlaced_of_forall (h : ∀ p, place p) : ∀ es, Expr.AllPlaced place es
  | [] => trivial
  | e :: es => ⟨placed_of_forall h e, allPlaced_of_forall h es⟩

end

mutual

theorem Statement.placed_of_forall (h : ∀ p, place p) : ∀ s : Statement, s.Placed place
  | .declare p _ none => h p
  | .declare p _ (some value) => ⟨h p, value.placed_of_forall h⟩
  | .evaluate p value => ⟨h p, value.placed_of_forall h⟩
  | .forLoop p _ start condition step body =>
    ⟨h p, start.placed_of_forall h, condition.placed_of_forall h, step.placed_of_forall h,
      placed_of_forall h body⟩
  | .forEach p _ collection body =>
    ⟨h p, collection.placed_of_forall h, placed_of_forall h body⟩
  | .ifElse p condition thenBranch none =>
    ⟨h p, condition.placed_of_forall h, placed_of_forall h thenBranch⟩
  | .ifElse p condition thenBranch (some elseBranch) =>
    ⟨h p, condition.placed_of_forall h, placed_of_forall h thenBranch,
      placed_of_forall h elseBranch⟩
  | .whileLoop p condition body =>
    ⟨h p, condition.placed_of_forall h, placed_of_forall h body⟩
  | .block p statements => ⟨h p, allPlaced_of_forall h statements⟩
  | .returns p none => h p
  | .returns p (some value) => ⟨h p, value.placed_of_forall h⟩
  | .breaks p => h p
  | .continues p => h p

theorem Statement.allPlaced_of_forall (h : ∀ p, place p) : ∀ ss, Statement.AllPlaced place ss
  | [] => trivial
  | s :: ss => ⟨placed_of_forall h s, allPlaced_of_forall h ss⟩

end

/-- Every tree has all its places in the set of all places. -/
theorem Script.placed_of_forall (h : ∀ p, place p) (script : Script) : script.Placed place where
  statements := Statement.allPlaced_of_forall h script.statements
  functions f _ := ⟨h f.position, h f.bodyPosition, Statement.allPlaced_of_forall h f.body⟩

/-! ## Trees that are read from tokens -/

/-- All places in the tree of the phrase are in the set. -/
def Phrase.Placed (place : Position → Prop) : Phrase → Prop
  | .expression e => e.Placed place
  | .conditional e => e.Placed place
  | .binary _ e => e.Placed place
  | .unary e => e.Placed place
  | .primary e => e.Placed place
  | .lvalue target => target.Placed place
  | .call e => e.Placed place
  | .elements es => Expr.AllPlaced place es
  | .elements1 es => Expr.AllPlaced place es

/-- The places of an expression are those of its tokens. -/
theorem Phrase.Derives.placed {phrase : Phrase} {ts : List Token} (h : phrase.Derives ts)
    (hts : ∀ t ∈ ts, place t.position) : phrase.Placed place := by
  induction h with
  | assignment _ _ ihtarget ihvalue =>
      simp only [List.forall_mem_append, List.forall_mem_cons] at hts
      exact LValue.Placed.assign (ihtarget hts.1) (ihvalue hts.2.2)
  | choice _ _ _ ihcondition ihthen ihelse =>
      simp only [List.forall_mem_append, List.forall_mem_cons] at hts
      have hcondition := ihcondition hts.1
      exact ⟨hcondition.position, hcondition, ihthen hts.2.2.1, ihelse hts.2.2.2.2⟩
  | operation _ _ _ ihleft ihright =>
      simp only [List.forall_mem_append, List.forall_mem_cons] at hts
      have hleft := ihleft hts.1
      exact ⟨hleft.position, hts.2.1, hleft, ihright hts.2.2⟩
  | operator _ ih =>
      rw [List.forall_mem_cons] at hts
      exact ⟨hts.1, ih hts.2⟩
  | ofLValue _ ih => exact LValue.Placed.read (ih hts)
  | literal _ | named _ => exact hts _ List.mem_cons_self
  | list _ ih =>
      simp only [List.forall_mem_append, List.forall_mem_cons] at hts
      exact ⟨hts.1, ih hts.2.1⟩
  | parentheses _ ih =>
      simp only [List.forall_mem_append, List.forall_mem_cons] at hts
      exact ih hts.2.1
  | element _ _ ih =>
      simp only [List.forall_mem_append, List.forall_mem_cons] at hts
      exact ⟨hts.1, ih hts.2.2.1⟩
  | call _ ih =>
      simp only [List.forall_mem_append, List.forall_mem_cons] at hts
      exact ⟨hts.1, ih hts.2.2.1⟩
  | noElements => trivial
  | lastElement _ ih => exact ⟨ih hts, trivial⟩
  | moreElements _ _ ih ihmore =>
      simp only [List.forall_mem_append, List.forall_mem_cons] at hts
      exact ⟨ih hts.1, ihmore hts.2.2⟩
  | ofConditional _ ih | ofBinary _ ih | ofTighter _ ih | ofUnary _ ih | ofPrimary _ ih
  | ofCall _ ih | ofElements1 _ ih => exact ih hts

/-- All places in the statements of the passage are in the set. -/
def Passage.Placed (place : Position → Prop) : Passage → Prop
  | .statement s => s.Placed place
  | .statements ss => Statement.AllPlaced place ss

/-- The places of a statement are those of its tokens. -/
theorem Passage.Derives.placed {passage : Passage} {ts : List Token} (h : passage.Derives ts)
    (hts : ∀ t ∈ ts, place t.position) : passage.Placed place := by
  induction h with
  | declaration | returnNothing | breaks | continues => exact hts _ List.mem_cons_self
  | initialization hvalue =>
      simp only [List.forall_mem_append, List.forall_mem_cons] at hts
      exact ⟨hts.1, hvalue.placed hts.2.2.2.1⟩
  | assignment htarget hvalue =>
      simp only [List.forall_mem_append, List.forall_mem_cons] at hts
      have htarget' : LValue.Placed place _ := htarget.placed hts.1
      exact (htarget'.assign (hvalue.placed hts.2.2.1)).ofExpr
  | call h =>
      rw [List.forall_mem_append] at hts
      exact Expr.Placed.ofExpr (h.placed hts.1)
  | forLoop _ hstart hcondition hstep _ ih =>
      simp only [List.forall_mem_append, List.forall_mem_cons] at hts
      obtain ⟨hp, -, -, hts, -, hts', -, hts'', -, hus⟩ := hts
      exact ⟨hp, hstart.placed hts, hcondition.placed hts', hstep.placed hts'', ih hus⟩
  | forEach _ hcollection _ ih =>
      simp only [List.forall_mem_append, List.forall_mem_cons] at hts
      obtain ⟨hp, -, -, -, -, hts, -, hus⟩ := hts
      exact ⟨hp, hcollection.placed hts, ih hus⟩
  | ifOnly hcondition _ ih =>
      simp only [List.forall_mem_append, List.forall_mem_cons] at hts
      obtain ⟨hp, -, hts, -, hus⟩ := hts
      exact ⟨hp, hcondition.placed hts, ih hus⟩
  | ifElse hcondition _ _ _ ih ih' =>
      simp only [List.forall_mem_append, List.forall_mem_cons] at hts
      obtain ⟨hp, -, hts, -, hus, -, hus'⟩ := hts
      exact ⟨hp, hcondition.placed hts, ih hus, ih' hus'⟩
  | whileLoop hcondition _ ih =>
      simp only [List.forall_mem_append, List.forall_mem_cons] at hts
      obtain ⟨hp, -, hts, -, hus⟩ := hts
      exact ⟨hp, hcondition.placed hts, ih hus⟩
  | block _ ih =>
      simp only [List.forall_mem_append, List.forall_mem_cons] at hts
      exact ⟨hts.1, ih hts.2.1⟩
  | returnValue hvalue =>
      simp only [List.forall_mem_append, List.forall_mem_cons] at hts
      exact ⟨hts.1, hvalue.placed hts.2.1⟩
  | noStatements => trivial
  | moreStatements _ _ ih ihmore =>
      rw [List.forall_mem_append] at hts
      exact ⟨ih hts.1, ihmore hts.2⟩

/-- A function has its places among those of its tokens. -/
theorem FunctionDef.Derives.placed {f : FunctionDef} {ts : List Token} (h : f.Derives ts)
    (hts : ∀ t ∈ ts, place t.position) : f.Placed place := by
  obtain ⟨-, hbody⟩ := h
  simp only [List.forall_mem_append, List.forall_mem_cons] at hts
  exact ⟨hts.1, hbody.placed hts.2.2.2.2.2⟩

/-- The statements and functions of a script have their places among those of its tokens. -/
theorem Items.placed {ss : List Statement} {fs : List FunctionDef} {ts : List Token}
    (h : Items ss fs ts) (hts : ∀ t ∈ ts, place t.position) :
    Statement.AllPlaced place ss ∧ ∀ f ∈ fs, f.Placed place := by
  induction h with
  | nil => exact ⟨trivial, by simp⟩
  | statement h _ ih =>
      rw [List.forall_mem_append] at hts
      obtain ⟨hss, hfs⟩ := ih hts.2
      exact ⟨⟨h.placed hts.1, hss⟩, hfs⟩
  | function h _ ih =>
      rw [List.forall_mem_append] at hts
      obtain ⟨hss, hfs⟩ := ih hts.2
      exact ⟨hss, List.forall_mem_cons.mpr ⟨h.placed hts.1, hfs⟩⟩

/-- **The places of a script are those of its tokens.** -/
theorem Script.placed_of_ofTokens {name : String} {tokens : List Token} {script : Script}
    (h : Script.ofTokens name tokens = .ok script) (htokens : ∀ t ∈ tokens, place t.position) :
    script.Placed place := by
  unfold ofTokens at h
  split at h
  next statements functions hparse =>
    cases h
    obtain ⟨rest, hitems⟩ := Parser.parse_eq_ok hparse
    obtain ⟨hstatements, hfunctions⟩ := (Parser.items_done hitems).1.placed htokens
    exact ⟨hstatements, hfunctions⟩
  next => cases h

end Scriptlet
