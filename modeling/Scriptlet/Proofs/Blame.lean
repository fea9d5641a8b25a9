import Scriptlet.Proofs.LikeRuns
import Scriptlet.Proofs.Placement
import Scriptlet.Proofs.TokenPlaces

/-!
# Where a run fails

A fault has the place of the code that ran into it.  The code is that of the script
or of one of its functions, since a call reaches nothing else but built-in functions,
and these fail at the place of their call.  There is one step without a place, the
declaration of the built-in functions, and it never fails.

What code can be blamed for is an `Origin`: a set of places, and for each kind of
jump the places from which it may leave a function or the script.  One induction
over the evaluator shows that every fault is explained by the origin that the code
of the run has (`Eval.accountsUpTo`).  With the places of all tokens it says that a
fault is at a token.  With the stray jumps of the script it says that a jump outside
of loops is one of these, even where a function is called in a loop.
-/

namespace Scriptlet

/-- The jump that was made outside of a loop. -/
def Fault.Cause.jump? : Fault.Cause → Option Jump
  | .breakOutsideLoop => some .breaks
  | .continueOutsideLoop => some .continues
  | _ => none

/-- The fault of a jump outside of loops tells which jump it was. -/
theorem Jump.jump?_outside (jump : Jump) : jump.outside.jump? = some jump := by
  cases jump <;> rfl

/-- What code can be blamed for. -/
structure Origin where
  /-- The places of the code. -/
  place : Position → Prop
  /-- The places from which a jump may leave a function or the script. -/
  stray : Jump → Position → Prop

namespace Origin

variable (o : Origin)

/-- The place is known, and one of the code. -/
def At (position : Option Position) : Prop :=
  ∃ p, position = some p ∧ o.place p

/-- The fault is at a place of the code; a jump outside of loops is a stray one. -/
structure Explains (fault : Fault) : Prop where
  position : o.At fault.position
  jump : ∀ jump ∈ fault.cause.jump?, ∀ p ∈ fault.position, o.stray jump p

/-- The code of the function belongs to the origin. -/
def Has : Callable → Prop
  | .script f =>
    f.Placed o.place ∧ ∀ jump p, Statement.StrayAmong jump p f.body → o.stray jump p
  | .builtin _ => True
  | .host _ => False

/-- The code of all functions in sight belongs to the origin. -/
def Covers (m : Machine) : Prop :=
  ∀ f, m.Knows f → o.Has f

/-- The ending of a run: a fault is explained, and after a value the machine still knows no
other code. -/
def Accounts {α : Type} : Outcome Fault α × Machine → Prop
  | (.done _, m) => o.Covers m
  | (.failed fault, _) => o.Explains fault
  | (.outOfFuel, _) => True

end Origin

/-! ## Steps -/

namespace Step

variable {α : Type} {P : Option Position → Prop} {m m' : Machine} {fault : Fault}

/-- If the step can fail, the place that it was given satisfies `P`. -/
def PlaceIn (P : Option Position → Prop) : Step α → Prop
  | .declareVariable _ _ _ position => P position
  | .declareFunction _ _ position => P position
  | .readVariable _ _ position => P position
  | .assignVariable _ _ _ position => P position
  | .fillVariable _ _ _ position => P position
  | .findFunction _ _ position => P position
  | .extraArguments _ position => P position
  | .newList _ => True
  | .listItems _ position => P position
  | .readElement _ _ position => P position
  | .writeElement _ _ _ position => P position
  | .appendItem _ _ position => P position
  | .clearList _ position => P position
  | .render _ => True
  | .printLine _ => True
  | .applyBinary _ _ _ position => P position

/-- A fault at a place that satisfies `P`, which is not about a jump. -/
def Blamed (P : Option Position → Prop) : Outcome Fault α × Machine → Prop
  | (.failed fault, _) => P fault.position ∧ fault.cause.jump? = none
  | _ => True

/-- A scope that is not there is blamed on the place of the step. -/
theorem inArena_blamed {position : Option Position} (hP : P position) (scope : ScopeId)
    {body : Run Machine Fault α} (h : Blamed P (body m)) :
    Blamed P (inArena scope position body m) := by
  unfold inArena
  split
  · exact h
  · exact ⟨hP, rfl⟩

/-- A list that is not there is blamed on the place of the step. -/
theorem onList_blamed {position : Option Position} (hP : P position) (id : ListId)
    {body : List Value → Run Machine Fault α} (h : Blamed P (body (m.heap.contents id) m)) :
    Blamed P (onList id position body m) := by
  unfold onList
  split
  · exact h
  · exact ⟨hP, rfl⟩

/-- **A step that fails does so at its own place.** -/
theorem perform_blamed (s : Step α) (hs : s.PlaceIn P) (m : Machine) :
    Blamed P (s.perform m) := by
  cases s with
  | declareVariable | declareFunction | assignVariable | fillVariable | findFunction =>
      apply inArena_blamed hs
      split
      · trivial
      · exact ⟨hs, rfl⟩
  | readVariable =>
      apply inArena_blamed hs
      split
      · trivial
      · exact ⟨hs, rfl⟩
      · exact ⟨hs, rfl⟩
  | extraArguments =>
      apply inArena_blamed hs
      split <;> trivial
  | listItems id position => exact onList_blamed hs id trivial
  | readElement id i position =>
      rw [perform]
      apply onList_blamed hs
      cases (m.heap.contents id)[i]? with
      | some v => trivial
      | none => exact ⟨hs, rfl⟩
  | writeElement id i v position =>
      rw [perform]
      apply onList_blamed hs
      split
      · trivial
      · exact ⟨hs, rfl⟩
  | appendItem | clearList =>
      rw [perform]
      exact onList_blamed hs _ trivial
  | newList | render | printLine => trivial
  | applyBinary =>
      simp only [perform]
      split
      · trivial
      · exact ⟨hs, rfl⟩

end Step

/-! ## Computations -/

namespace Origin.Covers

variable {o : Origin} {m m' : Machine}

/-- A new scope brings no code. -/
theorem pushScope (h : o.Covers m) (parent : ScopeId) : o.Covers (m.pushScope parent) :=
  fun f hf => h f (Machine.knows_of_pushScope hf)

/-- Taking scopes away brings no code. -/
theorem keepScopes (h : o.Covers m) (count : Nat) : o.Covers (m.keepScopes count) :=
  fun f hf => h f (Machine.knows_of_keepScopes hf)

end Origin.Covers

namespace Eval

variable {α β : Type} {o : Origin}

/-- On a machine that knows only code of the origin every fault is explained. -/
def Accounted (o : Origin) (x : Eval α) : Prop :=
  ∀ m, o.Covers m → o.Accounts (x.run m)

theorem accounted_pure (a : α) : (pure a : Eval α).Accounted o := fun _ hm => hm

theorem accounted_starve : (starve : Eval α).Accounted o := fun _ _ => trivial

/-- A fault that is not about a jump, at a place of the code. -/
theorem accounted_fault {cause : Fault.Cause} {position : Option Position} (hp : o.At position)
    (hcause : cause.jump? = none := by rfl) : (fault cause position : Eval α).Accounted o := by
  intro m _
  refine ⟨hp, fun jump hjump => ?_⟩
  rw [hcause] at hjump
  cases hjump

/-- A sequence goes on only with what its first part gives. -/
theorem Accounted.bind_of_run {x : Eval α} {f : α → Eval β} (hx : x.Accounted o)
    (hf : ∀ m a m', o.Covers m → x.run m = (.done a, m') → (f a).Accounted o) :
    (x >>= f).Accounted o := by
  intro m hm
  have hfirst := hx m hm
  show o.Accounts (Run.bind x.run (fun a => (f a).run) m)
  unfold Run.bind
  rcases hrun : x.run m with ⟨a | fault | _, m'⟩ <;> rw [hrun] at hfirst
  · exact hf m a m' hm hrun m' hfirst
  · exact hfirst
  · trivial

/-- A sequence is accounted for if its parts are: after a value no other code is known. -/
theorem Accounted.bind {x : Eval α} {f : α → Eval β} (hx : x.Accounted o)
    (hf : ∀ a, (f a).Accounted o) : (x >>= f).Accounted o :=
  hx.bind_of_run fun _ a _ _ _ => hf a

/-- A step at a place of the code, which declares no other code. -/
theorem accounted_step {s : Step α} (hs : s.PlaceIn o.At)
    (hbrings : ∀ f, s.Brings f → o.Has f := by intro f hf; cases hf) :
    (Eval.step s).Accounted o := by
  intro m hm
  have hchange := s.perform_change m
  have hblamed := s.perform_blamed hs m
  show o.Accounts (s.perform m)
  rcases hrun : s.perform m with ⟨a | fault | _, m'⟩ <;> rw [hrun] at hchange hblamed
  · intro f hf
    rcases hchange.knows hf with hknown | hbrought
    · exact hm f hknown
    · exact hbrings f hbrought
  · refine ⟨hblamed.1, fun jump hjump => ?_⟩
    rw [hblamed.2] at hjump
    cases hjump
  · trivial

/-- What runs in a new scope is accounted for if it is in every scope. -/
theorem accounted_inScope {parent : ScopeId} {body : ScopeId → Eval α}
    (h : ∀ scope, (body scope).Accounted o) : (inScope parent body).Accounted o := by
  intro m hm
  have hbody := h m.scopes.size (m.pushScope parent) (hm.pushScope parent)
  simp only [run]
  rcases hrun : (body m.scopes.size).run (m.pushScope parent) with ⟨a | fault | _, m'⟩ <;>
    rw [hrun] at hbody
  · exact Origin.Covers.keepScopes hbody _
  · exact hbody
  · trivial

/-- A call is accounted for if its body and its place are, since too many calls are a fault
there. -/
theorem accounted_asCall {position : Option Position} (hp : o.At position) {body : Eval α}
    (h : body.Accounted o) : (asCall position body).Accounted o := by
  intro m hm
  have hfault : ∀ cause : Fault.Cause, cause.jump? = none → o.Explains ⟨cause, position⟩ := by
    intro cause hcause
    exact accounted_fault (α := α) hp hcause m hm
  have hbody := h m.enterCall hm
  simp only [run]
  split
  · rcases hrun : body.run m.enterCall with ⟨outcome, m'⟩
    rw [hrun] at hbody
    dsimp only
    split
    · exact hfault _ rfl
    · cases outcome with
      | done a => exact hbody
      | failed fault => exact hbody
      | outOfFuel => trivial
  · exact hfault _ rfl

/-! ## What needs no fuel -/

variable {position : Option Position}

/-- A missing result is a fault at the place that is given. -/
theorem accounted_ofOption {cause : Fault.Cause} (hp : o.At position) (a? : Option α)
    (hcause : cause.jump? = none := by rfl) :
    (ofOption ⟨cause, position⟩ a?).Accounted o := by
  cases a? with
  | some a => exact accounted_pure a
  | none => exact accounted_fault hp hcause

/-- A unary operator that fails is a fault at the place that is given. -/
theorem accounted_applyUnary (op : UnaryOp) (v : Value) (hp : o.At position) :
    (applyUnary op v position).Accounted o := by
  unfold applyUnary
  split
  · exact accounted_pure _
  · exact accounted_fault hp

/-- What is no truth value is a fault at the place that is given. -/
theorem accounted_expectBool (v : Value) {cause : Fault.Cause} (hp : o.At position)
    (hcause : cause.jump? = none := by rfl) : (expectBool v cause position).Accounted o := by
  cases v with
  | bool b => exact accounted_pure b
  | _ => exact accounted_fault hp hcause

/-- What is no list is a fault at the place that is given. -/
theorem accounted_expectList (v : Value) {cause : Fault.Cause} (hp : o.At position)
    (hcause : cause.jump? = none := by rfl) : (expectList v cause position).Accounted o := by
  cases v with
  | list id => exact accounted_pure id
  | _ => exact accounted_fault hp hcause

/-- The end of a function or a script, where a jump becomes a fault. -/
theorem accounted_result {flow : Flow} (hplace : flow.Jumps fun _ p => o.place p)
    (hstray : flow.Jumps o.stray) : flow.result.Accounted o := by
  have hjump : ∀ (jump : Jump) (p : Position), flow = jump.flow p →
      o.Explains ⟨jump.outside, some p⟩ := by
    intro jump p heq
    refine ⟨⟨p, rfl, hplace jump p heq⟩, fun jump' hjump' q hq => ?_⟩
    rw [Jump.jump?_outside] at hjump'
    cases hjump'
    cases hq
    exact hstray jump p heq
  cases flow with
  | normal => exact accounted_pure none
  | returned value p => exact accounted_pure value
  | broke p => exact fun _ _ => hjump .breaks p rfl
  | continued p => exact fun _ _ => hjump .continues p rfl

/-- A parameter that cannot be bound is a fault at the place of the call. -/
theorem accounted_bindParams (activation : ScopeId) (hp : o.At position) (params : List String)
    (values : List Value) : (bindParams activation position params values).Accounted o := by
  induction params generalizing values with
  | nil => exact accounted_pure ()
  | cons param params ih =>
      cases values with
      | nil => exact accounted_fault hp
      | cons value values => exact Accounted.bind (accounted_step hp) fun _ => ih values

/-- Arguments that cannot be bound are a fault at the place of the call. -/
theorem accounted_bindArguments (s : Signature) (values : List Value) (activation : ScopeId)
    (hp : o.At position) : (bindArguments s values activation position).Accounted o := by
  refine (accounted_bindParams activation hp s.params values).bind fun _ => ?_
  split
  · refine Accounted.bind (accounted_step trivial) fun extra => ?_
    exact accounted_step hp
  · exact accounted_pure ()

/-- Functions that cannot be declared are faults at their own places, and bring their own
code only. -/
theorem accounted_declareFunctions (scope : ScopeId) {fs : List FunctionDef}
    (h : ∀ f ∈ fs, o.Has (.script f)) : (declareFunctions scope fs).Accounted o := by
  induction fs with
  | nil => exact accounted_pure ()
  | cons f fs ih =>
      obtain ⟨hhead, htail⟩ := List.forall_mem_cons.mp h
      have hplace : o.At (some f.position) := ⟨f.position, rfl, hhead.1.position⟩
      refine Accounted.bind (accounted_step hplace ?_) fun _ => ih htail
      rintro g rfl
      exact hhead

/-- A built-in function that fails is a fault at the place of the call. -/
theorem accounted_builtinApply (f : Builtin) (v : Value) (hp : o.At position) :
    (f.apply v position).Accounted o := by
  cases f with
  | toText =>
      cases v with
      | str text => exact accounted_pure _
      | _ => exact Accounted.bind (accounted_step trivial) fun _ => accounted_pure _
  | toInt =>
      cases v with
      | int n => exact accounted_pure _
      | double x => exact (accounted_ofOption hp _).bind fun _ => accounted_pure _
      | bool b => exact accounted_pure _
      | _ => exact accounted_fault hp
  | countOf =>
      refine (accounted_expectList v hp).bind fun id => ?_
      refine Accounted.bind (accounted_step hp) fun items => ?_
      exact (accounted_ofOption hp _).bind fun _ => accounted_pure _

/-- A function that is found belongs to the origin. -/
theorem has_of_findFunction {scope : ScopeId} {name : String} {m m' : Machine} {f : Callable}
    (hm : o.Covers m) (h : (findFunction scope name position).run m = (.done f, m')) :
    o.Has f := by
  replace h : (Step.findFunction scope name position).perform m = (.done f, m') := h
  simp only [Step.perform, Step.inArena] at h
  split at h
  · split at h
    next g hfound =>
      cases h
      exact hm _ (Machine.knows_of_findFunction? hfound)
    next => cases h
  · cases h

/-- After a round a loop ends or goes on. -/
theorem accounted_afterRound (flow : Flow) {next : Eval Flow} (h : next.Accounted o) :
    (match flow.afterRound with
      | some ending => pure ending
      | none => next : Eval Flow).Accounted o := by
  split
  · exact accounted_pure _
  · exact h

/-! ## The evaluator -/

/-- With `n` units of fuel every fault of code that belongs to the origin is explained. -/
structure AccountsUpTo (o : Origin) (n : Nat) : Prop where
  eval : ∀ scope {e}, e.Placed o.place → (eval n scope e).Accounted o
  evalAll : ∀ scope {es}, Expr.AllPlaced o.place es → (evalAll n scope es).Accounted o
  binary : ∀ scope op {p left right}, o.place p → left.Placed o.place → right.Placed o.place →
    (binary n scope op p left right).Accounted o
  holds : ∀ scope {condition}, condition.Placed o.place → (holds n scope condition).Accounted o
  element : ∀ scope {p} name {index}, o.place p → index.Placed o.place →
    (element n scope p name index).Accounted o
  call : ∀ scope name {arguments position}, Expr.AllPlaced o.place arguments → o.At position →
    (call n scope name arguments position).Accounted o
  invoke : ∀ {f} activation {position}, o.Has f → o.At position →
    (invoke n f activation position).Accounted o
  exec : ∀ scope {s}, s.Placed o.place → (exec n scope s).Accounted o
  execAll : ∀ scope {ss}, Statement.AllPlaced o.place ss → (execAll n scope ss).Accounted o
  whileRounds : ∀ scope {condition body}, condition.Placed o.place → body.Placed o.place →
    (whileRounds n scope condition body).Accounted o
  forRounds : ∀ scope {condition step body}, condition.Placed o.place → step.Placed o.place →
    body.Placed o.place → (forRounds n scope condition step body).Accounted o
  forEachRounds : ∀ scope {p} item id index {body}, o.place p → body.Placed o.place →
    (forEachRounds n scope p item id index body).Accounted o

namespace AccountsUpTo

variable {n : Nat} (ih : AccountsUpTo o n)

include ih

/-- A fault of an expression is at its own place or at that of a part. -/
theorem eval_succ (scope : ScopeId) {e : Expr} (he : e.Placed o.place) :
    (Eval.eval (n + 1) scope e).Accounted o := by
  cases e with
  | literal p value => exact accounted_pure _
  | var p name => exact accounted_step ⟨p, rfl, he⟩
  | element p name index =>
      refine (ih.element scope name he.1 he.2).bind fun place => ?_
      exact accounted_step ⟨p, rfl, he.1⟩
  | unary p op operand =>
      refine (ih.eval scope he.2).bind fun v => ?_
      exact accounted_applyUnary op v ⟨p, rfl, he.1⟩
  | binary _ op p left right => exact ih.binary scope op he.2.1 he.2.2.1 he.2.2.2
  | assign _ p name value =>
      refine (ih.eval scope he.2.2).bind fun v => ?_
      exact Accounted.bind (accounted_step ⟨p, rfl, he.2.1⟩) fun _ => accounted_pure v
  | assignElement _ p name index value =>
      refine (ih.eval scope he.2.2.2).bind fun v => ?_
      refine (ih.element scope name he.2.1 he.2.2.1).bind fun place => ?_
      exact Accounted.bind (accounted_step ⟨p, rfl, he.2.1⟩) fun _ => accounted_pure v
  | conditional _ condition thenBranch elseBranch =>
      refine (ih.holds scope he.2.1).bind fun truth => ?_
      cases truth with
      | true => exact ih.eval scope he.2.2.1
      | false => exact ih.eval scope he.2.2.2
  | list p elements =>
      exact (ih.evalAll scope he.2).bind fun values => accounted_step trivial
  | call p name arguments =>
      have hp : o.At (some p) := ⟨p, rfl, he.1⟩
      refine (ih.call scope name he.2 hp).bind fun result => ?_
      cases result with
      | some v => exact accounted_pure v
      | none => exact accounted_fault hp

/-- A fault of several expressions is one of them. -/
theorem evalAll_succ (scope : ScopeId) {es : List Expr} (hes : Expr.AllPlaced o.place es) :
    (Eval.evalAll (n + 1) scope es).Accounted o := by
  cases es with
  | nil => exact accounted_pure []
  | cons e es =>
      refine (ih.eval scope hes.1).bind fun v => ?_
      exact (ih.evalAll scope hes.2).bind fun vs => accounted_pure _

/-- A fault of an operation is at its sign, or in an operand. -/
theorem binary_succ (scope : ScopeId) (op : BinaryOp) {p : Position} {left right : Expr}
    (hp : o.place p) (hleft : left.Placed o.place) (hright : right.Placed o.place) :
    (Eval.binary (n + 1) scope op p left right).Accounted o := by
  have hat : o.At (some p) := ⟨p, rfl, hp⟩
  refine (ih.eval scope hleft).bind fun a => ?_
  split
  · exact (ih.eval scope hright).bind fun b => accounted_step hat
  · refine (accounted_expectBool a hat).bind fun truth => ?_
    split
    · exact accounted_pure _
    · refine (ih.eval scope hright).bind fun b => ?_
      exact (accounted_expectBool b hat).bind fun _ => accounted_pure _

/-- A condition that is no truth value is a fault at the place where it begins. -/
theorem holds_succ (scope : ScopeId) {condition : Expr} (h : condition.Placed o.place) :
    (Eval.holds (n + 1) scope condition).Accounted o :=
  (ih.eval scope h).bind fun v => accounted_expectBool v ⟨_, rfl, h.position⟩

/-- An element that is not there is a fault at its name or at its index. -/
theorem element_succ (scope : ScopeId) {p : Position} (name : String) {index : Expr}
    (hp : o.place p) (hindex : index.Placed o.place) :
    (Eval.element (n + 1) scope p name index).Accounted o := by
  have hat : o.At (some p) := ⟨p, rfl, hp⟩
  have hatIndex : o.At (some index.position) := ⟨_, rfl, hindex.position⟩
  refine Accounted.bind (accounted_step hat) fun v => ?_
  refine (accounted_expectList v hat).bind fun id => ?_
  refine (ih.eval scope hindex).bind fun i => ?_
  cases i with
  | int i =>
      refine Accounted.bind (accounted_step hat) fun items => ?_
      exact (accounted_ofOption hatIndex _).bind fun _ => accounted_pure _
  | _ => exact accounted_fault hatIndex

/-- A fault of a call is at its place, in an argument or in the function. -/
theorem call_succ (scope : ScopeId) (name : String) {arguments : List Expr}
    (harguments : Expr.AllPlaced o.place arguments) (hp : o.At position) :
    (Eval.call (n + 1) scope name arguments position).Accounted o := by
  have hfind : (findFunction scope name position).Accounted o := accounted_step hp
  refine hfind.bind_of_run fun m f m' hm hfound => ?_
  have hf : o.Has f := has_of_findFunction hm hfound
  split
  · refine (ih.evalAll scope harguments).bind fun values => ?_
    refine accounted_asCall hp (accounted_inScope fun activation => ?_)
    exact (accounted_bindArguments f.signature values activation hp).bind fun _ =>
      ih.invoke activation hf hp
  · exact accounted_fault hp

/-- What a function does is explained by its own code, or by the place of the call if it is
built in. -/
theorem invoke_succ {f : Callable} (activation : ScopeId) (hf : o.Has f) (hp : o.At position) :
    (Eval.invoke (n + 1) f activation position).Accounted o := by
  cases f with
  | builtin f =>
      refine Accounted.bind (accounted_step hp) fun v => ?_
      exact (accounted_builtinApply f v hp).bind fun _ => accounted_pure _
  | host f => exact hf.elim
  | script f =>
      obtain ⟨hplaced, hstray⟩ := hf
      refine (ih.exec activation hplaced.body).bind_of_run fun m flow m' _ hrun => ?_
      -- the jumps that leave the body are stray in it
      have hjumps := exec_yields n activation _ m flow m' hrun
      refine accounted_result (hjumps.mono fun jump p h => h.placed hplaced.body) ?_
      exact hjumps.mono fun jump p h => hstray jump p h.of_block

/-- A fault of a statement is at its own place or in a part. -/
theorem exec_succ (scope : ScopeId) {s : Statement} (hs : s.Placed o.place) :
    (Eval.exec (n + 1) scope s).Accounted o := by
  cases s with
  | declare p name value =>
      cases value with
      | none =>
          exact Accounted.bind (accounted_step ⟨p, rfl, hs⟩) fun _ => accounted_pure _
      | some e =>
          refine Accounted.bind (accounted_step ⟨p, rfl, hs.1⟩) fun _ => ?_
          refine (ih.eval scope hs.2).bind fun v => ?_
          exact Accounted.bind (accounted_step ⟨p, rfl, hs.1⟩) fun _ => accounted_pure _
  | evaluate _ e =>
      cases e with
      | call p name arguments =>
          exact (ih.call scope name hs.2.2 ⟨p, rfl, hs.2.1⟩).bind fun _ => accounted_pure _
      | _ => exact (ih.eval scope hs.2).bind fun _ => accounted_pure _
  | block p statements => exact accounted_inScope fun inner => ih.execAll inner hs.2
  | ifElse p condition thenBranch elseBranch =>
      refine accounted_inScope fun inner => ?_
      cases elseBranch with
      | none =>
          refine (ih.holds inner hs.2.1).bind fun truth => ?_
          cases truth with
          | true => exact ih.exec inner hs.2.2
          | false => exact accounted_pure _
      | some s =>
          refine (ih.holds inner hs.2.1).bind fun truth => ?_
          cases truth with
          | true => exact ih.exec inner hs.2.2.1
          | false => exact ih.exec inner hs.2.2.2
  | whileLoop p condition body =>
      exact accounted_inScope fun inner => ih.whileRounds inner hs.2.1 hs.2.2
  | forLoop p counter start condition step body =>
      obtain ⟨hp, hstart, hcondition, hstep, hbody⟩ := hs
      refine accounted_inScope fun inner => (ih.eval inner hstart).bind fun first => ?_
      have hrounds := ih.forRounds inner hcondition hstep hbody
      cases counter with
      | some name => exact Accounted.bind (accounted_step ⟨p, rfl, hp⟩) fun _ => hrounds
      | none => exact hrounds
  | forEach p item collection body =>
      obtain ⟨hp, hcollection, hbody⟩ := hs
      refine (ih.eval scope hcollection).bind fun v => ?_
      refine (accounted_expectList v ⟨_, rfl, hcollection.position⟩).bind fun id => ?_
      refine accounted_inScope fun inner => ?_
      exact Accounted.bind (accounted_step ⟨p, rfl, hp⟩) fun _ =>
        ih.forEachRounds inner item id 0 hp hbody
  | returns p value =>
      cases value with
      | none => exact accounted_pure _
      | some e => exact (ih.eval scope hs.2).bind fun v => accounted_pure _
  | breaks p => exact accounted_pure _
  | continues p => exact accounted_pure _

/-- A fault of statements in order is in one of them. -/
theorem execAll_succ (scope : ScopeId) {ss : List Statement}
    (hss : Statement.AllPlaced o.place ss) : (Eval.execAll (n + 1) scope ss).Accounted o := by
  cases ss with
  | nil => exact accounted_pure _
  | cons s rest =>
      refine (ih.exec scope hss.1).bind fun flow => ?_
      cases flow with
      | normal => exact ih.execAll scope hss.2
      | _ => exact accounted_pure _

/-- A fault of a `while` loop is in its condition or its body. -/
theorem whileRounds_succ (scope : ScopeId) {condition : Expr} {body : Statement}
    (hcondition : condition.Placed o.place) (hbody : body.Placed o.place) :
    (Eval.whileRounds (n + 1) scope condition body).Accounted o := by
  refine (ih.holds scope hcondition).bind fun truth => ?_
  cases truth with
  | true =>
      exact (ih.exec scope hbody).bind fun flow =>
        accounted_afterRound flow (ih.whileRounds scope hcondition hbody)
  | false => exact accounted_pure _

/-- A fault of a `for` loop is in its condition, its step or its body. -/
theorem forRounds_succ (scope : ScopeId) {condition step : Expr} {body : Statement}
    (hcondition : condition.Placed o.place) (hstep : step.Placed o.place)
    (hbody : body.Placed o.place) :
    (Eval.forRounds (n + 1) scope condition step body).Accounted o := by
  refine (ih.holds scope hcondition).bind fun truth => ?_
  cases truth with
  | true =>
      exact (ih.exec scope hbody).bind fun flow => accounted_afterRound flow <|
        (ih.eval scope hstep).bind fun _ => ih.forRounds scope hcondition hstep hbody
  | false => exact accounted_pure _

/-- A fault of a `foreach` loop is at its own place or in its body. -/
theorem forEachRounds_succ (scope : ScopeId) {p : Position} (item : String) (id : ListId)
    (index : Nat) {body : Statement} (hp : o.place p) (hbody : body.Placed o.place) :
    (Eval.forEachRounds (n + 1) scope p item id index body).Accounted o := by
  have hat : o.At (some p) := ⟨p, rfl, hp⟩
  refine Accounted.bind (accounted_step hat) fun items => ?_
  split
  · exact accounted_pure _
  · refine Accounted.bind (accounted_step hat) fun _ => ?_
    exact (ih.exec scope hbody).bind fun flow =>
      accounted_afterRound flow (ih.forEachRounds scope item id (index + 1) hp hbody)

end AccountsUpTo

/-- **Faults are explained by the code that runs.** -/
theorem accountsUpTo (o : Origin) (n : Nat) : AccountsUpTo o n := by
  induction n with
  | zero => constructor <;> intros <;> exact accounted_starve
  | succ n ih =>
      exact ⟨ih.eval_succ, ih.evalAll_succ, ih.binary_succ, ih.holds_succ, ih.element_succ,
        fun scope name _ _ => ih.call_succ scope name,
        fun activation _ => ih.invoke_succ activation, ih.exec_succ, ih.execAll_succ,
        ih.whileRounds_succ, ih.forRounds_succ, ih.forEachRounds_succ⟩

end Eval

/-! ## Scripts -/

/-- A function of a scope with built-in functions is one that it had, or built in. -/
theorem Scope.getFunction?_withBuiltins {s : Scope} {fs : List Builtin} {key : String}
    {f : Callable} (h : (s.withBuiltins fs).getFunction? key = some f) :
    s.getFunction? key = some f ∨ ∃ b, f = .builtin b := by
  induction fs generalizing s with
  | nil => exact .inl h
  | cons b fs ih =>
      rcases ih h with hadded | hbuiltin
      · simp only [getFunction?, addFunction, List.lookup_cons] at hadded
        split at hadded
        · exact .inr ⟨b, (Option.some.inj hadded).symm⟩
        · exact .inl hadded
      · exact .inr hbuiltin

namespace Origin

variable {o : Origin} {m : Machine}

/-- The built-in functions are no code that could be blamed. -/
theorem Covers.withBuiltins (hm : o.Covers m) (parent : Option ScopeId) (fs : List Builtin) :
    o.Covers (m.withScope ((Scope.empty parent).withBuiltins fs)) := by
  rintro f ⟨i, s, key, hs, hf⟩
  simp only [Machine.withScope, Array.getElem?_push] at hs
  split at hs
  · cases hs
    rcases Scope.getFunction?_withBuiltins hf with hempty | ⟨b, rfl⟩
    · simp [Scope.empty, Scope.getFunction?] at hempty
    · trivial
  · exact hm f ⟨i, s, key, hs, hf⟩

/-- An ending that is accounted for explains the fault with which it failed. -/
theorem Accounts.explains {α : Type} {result : Outcome Fault α × Machine}
    (h : o.Accounts result) {fault : Fault} (hfailed : result.1 = .failed fault) :
    o.Explains fault := by
  obtain ⟨outcome, m'⟩ := result
  cases hfailed
  exact h

/-- **A script is to blame for its faults.** -/
theorem explains_of_execute {script : Script} (hplaced : script.Placed o.place)
    (hstray : ∀ jump p, script.Stray jump p → o.stray jump p) (hm : o.Covers m) {fuel : Nat}
    {fault : Fault} (h : (Eval.execute fuel script m).1 = .failed fault) : o.Explains fault := by
  cases fuel with
  | zero => cases h
  | succ n =>
      have hfunctions : ∀ f ∈ script.functions, o.Has (.script f) := fun f hf =>
        ⟨hplaced.functions f hf, fun jump p hjump => hstray jump p (.inr ⟨f, hf, hjump⟩)⟩
      have hbody : (Eval.declareFunctions m.scopes.size script.functions >>= fun _ =>
          Eval.execAll n m.scopes.size script.statements >>= Flow.result).Accounted o := by
        refine (Eval.accounted_declareFunctions _ hfunctions).bind fun _ => ?_
        refine ((Eval.accountsUpTo o n).execAll _ hplaced.statements).bind_of_run
          fun m₁ flow m₂ _ hrun => ?_
        have hjumps := Eval.execAll_yields n _ _ m₁ flow m₂ hrun
        exact Eval.accounted_result (hjumps.mono fun jump p hp => hp.placed hplaced.statements)
          (hjumps.mono fun jump p hp => hstray jump p (.inl hp))
      -- the built-in functions are declared without a fault
      have hbuiltins := Eval.run_declareBuiltins_all m Arena.host
      have hrun := Run.bind_done hbuiltins fun _ =>
        (Eval.declareFunctions m.scopes.size script.functions >>= fun _ =>
          Eval.execAll n m.scopes.size script.statements >>= Flow.result).run
      have hcovers := hm.withBuiltins (some Arena.host) Builtin.all
      exact (hbody _ hcovers).explains ((congrArg Prod.fst hrun).symm.trans h)

end Origin

namespace Script

/-- **A script that was read from a text fails at one of its tokens**, if the host has lent no
functions to it. -/
theorem fault_at_token {name text : String} {script : Script}
    (hscript : ofText name text = .ok script) {m : Machine} (hm : ∀ f, ¬ m.Knows f) {fuel : Nat}
    {fault : Fault} (hfault : (Eval.execute fuel script m).1 = .failed fault) :
    ∃ tokens, Token.scan name text = .ok tokens ∧ ∃ t ∈ tokens,
      fault.position = some t.position ∧ t.position.script = name ∧ 0 < t.position.line := by
  cases hscan : Token.scan name text with
  | error e =>
      rw [ofText, hscan] at hscript
      cases hscript
  | ok tokens =>
      rw [ofText, hscan] at hscript
      let o : Origin := ⟨fun p => ∃ t ∈ tokens, t.position = p, fun _ _ => True⟩
      have hplaced : script.Placed o.place := placed_of_ofTokens hscript fun t ht => ⟨t, ht, rfl⟩
      have hcovers : o.Covers m := fun f hf => absurd hf (hm f)
      obtain ⟨⟨_, hposition, t, ht, rfl⟩, -⟩ :=
        Origin.explains_of_execute hplaced (fun _ _ _ => trivial) hcovers hfault
      exact ⟨tokens, rfl, t, ht, hposition, Token.position_of_mem_scan hscan ht⟩

/-- The function takes an element of its argument, and is called with a number. -/
def indexedNumber : String :=
  "func f(x) \x7b\n  return x[1];\n\x7d\nvar y = f(2);"

/-- The fault is at the variable in the function, not at the call. -/
theorem fault_at_token_indexedNumber :
    ∃ script, ofText "s" indexedNumber = .ok script ∧
      (Eval.execute 12 script (Machine.initial 8)).1 =
        .failed ⟨.variableNotCollection "x", some ⟨"s", 2, 10⟩⟩ ∧
      ∃ tokens, Token.scan "s" indexedNumber = .ok tokens ∧
        ∃ t ∈ tokens, t.position = ⟨"s", 2, 10⟩ := by
  have hrun : (ofText "s" indexedNumber).toOption.map
      (fun script => (Eval.execute 12 script (Machine.initial 8)).1) =
      some (.failed ⟨.variableNotCollection "x", some ⟨"s", 2, 10⟩⟩) := by
    decide +kernel
  cases hscript : ofText "s" indexedNumber with
  | error e =>
      rw [hscript] at hrun
      cases hrun
  | ok script =>
      rw [hscript] at hrun
      have hfault := Option.some.inj hrun
      obtain ⟨tokens, hscan, t, ht, hposition, -⟩ :=
        fault_at_token hscript (Machine.not_knows_initial 8) hfault
      exact ⟨script, rfl, hfault, tokens, hscan, t, ht, (Option.some.inj hposition).symm⟩

/-- **Jumps do not leak.**  A statement without stray jumps never ends in a jump.  If a script
fails since a jump was made outside of a loop, then the jump is stray in the function or in the
statements where it stands; a loop around the call of the function does not matter. -/
theorem jumps_stay_in_loops (jump : Jump) :
    (∀ (fuel : Nat) (scope : ScopeId) (s : Statement) (m : Machine),
      (∀ p, ¬ s.Stray jump p) → ∀ p, (Eval.exec fuel scope s m).1 ≠ .done (jump.flow p)) ∧
    ∀ (fuel : Nat) (script : Script) (m : Machine), (∀ f, ¬ m.Knows f) →
      ∀ position, (Eval.execute fuel script m).1 = .failed ⟨jump.outside, position⟩ →
        ∃ p, position = some p ∧ script.Stray jump p := by
  constructor
  · intro fuel scope s m hstray p hdone
    have hrun : Eval.exec fuel scope s m = (.done (jump.flow p), (Eval.exec fuel scope s m).2) :=
      Prod.ext hdone rfl
    exact hstray p (Eval.exec_yields fuel scope s _ _ _ hrun jump p rfl)
  · intro fuel script m hm position hfault
    let o : Origin := ⟨fun _ => True, script.Stray⟩
    have hplaced : script.Placed o.place := script.placed_of_forall fun _ => trivial
    have hcovers : o.Covers m := fun f hf => absurd hf (hm f)
    obtain ⟨⟨p, hp, -⟩, hjump⟩ :=
      Origin.explains_of_execute hplaced (fun _ _ h => h) hcovers hfault
    exact ⟨p, hp, hjump jump jump.jump?_outside p hp⟩

/-- `while (true) f();` and `func f() { break; }`. -/
def calledBreak : Script where
  name := "s"
  statements :=
    [.whileLoop ⟨"s", 1, 1⟩ (.literal ⟨"s", 1, 8⟩ (.bool true))
      (.ofExpr (.call ⟨"s", 1, 14⟩ "f" []))]
  functions := [⟨⟨"s", 2, 1⟩, ⟨"f", [], false⟩, ⟨"s", 2, 10⟩, [.breaks ⟨"s", 2, 12⟩]⟩]

/-- The loop around the call does not end by the `break` of the function.  A loop around the
`break` itself does. -/
theorem jumps_stay_in_loops_calledBreak :
    (Eval.execute 10 calledBreak (Machine.initial 8)).1 =
        .failed ⟨.breakOutsideLoop, some ⟨"s", 2, 12⟩⟩ ∧
      calledBreak.Stray .breaks ⟨"s", 2, 12⟩ ∧
      ∀ p, (Eval.exec 10 0 (.whileLoop ⟨"s", 1, 1⟩ (.literal ⟨"s", 1, 8⟩ (.bool true))
        (.breaks ⟨"s", 1, 14⟩)) (Machine.initial 8)).1 ≠ .done (.broke p) := by
  have hfault : (Eval.execute 10 calledBreak (Machine.initial 8)).1 =
      .failed ⟨.breakOutsideLoop, some ⟨"s", 2, 12⟩⟩ := by
    decide +kernel
  obtain ⟨hstays, hblames⟩ := jumps_stay_in_loops .breaks
  obtain ⟨p, hp, hstray⟩ := hblames 10 calledBreak _ (Machine.not_knows_initial 8) _ hfault
  cases hp
  refine ⟨hfault, hstray, hstays 10 0 _ _ fun p hp => ?_⟩
  generalize hloop : Statement.whileLoop _ _ _ = s at hp
  cases hp <;> cases hloop

end Script

end Scriptlet
