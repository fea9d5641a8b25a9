import Mathlib.Data.List.Induction
import Scriptlet.Proofs.CallLimit
import Scriptlet.Proofs.Layout
import Scriptlet.Proofs.ParserCompleteness
import Scriptlet.Proofs.ParserSoundness
import Scriptlet.Proofs.Resolution
import Scriptlet.Proofs.Safety

/-!
# The functions of a script are hoisted

The functions of a script are declared before its statements are run.  If their names are
apart, this succeeds (`Script.execute_of_apart`), and their order plays no part
(`Script.execute_eq_of_perm`): the statements run in scopes that correspond, and the scopes
that are left afterwards have the functions that they had.  If not, the first function that
cannot be declared ends the script (`Script.execute_of_clash`).

Among the tokens of a script, a function may stand anywhere between the statements
(`Item.Moved.ofTokens`).
-/

namespace Scriptlet

/-! ## Declaring functions -/

/-- Of functions that are not apart, there is a first that clashes with those before it. -/
theorem FunctionDef.exists_first_clash {fs : List FunctionDef} (h : ¬ Apart fs) :
    ∃ before f after, fs = before ++ f :: after ∧ Apart before ∧ f.Clashes before := by
  induction fs using List.reverseRecOn with
  | nil => exact absurd ⟨List.nodup_nil, fun f hf => absurd hf List.not_mem_nil⟩ h
  | append_singleton fs f ih =>
      by_cases hfs : Apart fs
      · refine ⟨fs, f, [], rfl, hfs, ?_⟩
        by_contra hclash
        exact h (hfs.concat hclash)
      · obtain ⟨before, g, after, rfl, hbefore, hg⟩ := ih hfs
        exact ⟨before, g, after ++ [f], by simp, hbefore, hg⟩

/-- A declaration in the newest scope of a function that it has. -/
theorem Machine.declareFunction_withScope_of_old (m : Machine) {s : Scope} {f : Callable}
    (hold : (s.getFunction? (Name.fold f.signature.name)).isSome) (position : Option Position) :
    (Step.declareFunction m.scopes.size f position).perform (m.withScope s) =
      (.failed ⟨.functionAlreadyDefined f.signature.name, position⟩, m.withScope s) := by
  have hnone : (m.withScope s).scopes.declareFunction? m.scopes.size f = none := by
    simp only [Arena.declareFunction?, m.getElem?_withScope_self, hold, if_true]
  simp only [Step.perform, Step.inArena, if_pos m.lt_size_withScope, hnone]

/-- The step declares a function. -/
def Step.DeclaresFunction {α : Type} : Step α → Prop
  | .declareFunction _ _ _ => True
  | _ => False

namespace Eval

variable {m : Machine}

/-- Declaring functions in the newest scope, if they have names that are not declared there. -/
theorem run_declareFunctions (m : Machine) {fs : List FunctionDef}
    (hnodup : (fs.map FunctionDef.key).Nodup) {s : Scope}
    (hnew : ∀ f ∈ fs, s.getFunction? f.key = none) :
    (declareFunctions m.scopes.size fs).run (m.withScope s) =
      (.done (), m.withScope (s.withFunctions fs)) := by
  induction fs generalizing s with
  | nil => rfl
  | cons f fs ih =>
      obtain ⟨hfirst, hothers⟩ := List.nodup_cons.mp hnodup
      have hdeclared := m.declareFunction_withScope (f := .script f) (hnew f (.head fs))
        (some f.position)
      refine (Run.bind_done hdeclared _).trans (ih hothers ?_)
      intro g hg
      have hne : g.key ≠ Name.fold (Callable.script f).signature.name :=
        fun heq => hfirst (List.mem_map.mpr ⟨g, hg, heq⟩)
      unfold Scope.getFunction? Scope.addFunction
      rw [List.lookup_cons, beq_eq_false_iff_ne.mpr hne]
      exact hnew g (.tail f hg)

/-- The functions after some others are declared where these have been declared. -/
theorem run_declareFunctions_append {scope : ScopeId} {fs : List FunctionDef} {m' : Machine}
    (h : (declareFunctions scope fs).run m = (.done (), m')) (gs : List FunctionDef) :
    (declareFunctions scope (fs ++ gs)).run m = (declareFunctions scope gs).run m' := by
  induction fs generalizing m with
  | nil =>
      cases h
      rfl
  | cons f fs ih =>
      obtain ⟨_, m₁, hfirst, hrest⟩ := Run.bind_eq_done_iff.mp h
      exact (Run.bind_done hfirst _).trans (ih hrest)

/-- The computation does nothing but declare functions. -/
def OnlyDeclares {α : Type} (x : Eval α) : Prop :=
  ∀ m, ∀ t ∈ x.taken m, t.step.DeclaresFunction

theorem onlyDeclares_pure {α : Type} (a : α) : (pure a : Eval α).OnlyDeclares :=
  fun _ _ ht => absurd ht List.not_mem_nil

/-- A declaration of a function may stand before others. -/
theorem onlyDeclares_declareFunction_bind {scope : ScopeId} {f : Callable}
    {position : Option Position} {x : Eval Unit} (hx : x.OnlyDeclares) :
    (declareFunction scope f position >>= fun _ => x).OnlyDeclares := by
  intro m t ht
  rcases mem_taken_bind.mp ht with ht | ⟨_, m', _, ht⟩
  · cases List.mem_singleton.mp ht
    trivial
  · exact hx m' t ht

/-- Declaring the built-in functions is only that. -/
theorem onlyDeclares_declareBuiltins (scope : ScopeId) (fs : List Builtin) :
    (declareBuiltins scope fs).OnlyDeclares := by
  induction fs with
  | nil => exact onlyDeclares_pure ()
  | cons f fs ih => exact onlyDeclares_declareFunction_bind ih

/-- Declaring the functions of a script is only that. -/
theorem onlyDeclares_declareFunctions (scope : ScopeId) (fs : List FunctionDef) :
    (declareFunctions scope fs).OnlyDeclares := by
  induction fs with
  | nil => exact onlyDeclares_pure ()
  | cons f fs ih => exact onlyDeclares_declareFunction_bind ih

end Eval

namespace Script

open Eval

variable {script : Script}

/-- Functions that are apart can be declared after the built-in ones. -/
theorem run_declareFunctions_of_apart {fs : List FunctionDef} (h : FunctionDef.Apart fs)
    (m : Machine) :
    (declareFunctions m.scopes.size fs).run (m.withScope (.ofFunctions [])) =
      (.done (), m.withScope (.ofFunctions fs)) :=
  run_declareFunctions m h.nodup fun _ hf => Scope.getFunction?_ofFunctions_nil h hf

/-- **The functions of a script are declared first.**  If their names are apart, what is left
of the script are its statements, in a scope with all functions. -/
theorem execute_of_apart (h : FunctionDef.Apart script.functions) (fuel : Nat) (m : Machine) :
    execute (fuel + 1) script m =
      Prod.map id (·.keepScopes m.scopes.size)
        ((execAll fuel m.scopes.size script.statements >>= Flow.result).run
          (script.hoistedOn m)) := by
  have hbuiltins := run_declareBuiltins_all m Arena.host
  have hfunctions := run_declareFunctions_of_apart h m
  let body (scope : ScopeId) : Eval (Option Value) := do
    declareBuiltins scope Builtin.all
    declareFunctions scope script.functions
    let flow ← execAll fuel scope script.statements
    flow.result
  have hbody : (body m.scopes.size).run (m.pushScope Arena.host) =
      (execAll fuel m.scopes.size script.statements >>= Flow.result).run (script.hoistedOn m) :=
    (Run.bind_done hbuiltins _).trans (Run.bind_done hfunctions _)
  rw [← hbody]
  rfl

/-- **A function that clashes ends the script**, before any statement. -/
theorem execute_of_clash {before after : List FunctionDef} {f : FunctionDef}
    (hfunctions : script.functions = before ++ f :: after) (hbefore : FunctionDef.Apart before)
    (hclash : f.Clashes before) (fuel : Nat) (m : Machine) :
    execute (fuel + 1) script m =
        (.failed ⟨.functionAlreadyDefined f.signature.name, some f.position⟩, m) ∧
      ∀ t ∈ (execute (fuel + 1) script).taken m, t.step.DeclaresFunction := by
  have hold := Scope.isSome_getFunction?_of_clashes hbefore hclash
  have hbuiltins := run_declareBuiltins_all m Arena.host
  have hstopped : (declareFunctions m.scopes.size script.functions).run
      (m.withScope (.ofFunctions [])) =
      (.failed ⟨.functionAlreadyDefined f.signature.name, some f.position⟩,
        m.withScope (.ofFunctions before)) := by
    rw [hfunctions, run_declareFunctions_append (run_declareFunctions_of_apart hbefore m)]
    exact Run.bind_failed
      (m.declareFunction_withScope_of_old (f := .script f) hold (some f.position)) _
  constructor
  · exact run_inScope_of_withScope
      ((Run.bind_done hbuiltins _).trans (Run.bind_failed hstopped _))
  · intro t ht
    rcases mem_taken_bind.mp ht with ht | ⟨_, m₁, hrun, ht⟩
    · exact onlyDeclares_declareBuiltins _ _ _ t ht
    · cases hbuiltins.symm.trans hrun
      rcases mem_taken_bind.mp ht with ht | ⟨_, m₂, hrun, _⟩
      · exact onlyDeclares_declareFunctions _ _ _ t ht
      · cases hstopped.symm.trans hrun

end Script

/-! ## The order of the functions -/

section Order

variable {limit : Nat}

/-- In whatever order functions that are apart are declared, the scope has them. -/
theorem Scope.corresponds_ofFunctions {fs gs : List FunctionDef} (hfs : FunctionDef.Apart fs)
    (hperm : gs.Perm fs) : (ofFunctions gs).Corresponds (.identical limit) (ofFunctions fs) where
  parent_eq := (parent_ofFunctions gs).trans (parent_ofFunctions fs).symm
  vars := by
    rw [vars_ofFunctions, vars_ofFunctions]
    exact .nil
  getFunction? := by
    rintro k _ rfl
    rw [getFunction?_ofFunctions hfs, getFunction?_ofFunctions (hfs.perm hperm),
      FunctionDef.find?_eq_of_perm hfs hperm]
    generalize Option.or _ _ = f?
    cases f? with
    | none => exact .none
    | some f =>
        exact .some (Callable.alike_refl (Correspondence.reflexive_identical limit)
          fun _ _ => trivial)

/-- Where everything corresponds to itself only, corresponding faults are equal. -/
theorem Fault.Corresponds.eq {f g : Fault} (h : f.Corresponds (.identical limit) g) : f = g := by
  have hcause : f.cause = g.cause := h.cause.eq
  have hposition : f.position = g.position := h.position.eq id
  cases f
  cases g
  simp_all

/-- Machines that correspond in everything and have the same tables of functions are one
machine. -/
theorem Machine.Corresponds.eq {m m' : Machine} (h : m.Corresponds (.identical limit) m')
    (hfunctions : ∀ i : ScopeId,
      m.scopes[i]?.map Scope.functions = m'.scopes[i]?.map Scope.functions) : m = m' := by
  have hscopes : m.scopes = m'.scopes := by
    apply Array.ext_getElem?
    intro i
    have hi := hfunctions i
    have hrel := h.scopes i
    generalize m.scopes[i]? = s?, m'.scopes[i]? = t? at hi hrel
    cases hrel with
    | none => rfl
    | @some s t hst =>
        have hparent := hst.parent_eq
        have hvars := hst.vars_eq
        have hfuncs := Option.some.inj hi
        cases s
        cases t
        simp_all
  have hlimit : m.maxCallDepth = m'.maxCallDepth := h.limit_eq.trans h.limit_eq'.symm
  have hheap := h.heap_eq
  have hdepth := h.depth_eq
  have houtput := h.output_eq
  cases m
  cases m'
  simp_all

/-- **The order of functions that are apart plays no part.** -/
theorem Script.execute_eq_of_perm {script : Script} (h : FunctionDef.Apart script.functions)
    {fs : List FunctionDef} (hperm : fs.Perm script.functions) (fuel : Nat) (m : Machine) :
    Eval.execute fuel { script with functions := fs } m = Eval.execute fuel script m := by
  cases fuel with
  | zero => rfl
  | succ fuel =>
      let statements : Eval (Option Value) :=
        Eval.execAll fuel m.scopes.size script.statements >>= Flow.result
      have hrefl := Correspondence.reflexive_identical m.maxCallDepth
      have halike : statements.Alike (.identical m.maxCallDepth) Eq statements :=
        ((Eval.alikeUpTo _ fuel).execAll _ (Statement.allAlike_refl hrefl _)).bind
          fun _ _ hflow => Eval.alike_flowResult hflow
      have hends := halike
        (m.corresponds_identical.withScope (Scope.corresponds_ofFunctions h hperm))
      -- the tables of the scopes that are left are those that were there before
      have hkept : ∀ fs' (i : ScopeId), i < m.scopes.size →
          (statements.run (m.withScope (.ofFunctions fs'))).2.scopes[i]?.map Scope.functions =
            m.scopes[i]?.map Scope.functions := by
        intro fs' i hi
        have hconforms : statements.Conforms (fun _ => True) (.ofVariables fun _ => True) :=
          ⟨(Eval.conformsUpTo _ fuel).execAll _ _ _ fun _ _ _ => trivial,
            fun flow _ => Eval.conforms_flowResult flow⟩
        have hlinkage := hconforms.linkage_eq (m := m.withScope (.ofFunctions fs'))
          (Nat.lt_trans hi m.lt_size_withScope)
        rw [m.getElem?_withScope_of_lt hi] at hlinkage
        have hsnd := congrArg (Option.map Prod.snd) hlinkage
        rwa [Option.map_map, Option.map_map] at hsnd
      have houtcome := (hends.imp id fun hfault => hfault.eq).fst_eq
      have hmachine := (hends.state.keepScopes m.scopes.size).eq fun i => by
        rw [Machine.getElem?_keepScopes, Machine.getElem?_keepScopes]
        split
        next hi => exact (hkept fs i hi).trans (hkept script.functions i hi).symm
        next => rfl
      rw [execute_of_apart (h.perm hperm), execute_of_apart h]
      exact Prod.ext houtcome hmachine

end Order

/-! ## The place of a function among the tokens -/

/-- A statement or a function of a script, with its tokens. -/
inductive Item where
  | statement (s : Statement) (ts : List Token) (h : Passage.Derives (.statement s) ts)
  | function (f : FunctionDef) (ts : List Token) (h : f.Derives ts)

namespace Item

def tokens : Item → List Token
  | .statement _ ts _ => ts
  | .function _ ts _ => ts

def statement? : Item → Option Statement
  | .statement s _ _ => some s
  | .function _ _ _ => none

def function? : Item → Option FunctionDef
  | .statement _ _ _ => none
  | .function f _ _ => some f

/-- Functions were moved to other places between the statements, which keep their order. -/
structure Moved (items items' : List Item) : Prop where
  perm : items'.Perm items
  statements_eq : items'.filterMap statement? = items.filterMap statement?

/-- Items make a script, whatever their order. -/
theorem ofTokens_flatMap (name : String) (items : List Item) :
    Script.ofTokens name (items.flatMap tokens) =
      .ok ⟨name, items.filterMap statement?, items.filterMap function?⟩ := by
  let script : Script := ⟨name, items.filterMap statement?, items.filterMap function?⟩
  have hderives : script.Derives (items.flatMap tokens) := by
    show Items (items.filterMap statement?) (items.filterMap function?) (items.flatMap tokens)
    induction items with
    | nil => exact .nil
    | cons item items ih =>
        cases item with
        | statement s ts h => exact .statement h ih
        | function f ts h => exact .function h ih
  exact hderives.ofTokens

/-- The tokens of a script are those of its statements and functions in a row. -/
theorem exists_flatMap_eq {ss : List Statement} {fs : List FunctionDef} {ts : List Token}
    (h : Items ss fs ts) : ∃ items : List Item, items.flatMap tokens = ts := by
  induction h with
  | nil => exact ⟨[], rfl⟩
  | @statement s ss fs ts ts' h hmore ih =>
      obtain ⟨items, rfl⟩ := ih
      exact ⟨.statement s ts h :: items, rfl⟩
  | @function f ss fs ts ts' h hmore ih =>
      obtain ⟨items, rfl⟩ := ih
      exact ⟨.function f ts h :: items, rfl⟩

/-- The tokens of a script are those of items. -/
theorem exists_of_ofTokens {name : String} {ts : List Token} {script : Script}
    (h : Script.ofTokens name ts = .ok script) :
    ∃ items : List Item, items.flatMap tokens = ts := by
  unfold Script.ofTokens at h
  split at h
  next ss fs hparse =>
    obtain ⟨rest, hread⟩ := Parser.parse_eq_ok hparse
    exact exists_flatMap_eq (Parser.items_done hread).1
  next => cases h

/-- **Where functions stand plays no part for the statements.**  The tokens may get new
positions when they are moved. -/
theorem Moved.ofTokens {items items' : List Item} (h : Moved items items') (name : String)
    {ts : List Token} (hts : ts.map Token.lexeme = (items'.flatMap tokens).map Token.lexeme) :
    ∃ script, Script.ofTokens name ts = .ok script ∧
      Statement.eraseAll script.statements =
        Statement.eraseAll (items.filterMap statement?) ∧
      (script.functions.map FunctionDef.erase).Perm
        ((items.filterMap function?).map FunctionDef.erase) := by
  have hlike : List.Forall₂ (Token.Like fun _ _ => True) ts (items'.flatMap tokens) :=
    (forall₂_sameIndex hts).imp fun _ _ hlike => ⟨hlike.lexeme_eq, trivial⟩
  have hread := ofTokens_flatMap name items'
  rcases Script.ofTokens_alike name hlike with
    ⟨script, script', hok, hok', halike⟩ | ⟨_, e, _, he, _⟩
  · cases hok'.symm.trans hread
    have herase := halike.erase_eq
    have hstatements := congrArg Script.statements herase
    have hfunctions := congrArg Script.functions herase
    refine ⟨script, hok, hstatements.trans ?_, ?_⟩
    · exact congrArg Statement.eraseAll h.statements_eq
    · show List.Perm (Script.erase script).functions _
      rw [hfunctions]
      exact (h.perm.filterMap function?).map FunctionDef.erase
  · cases he.symm.trans hread

end Item

/-! ## Scripts -/

/-- **Functions are hoisted.**  If the names of the functions of a script are apart, then the
script does the same, to the last line and variable, whatever their order: they are declared
before the first statement is run.  Every call in its code, at whatever depth, means the
function of the script with that name, or else the built-in one, or else the one of the host.

If the names are not apart, the first function that clashes with those before it ends the
script, before any statement is run, and the machine stays as it was.

If the script was read from tokens, its functions can be moved to other places between the
statements, which stay the same but for positions. -/
theorem Script.functions_hoisted (script : Script) :
    (FunctionDef.Apart script.functions → ∀ (fuel : Nat) (m : Machine),
      (∀ fs : List FunctionDef, fs.Perm script.functions →
        Eval.execute fuel { script with functions := fs } m = Eval.execute fuel script m) ∧
      Eval.execute (fuel + 1) script m =
        Prod.map id (·.keepScopes m.scopes.size)
          ((Eval.execAll fuel m.scopes.size script.statements >>= Flow.result).run
            (script.hoistedOn m)) ∧
      ∀ host, m.scopes.Downward → m.scopes[Arena.host]? = some host →
        ∀ i name position m', ⟨.findFunction i name position, m'⟩ ∈ script.ownSteps fuel m →
          i < m'.scopes.size ∧ m'.scopes.findFunction? i name = script.resolve? host name) ∧
    (¬ FunctionDef.Apart script.functions →
      ∃ before f after, script.functions = before ++ f :: after ∧ FunctionDef.Apart before ∧
        f.Clashes before ∧ ∀ (fuel : Nat) (m : Machine),
          Eval.execute (fuel + 1) script m =
            (.failed ⟨.functionAlreadyDefined f.signature.name, some f.position⟩, m) ∧
          ∀ t ∈ (Eval.execute (fuel + 1) script).taken m, t.step.DeclaresFunction) ∧
    (∀ tokens, ofTokens script.name tokens = .ok script →
      (∃ items : List Item, items.flatMap Item.tokens = tokens) ∧
      ∀ items items' tokens', items.flatMap Item.tokens = tokens → Item.Moved items items' →
        tokens'.map Token.lexeme = (items'.flatMap Item.tokens).map Token.lexeme →
        ∃ script', ofTokens script.name tokens' = .ok script' ∧
          Statement.eraseAll script'.statements = Statement.eraseAll script.statements ∧
          (script'.functions.map FunctionDef.erase).Perm
            (script.functions.map FunctionDef.erase)) := by
  refine ⟨?_, ?_, ?_⟩
  · intro hapart fuel m
    refine ⟨fun fs hperm => execute_eq_of_perm hapart hperm fuel m,
      execute_of_apart hapart fuel m, ?_⟩
    intro host hdown hhost i name position m' ht
    exact findFunction?_of_mem_ownSteps hapart hdown hhost ht
  · intro hclash
    obtain ⟨before, f, after, hfunctions, hbefore, hf⟩ := FunctionDef.exists_first_clash hclash
    exact ⟨before, f, after, hfunctions, hbefore, hf, execute_of_clash hfunctions hbefore hf⟩
  · intro tokens hread
    constructor
    · exact Item.exists_of_ofTokens hread
    · rintro items items' tokens' rfl hmoved hlexemes
      have hscript := hread.symm.trans (Item.ofTokens_flatMap script.name items)
      obtain ⟨script', hok, hstatements, hfunctions⟩ := hmoved.ofTokens script.name hlexemes
      rw [Except.ok.inj hscript]
      exact ⟨script', hok, hstatements, hfunctions⟩

/-- `func ping() { return PONG(); }`, `func pong() { return count_of(pair(1)); }` and
`return Ping();`, where `pair` is a function of the host. -/
def Script.pingPong : Script :=
  ⟨"main", [.returns ⟨"main", 3, 1⟩ (some (.call ⟨"main", 3, 8⟩ "Ping" []))],
    [⟨⟨"main", 1, 1⟩, ⟨"ping", [], false⟩, ⟨"main", 1, 13⟩,
        [.returns ⟨"main", 1, 15⟩ (some (.call ⟨"main", 1, 22⟩ "PONG" []))]⟩,
      ⟨⟨"main", 2, 1⟩, ⟨"pong", [], false⟩, ⟨"main", 2, 13⟩,
        [.returns ⟨"main", 2, 15⟩ (some (.call ⟨"main", 2, 22⟩ "count_of"
          [.call ⟨"main", 2, 31⟩ "pair" [.literal ⟨"main", 2, 36⟩ (.int 1)]]))]⟩]⟩

/-- The function `Count_Of(x) {}`. -/
def FunctionDef.clashing : FunctionDef :=
  ⟨⟨"main", 4, 1⟩, ⟨"Count_Of", ["x"], false⟩, ⟨"main", 4, 18⟩, []⟩

/-- The words `func f() {}`. -/
def Item.emptyFunction : Item :=
  .function ⟨⟨"main", 1, 1⟩, ⟨"f", [], false⟩, ⟨"main", 1, 10⟩, []⟩
    [⟨.keyword .func, ⟨"main", 1, 1⟩⟩, ⟨.identifier "f", ⟨"main", 1, 6⟩⟩,
      ⟨.symbol .openParen, ⟨"main", 1, 7⟩⟩, ⟨.symbol .closeParen, ⟨"main", 1, 8⟩⟩,
      ⟨.symbol .openBrace, ⟨"main", 1, 10⟩⟩, ⟨.symbol .closeBrace, ⟨"main", 1, 11⟩⟩]
    (.intro .absent (.block .noStatements))

/-- The words `return;`. -/
def Item.emptyReturn : Item :=
  .statement (.returns ⟨"main", 2, 1⟩ none)
    [⟨.keyword .returnWord, ⟨"main", 2, 1⟩⟩, ⟨.symbol .semicolon, ⟨"main", 2, 7⟩⟩] .returnNothing

/-- The script does the same with its functions in the other order, and the call of `pair` in
the last function finds that of the host.  With one function more, which has the name of a
built-in one, the script fails.  A function can be moved behind a statement. -/
theorem Script.functions_hoisted_pingPong :
    (Eval.execute 40 { pingPong with functions := pingPong.functions.reverse }
      (Session.start 8 [.pair])).1 = .done (some (.int 2)) ∧
    (∃ m', ⟨.findFunction 5 "pair" (some ⟨"main", 2, 31⟩), m'⟩ ∈
        pingPong.ownSteps 40 (Session.start 8 [.pair]) ∧
      m'.scopes.findFunction? 5 "pair" = some (.host .pair)) ∧
    Eval.execute 40 { pingPong with functions := pingPong.functions ++ [.clashing] }
      (Session.start 8 [.pair]) =
        (.failed ⟨.functionAlreadyDefined "Count_Of", some ⟨"main", 4, 1⟩⟩,
          Session.start 8 [.pair]) ∧
    ∃ script, ofTokens "main" (Item.emptyReturn.tokens ++ Item.emptyFunction.tokens) = .ok script ∧
      Statement.eraseAll script.statements = [.returns .nowhere none] := by
  have hapart : FunctionDef.Apart pingPong.functions := by
    refine ⟨by decide, ?_⟩
    intro f hf b
    rcases List.mem_pair.mp hf with rfl | rfl <;> cases b <;> decide
  obtain ⟨hsame, _, hmeans⟩ := (functions_hoisted pingPong).1 hapart 40 (Session.start 8 [.pair])
  refine ⟨?_, ?_, ?_, ?_⟩
  · rw [hsame _ (List.reverse_perm _)]
    decide +kernel
  · obtain ⟨m', hstep⟩ : ∃ m', (pingPong.ownSteps 40 (Session.start 8 [.pair]))[3]? =
        some ⟨.findFunction 5 "pair" (some ⟨"main", 2, 31⟩), m'⟩ := ⟨_, rfl⟩
    have hmem := List.mem_of_getElem? hstep
    have hdown : (Session.start 8 [.pair]).scopes.Downward :=
      (Session.setUp_start 8 [.pair]).orderly.downward
    exact ⟨m', hmem, (hmeans _ hdown rfl _ _ _ _ hmem).2.trans rfl⟩
  · have hnot : ¬ FunctionDef.Apart (pingPong.functions ++ [.clashing]) := by
      intro h
      exact h.not_builtin .clashing (List.mem_append_right _ (List.mem_singleton_self _)) .countOf
        (by decide)
    obtain ⟨_, f, _, _, _, _, hstopped⟩ := (functions_hoisted
      { pingPong with functions := pingPong.functions ++ [.clashing] }).2.1 hnot
    have houtcome : (Eval.execute 40
        { pingPong with functions := pingPong.functions ++ [.clashing] }
        (Session.start 8 [.pair])).1 =
          .failed ⟨.functionAlreadyDefined "Count_Of", some ⟨"main", 4, 1⟩⟩ := by decide +kernel
    have hmachine := congrArg Prod.snd (hstopped 39 (Session.start 8 [.pair])).1
    exact Prod.ext houtcome hmachine
  · have hread := Item.ofTokens_flatMap "main" [.emptyFunction, .emptyReturn]
    have hmoved : Item.Moved [.emptyFunction, .emptyReturn] [.emptyReturn, .emptyFunction] :=
      ⟨.swap _ _ _, rfl⟩
    obtain ⟨script, hok, hstatements, _⟩ :=
      ((functions_hoisted ⟨"main", _, _⟩).2.2 _ hread).2 _ _ _ rfl hmoved rfl
    exact ⟨script, hok, hstatements⟩

end Scriptlet
