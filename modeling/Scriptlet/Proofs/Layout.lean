import Scriptlet.Proofs.LikeParsing
import Scriptlet.Proofs.LikeRuns
import Scriptlet.Proofs.Rendering

/-!
# Layout plays no part

A script is a list of words, and where the words stand decides nothing.  Two lists of
tokens that say the same are both no script, for the same reason and at the same word, or
both scripts that are the same but for positions; and two such scripts do the same, as long
as no function of the host asks where it was called.

Both halves are the lockstep of the parser and of the evaluator with themselves.  For the
first, places correspond if they belong to tokens with the same index, for the second any
two places do.
-/

namespace Scriptlet

/-! ## Trees without positions -/

section Erase

variable {place : Position → Position → Prop}

mutual

/-- Expressions that differ in places only are equal without them. -/
theorem Expr.Alike.erase_eq : ∀ {e e' : Expr}, e.Alike (.ofPlace place) e' → e.erase = e'.erase
  | .literal _ _, _, .literal _ _ => rfl
  | .var _ _, _, .var _ rfl => rfl
  | .element _ _ _, _, .element _ rfl hindex => by simp only [Expr.erase, hindex.erase_eq]
  | .unary _ _ _, _, .unary _ _ hoperand => by simp only [Expr.erase, hoperand.erase_eq]
  | .binary _ _ _ _ _, _, .binary _ _ _ hleft hright => by
    simp only [Expr.erase, hleft.erase_eq, hright.erase_eq]
  | .assign _ _ _ _, _, .assign _ _ rfl hvalue => by simp only [Expr.erase, hvalue.erase_eq]
  | .assignElement _ _ _ _ _, _, .assignElement _ _ rfl hindex hvalue => by
    simp only [Expr.erase, hindex.erase_eq, hvalue.erase_eq]
  | .conditional _ _ _ _, _, .conditional _ hcondition hthen helse => by
    simp only [Expr.erase, hcondition.erase_eq, hthen.erase_eq, helse.erase_eq]
  | .list _ _, _, .list _ helements => by simp only [Expr.erase, Expr.eraseAll_eq helements]
  | .call _ _ _, _, .call _ rfl harguments => by
    simp only [Expr.erase, Expr.eraseAll_eq harguments]

theorem Expr.eraseAll_eq : ∀ {es es' : List Expr},
    List.Forall₂ (Expr.Alike (.ofPlace place)) es es' → Expr.eraseAll es = Expr.eraseAll es'
  | [], _, .nil => rfl
  | _ :: _, _, .cons he hes => by simp only [Expr.eraseAll, he.erase_eq, Expr.eraseAll_eq hes]

end

theorem Expr.map_erase_eq {e? e'? : Option Expr}
    (h : Option.Rel (Expr.Alike (.ofPlace place)) e? e'?) :
    e?.map Expr.erase = e'?.map Expr.erase := by
  cases h with
  | none => rfl
  | some he => exact congrArg some he.erase_eq

mutual

/-- Statements that differ in places only are equal without them. -/
theorem Statement.Alike.erase_eq :
    ∀ {s s' : Statement}, s.Alike (.ofPlace place) s' → s.erase = s'.erase
  | .declare _ _ _, _, .declare _ rfl hvalue => by
    simp only [Statement.erase, Expr.map_erase_eq hvalue]
  | .evaluate _ _, _, .evaluate _ hvalue => by simp only [Statement.erase, hvalue.erase_eq]
  | .forLoop _ none _ _ _ _, _, .forLoop _ .none hstart hcondition hstep hbody => by
    simp only [Statement.erase, hstart.erase_eq, hcondition.erase_eq, hstep.erase_eq,
      hbody.erase_eq]
  | .forLoop _ (some _) _ _ _ _, _, .forLoop _ (.some rfl) hstart hcondition hstep hbody => by
    simp only [Statement.erase, hstart.erase_eq, hcondition.erase_eq, hstep.erase_eq,
      hbody.erase_eq]
  | .forEach _ _ _ _, _, .forEach _ rfl hcollection hbody => by
    simp only [Statement.erase, hcollection.erase_eq, hbody.erase_eq]
  | .ifElse _ _ _ none, _, .ifElse _ hcondition hthen .none => by
    simp only [Statement.erase, hcondition.erase_eq, hthen.erase_eq]
  | .ifElse _ _ _ (some _), _, .ifElse _ hcondition hthen (.some helse) => by
    simp only [Statement.erase, hcondition.erase_eq, hthen.erase_eq, helse.erase_eq]
  | .whileLoop _ _ _, _, .whileLoop _ hcondition hbody => by
    simp only [Statement.erase, hcondition.erase_eq, hbody.erase_eq]
  | .block _ _, _, .block _ hstatements => by
    simp only [Statement.erase, Statement.eraseAll_eq hstatements]
  | .returns _ _, _, .returns _ hvalue => by
    simp only [Statement.erase, Expr.map_erase_eq hvalue]
  | .breaks _, _, .breaks _ => rfl
  | .continues _, _, .continues _ => rfl

theorem Statement.eraseAll_eq : ∀ {ss ss' : List Statement},
    List.Forall₂ (Statement.Alike (.ofPlace place)) ss ss' →
      Statement.eraseAll ss = Statement.eraseAll ss'
  | [], _, .nil => rfl
  | _ :: _, _, .cons hs hss => by
    simp only [Statement.eraseAll, hs.erase_eq, Statement.eraseAll_eq hss]

end

/-- A signature has no places, so it is equal as it is. -/
theorem Signature.Alike.eq {s t : Signature} (h : s.Alike (.ofPlace place) t) : s = t := by
  have hname : s.name = t.name := h.name
  have hparams : s.params = t.params := List.forall₂_eq_eq_eq ▸ h.params
  have hvariadic := h.variadic_eq
  cases s
  cases t
  simp_all

/-- Functions that differ in places only are equal without them. -/
theorem FunctionDef.Alike.erase_eq {f g : FunctionDef} (h : f.Alike (.ofPlace place) g) :
    f.erase = g.erase := by
  simp only [FunctionDef.erase, h.signature.eq, Statement.eraseAll_eq h.body]

/-- Scripts that are alike but for positions are the same without them. -/
theorem Script.Alike.erase_eq {script script' : Script}
    (h : script.Alike (.ofPlace place) script') :
    script.erase = script'.erase := by
  have hfunctions : script.functions.map FunctionDef.erase =
      script'.functions.map FunctionDef.erase := by
    have hall := h.functions
    generalize script.functions = fs, script'.functions = gs at hall
    induction hall with
    | nil => rfl
    | cons hf _ ih => simp only [List.map_cons, hf.erase_eq, ih]
  simp only [Script.erase, h.name_eq, Statement.eraseAll_eq h.statements, hfunctions]

end Erase

/-! ## Reading -/

/-- Two lists of tokens that say the same at corresponding places are both scripts that are
alike, or both no scripts for the same reason, seen at corresponding places. -/
theorem Script.ofTokens_alike {place : Position → Position → Prop} (name : String)
    {ts ts' : List Token} (h : List.Forall₂ (Token.Like place) ts ts') :
    (∃ script script', ofTokens name ts = .ok script ∧ ofTokens name ts' = .ok script' ∧
      script.Alike (.ofPlace place) script') ∨
    (∃ e e', ofTokens name ts = .error e ∧ ofTokens name ts' = .error e' ∧ e.Like place e') := by
  have hfuel : Parser.fuel ts = Parser.fuel ts' := by
    simp only [Parser.fuel, h.length_eq]
  have hends := Parser.alike_items (Parser.fuel ts') h
  unfold ofTokens Parser.parse
  rw [hfuel]
  generalize Parser.items (Parser.fuel ts') ts = r, Parser.items (Parser.fuel ts') ts' = r' at hends
  cases hends with
  | done hitems _ => exact .inl ⟨_, _, rfl, rfl, rfl, hitems.statements, hitems.functions⟩
  | failed he _ => exact .inr ⟨_, _, rfl, rfl, he.atLastToken h⟩
  | outOfFuel _ => exact .inr ⟨_, _, rfl, rfl, ParseError.Like.atLastToken ⟨rfl, .none⟩ h⟩

/-- The places belong to tokens with the same index. -/
def SameIndex (ts ts' : List Token) (p q : Position) : Prop :=
  ∃ i : Nat, ts[i]?.map Token.position = some p ∧ ts'[i]?.map Token.position = some q

/-- Tokens that say the same do so one by one, at the same index. -/
theorem forall₂_sameIndex {ts ts' : List Token}
    (h : ts.map Token.lexeme = ts'.map Token.lexeme) :
    List.Forall₂ (Token.Like (SameIndex ts ts')) ts ts' := by
  have hlength : ts.length = ts'.length := by simpa using congrArg List.length h
  refine List.forall₂_iff_get.mpr ⟨hlength, fun i hi hi' => ⟨?_, i, by simp [hi], by simp [hi']⟩⟩
  have hlexeme := congrArg (·[i]?) h
  simpa [hi, hi'] using hlexeme

/-! ## Running -/

/-- Any two places correspond, and the host has no function that asks for one. -/
def Correspondence.anyPlace (limit : Nat) : Correspondence :=
  .sameNames (fun _ _ => True) (fun _ => trivial) (· ≠ .location) (fun h => absurd rfl h) limit

/-- Machines with the same variables in the same scopes, the same lists, the same number of
calls in progress and the same lines.  Their functions may stand at other places. -/
structure Machine.SameData (m m' : Machine) : Prop where
  vars_eq : ∀ i : ScopeId, m.scopes[i]?.map Scope.vars = m'.scopes[i]?.map Scope.vars
  heap_eq : m.heap = m'.heap
  depth_eq : m.callDepth = m'.callDepth
  output_eq : m.output = m'.output

/-- Where names correspond to themselves only, corresponding scopes have the same variables. -/
theorem Scope.Corresponds.vars_eq {place : Position → Position → Prop} {hplace : ∀ p, place p p}
    {host : HostFunction → Prop} {hlocation : host .location → ∀ {p q}, place p q → p = q}
    {limit : Nat} {s t : Scope}
    (h : s.Corresponds (.sameNames place hplace host hlocation limit) t) : s.vars = t.vars := by
  have hentries : List.Forall₂ Eq s.vars t.vars := by
    refine h.vars.imp ?_
    rintro ⟨key, name, value⟩ ⟨key', name', value'⟩ ⟨hkey, hvariable⟩
    obtain rfl : key = key' := hkey
    obtain rfl : name = name' := hvariable.name
    obtain rfl : value = value' := hvariable.value_eq
    rfl
  exact List.forall₂_eq_eq_eq ▸ hentries

/-- Machines that correspond up to places have the same data. -/
theorem Machine.Corresponds.sameData {limit : Nat} {m m' : Machine}
    (h : m.Corresponds (.anyPlace limit) m') : m.SameData m' where
  vars_eq i := by
    have hscopes := h.scopes i
    generalize m.scopes[i]? = s?, m'.scopes[i]? = t? at hscopes
    cases hscopes with
    | none => rfl
    | some hst => exact congrArg some hst.vars_eq
  heap_eq := h.heap_eq
  depth_eq := h.depth_eq
  output_eq := h.output_eq

/-- Corresponding causes with the same names are the same. -/
theorem Fault.Cause.Corresponds.eq {limit : Nat} {cause cause' : Fault.Cause}
    (h : cause.Corresponds Eq limit cause') : cause = cause' := by
  cases h with
  | callDepthExceeded | unnamed _ => rfl
  | _ h => rw [h]

/-- Scripts that are alike but for positions do the same, if no function of the host asks for a
place. -/
theorem Script.Alike.ends_alike {script script' : Script}
    (h : script.Alike (.ofPlace fun _ _ => True) script') (fuel : Nat) {m : Machine}
    (hm : ¬ m.Knows (.host .location)) :
    Run.Ends Machine.SameData (fun f g : Fault => f.cause = g.cause) Eq
      (Eval.execute fuel script m) (Eval.execute fuel script' m) := by
  have hstart : m.Corresponds (.anyPlace m.maxCallDepth) m := by
    refine Machine.corresponds_refl ⟨fun _ => rfl, fun _ => trivial⟩ .rfl (fun f hf => ?_) rfl
    rintro rfl
    exact hm hf
  have hends := (Eval.alikeUpTo (.anyPlace m.maxCallDepth) fuel).execute h hstart
  exact hends.imp (fun hm => hm.sameData) fun hfault => hfault.cause.eq

/-- **Layout plays no part.**  Two lists of tokens that say the same are both scripts, which
are the same without positions, or both no scripts for the same reason, seen at tokens with
the same index or at no place.  The two scripts do the same on every machine whose host has
no function that asks for a place: they give the same value or fail for the same cause, and
leave the same variables, lists and lines. -/
theorem Script.layout_plays_no_part (name : String) {ts ts' : List Token}
    (h : ts.map Token.lexeme = ts'.map Token.lexeme) :
    (∃ script script', ofTokens name ts = .ok script ∧ ofTokens name ts' = .ok script' ∧
      script.erase = script'.erase ∧
      ∀ fuel m, ¬ m.Knows (.host .location) →
        Run.Ends Machine.SameData (fun f g : Fault => f.cause = g.cause) Eq
          (Eval.execute fuel script m) (Eval.execute fuel script' m)) ∨
    (∃ e e', ofTokens name ts = .error e ∧ ofTokens name ts' = .error e' ∧
      e.cause = e'.cause ∧ Option.Rel (SameIndex ts ts') e.position e'.position) := by
  have hindex := forall₂_sameIndex h
  have hany : List.Forall₂ (Token.Like fun _ _ => True) ts ts' :=
    hindex.imp fun _ _ hlike => ⟨hlike.lexeme_eq, trivial⟩
  rcases ofTokens_alike name hindex with ⟨script, script', hok, hok', _⟩ | ⟨e, e', he, he', hlike⟩
  · rcases ofTokens_alike name hany with ⟨_, _, hsame, hsame', halike⟩ | ⟨_, _, he, _, _⟩
    · cases hok.symm.trans hsame
      cases hok'.symm.trans hsame'
      exact .inl ⟨script, script', hok, hok', halike.erase_eq,
        fun fuel m hm => halike.ends_alike fuel hm⟩
    · cases hok.symm.trans he
  · exact .inr ⟨e, e', he, he', hlike.cause_eq, hlike.position⟩

/-- The words of `return missing;`, at three places. -/
def Token.returnMissing (p q r : Position) : List Token :=
  [⟨.keyword .returnWord, p⟩, ⟨.identifier "missing", q⟩, ⟨.symbol .semicolon, r⟩]

/-- On one line or on three, the script is the same and fails for the same cause; only the place
that the fault names is another one. -/
theorem Script.layout_plays_no_part_returnMissing :
    ∃ script script',
      ofTokens "main" (Token.returnMissing ⟨"main", 1, 1⟩ ⟨"main", 1, 8⟩ ⟨"main", 1, 15⟩) =
        .ok script ∧
      ofTokens "main" (Token.returnMissing ⟨"main", 1, 1⟩ ⟨"main", 2, 1⟩ ⟨"main", 3, 1⟩) =
        .ok script' ∧
      script.erase = script'.erase ∧
      (Eval.execute 9 script (Machine.initial 8)).1 =
        .failed ⟨.variableNotDefined "missing", some ⟨"main", 1, 8⟩⟩ ∧
      ∃ p, (Eval.execute 9 script' (Machine.initial 8)).1 =
        .failed ⟨.variableNotDefined "missing", p⟩ := by
  have hwords : (Token.returnMissing ⟨"main", 1, 1⟩ ⟨"main", 1, 8⟩ ⟨"main", 1, 15⟩).map
      Token.lexeme = (Token.returnMissing ⟨"main", 1, 1⟩ ⟨"main", 2, 1⟩ ⟨"main", 3, 1⟩).map
      Token.lexeme := rfl
  have hok : ofTokens "main" (Token.returnMissing ⟨"main", 1, 1⟩ ⟨"main", 1, 8⟩ ⟨"main", 1, 15⟩) =
      .ok ⟨"main", [.returns ⟨"main", 1, 1⟩ (some (.var ⟨"main", 1, 8⟩ "missing"))], []⟩ := rfl
  rcases layout_plays_no_part "main" hwords with
    ⟨script, script', hscript, hscript', herase, hends⟩ | ⟨e, _, he, _⟩
  · cases hok.symm.trans hscript
    have hfailed : (Eval.execute 9
        ⟨"main", [.returns ⟨"main", 1, 1⟩ (some (.var ⟨"main", 1, 8⟩ "missing"))], []⟩
        (Machine.initial 8)).1 = .failed ⟨.variableNotDefined "missing", some ⟨"main", 1, 8⟩⟩ := by
      decide +kernel
    obtain ⟨⟨cause, p⟩, hfailed', hcause⟩ :=
      (hends 9 (Machine.initial 8) (Machine.not_knows_initial 8 _)).exists_failed hfailed
    cases hcause
    exact ⟨_, script', hscript, hscript', herase, hfailed, p, hfailed'⟩
  · cases hok.symm.trans he

end Scriptlet
