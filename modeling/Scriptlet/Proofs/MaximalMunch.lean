import Mathlib.Algebra.GroupWithZero.Nat
import Mathlib.Data.List.Forall2
import Scriptlet.Proofs.RuleOverlap

/-!
# Cutting lines by longest matches

At each place of a line the longest piece is taken that any rule applies to,
and a reserved word is never taken as a name (`Rule.Takes`).  Since rules share
no other texts, this leaves no choice: every line has exactly one such cut
(`Cut.Maximal`), up to a rest at whose beginning no rule applies.

The scan of a text finds this cut of each of its lines.  It gives the tokens of
the pieces if no line has a rest, and else complains about the first character
of the first rest.
-/

namespace Scriptlet

namespace Rule

/-- The rule takes a piece off a text, of which the rest remains. -/
structure Takes (rule : Rule) (piece rest : List Char) : Prop where
  /-- The rule applies to the piece. -/
  applies : rule.pattern.Matches piece
  /-- No rule applies to a longer beginning of the text. -/
  longest : ∀ (rule' : Rule) (piece' : List Char), piece' <+: piece ++ rest →
    rule'.pattern.Matches piece' → piece'.length ≤ piece.length
  /-- A name is not a reserved word. -/
  unreserved : rule = .identifier →
    ∀ rule' : Rule, rule'.reserved = true → ¬ rule'.pattern.Matches piece

/-- No rule applies to any beginning of the text. -/
def Stuck (text : List Char) : Prop :=
  ∀ (rule : Rule) (piece : List Char), piece <+: text → ¬ rule.pattern.Matches piece

namespace Takes

variable {rule rule' : Rule} {piece piece' rest rest' text : List Char}

/-- A rule takes one character at least. -/
theorem length_pos (h : rule.Takes piece rest) : 0 < piece.length := by
  rw [List.length_pos_iff]
  rintro rfl
  exact not_matches_nil rule h.applies

/-- A text off which a piece can be taken is not stuck. -/
theorem not_stuck (h : rule.Takes piece rest) : ¬ Stuck (piece ++ rest) := by
  intro hstuck
  exact hstuck rule piece (List.prefix_append piece rest) h.applies

/-- Of two pieces that are taken off one text none is longer than the other. -/
theorem length_le (h : rule.Takes piece rest) (h' : rule'.Takes piece' rest')
    (heq : piece ++ rest = piece' ++ rest') : piece.length ≤ piece'.length := by
  refine h'.longest rule piece ?_ h.applies
  rw [← heq]
  exact List.prefix_append piece rest

/-- **What is taken off a text is determined by it.** -/
theorem unique (h : rule.Takes piece rest) (h' : rule'.Takes piece' rest')
    (heq : piece ++ rest = piece' ++ rest') : rule = rule' ∧ piece = piece' ∧ rest = rest' := by
  have hlength : piece.length = piece'.length :=
    Nat.le_antisymm (h.length_le h' heq) (h'.length_le h heq.symm)
  obtain ⟨rfl, rfl⟩ := List.append_inj heq hlength
  refine ⟨?_, rfl, rfl⟩
  rcases eq_of_matches h.applies h'.applies with hrule | ⟨hreserved, hname⟩ | ⟨hreserved, hname⟩
  · exact hrule
  · exact absurd h.applies (h'.unreserved hname rule hreserved)
  · exact absurd h'.applies (h.unreserved hname rule' hreserved)

end Takes

/-! ## The choice of a rule -/

/-- Of the rules in a list this one has the longest match at the beginning of a
text, and stands before all others whose match is equally long. -/
structure Strongest (rules : List Rule) (text : List Char) (rule : Rule) (n : Nat) : Prop where
  found : rule.pattern.longest? text = some n
  listed : rule ∈ rules
  beats : ∀ r ∈ rules, ∀ m, r.pattern.longest? text = some m →
    m < n ∨ (m = n ∧ (r = rule ∨ [rule, r].Sublist rules))

/-- A further rule with a longer match than all before it is the strongest. -/
theorem Strongest.of_shorter {rules : List Rule} {text : List Char} {rule : Rule} {n : Nat}
    (hfound : rule.pattern.longest? text = some n)
    (hshorter : ∀ r ∈ rules, ∀ m, r.pattern.longest? text = some m → m < n) :
    Strongest (rules ++ [rule]) text rule n := by
  refine ⟨hfound, by simp, fun r hr m hm => ?_⟩
  rcases List.mem_append.mp hr with hbefore | hlast
  · exact .inl (hshorter r hbefore m hm)
  · have hsame : r = rule := List.mem_singleton.mp hlast
    rw [hsame, hfound] at hm
    cases hm
    exact .inr ⟨rfl, .inl hsame⟩

/-- A further rule without a longer match leaves the strongest one as it is. -/
theorem Strongest.append_singleton {rules : List Rule} {text : List Char} {rule : Rule} {n : Nat}
    (h : Strongest rules text rule n) {further : Rule}
    (hle : ∀ m, further.pattern.longest? text = some m → m ≤ n) :
    Strongest (rules ++ [further]) text rule n := by
  refine ⟨h.found, List.mem_append_left _ h.listed, fun r hr m hm => ?_⟩
  rcases List.mem_append.mp hr with hbefore | hlast
  · refine (h.beats r hbefore m hm).imp_right (And.imp_right (Or.imp_right ?_))
    intro hsublist
    exact hsublist.trans (List.sublist_append_left rules [further])
  · rw [List.mem_singleton.mp hlast] at hm ⊢
    rcases Nat.lt_or_eq_of_le (hle m hm) with hlt | heq
    · exact .inl hlt
    · -- equally long: the rule that was there stands before the further one
      have hbefore : [rule, further].Sublist (rules ++ [further]) :=
        (List.singleton_sublist.mpr h.listed).append (List.Sublist.refl [further])
      exact .inr ⟨heq, .inr hbefore⟩

/-- What is known of the best match with the rules seen so far. -/
def BestMatch (seen : List Rule) (text : List Char) : Option (Rule × Nat) → Prop
  | none => ∀ r ∈ seen, r.pattern.longest? text = none
  | some (rule, n) => Strongest seen text rule n

/-- A further rule takes the place of the best match only if its match is longer. -/
theorem BestMatch.longer {seen : List Rule} {text : List Char} {best : Option (Rule × Nat)}
    (h : BestMatch seen text best) (r : Rule) :
    BestMatch (seen ++ [r]) text (longer best ((r.pattern.longest? text).map (r, ·))) := by
  match best with
  | none =>
      cases hr : r.pattern.longest? text with
      | none =>
          intro r' hr'
          rcases List.mem_append.mp hr' with hseen | hnew
          · exact h r' hseen
          · rw [List.mem_singleton.mp hnew]
            exact hr
      | some n =>
          refine Strongest.of_shorter hr fun r' hr' m hm => ?_
          rw [h r' hr'] at hm
          cases hm
  | some (rule, n) =>
      have hbest : Strongest seen text rule n := h
      cases hr : r.pattern.longest? text with
      | none =>
          refine hbest.append_singleton fun m hm => ?_
          rw [hr] at hm
          cases hm
      | some n' =>
          simp only [Option.map_some, Rule.longer]
          split
          next hlt =>
            refine Strongest.of_shorter hr fun r' hr' m hm => ?_
            have hle := hbest.beats r' hr' m hm
            omega
          next hge =>
            refine hbest.append_singleton fun m hm => ?_
            rw [hr] at hm
            cases hm
            exact Nat.le_of_not_lt hge

/-- The search through further rules keeps what is known of the best match. -/
theorem BestMatch.foldl {seen : List Rule} {text : List Char} {best : Option (Rule × Nat)}
    (h : BestMatch seen text best) (rules : List Rule) :
    BestMatch (seen ++ rules) text
      (rules.foldl (fun best r => Rule.longer best ((r.pattern.longest? text).map (r, ·)))
        best) := by
  induction rules generalizing seen best with
  | nil => simpa using h
  | cons r rules ih => simpa using ih (h.longer r)

/-- The search through all rules finds the best match. -/
theorem bestMatch_longest? (text : List Char) : BestMatch all text (longest? text) := by
  have hnone : BestMatch [] text none := by
    intro r hr
    cases hr
  exact hnone.foldl all

/-- Every reserved word stands before names. -/
theorem not_sublist_of_reserved {rule : Rule} (h : rule.reserved = true) :
    ¬ [.identifier, rule].Sublist all := by
  have hall : ∀ r ∈ all, r.reserved = true → ¬ [.identifier, r].Sublist all := by decide +kernel
  exact hall rule (mem_all rule) h

/-- Where the search finds nothing, no rule applies. -/
theorem stuck_of_longest?_eq_none {text : List Char} (h : longest? text = none) : Stuck text := by
  have hbest := bestMatch_longest? text
  rw [h] at hbest
  intro rule piece hpiece
  exact Pattern.not_matches_of_longest?_eq_none (hbest rule (mem_all rule)) hpiece

/-- What the search finds is taken off the text by its rule. -/
theorem takes_of_longest?_eq_some {text : List Char} {rule : Rule} {n : Nat}
    (h : longest? text = some (rule, n)) :
    n ≤ text.length ∧ rule.Takes (text.take n) (text.drop n) := by
  have hbest := bestMatch_longest? text
  rw [h] at hbest
  obtain ⟨hfound, -, hbeats⟩ := hbest
  obtain ⟨hn, hmatches, -⟩ := Pattern.matches_of_longest?_eq_some hfound
  -- a rule that applies to a beginning has a match at least as long as this
  have hmatch : ∀ (rule' : Rule) (piece' : List Char), piece' <+: text →
      rule'.pattern.Matches piece' →
      ∃ m, rule'.pattern.longest? text = some m ∧ piece'.length ≤ m := by
    intro rule' piece' hpiece' hmatches'
    cases hm : rule'.pattern.longest? text with
    | none => exact absurd hmatches' (Pattern.not_matches_of_longest?_eq_none hm hpiece')
    | some m =>
        exact ⟨m, rfl, (Pattern.matches_of_longest?_eq_some hm).2.2 piece' hpiece' hmatches'⟩
  refine ⟨hn, hmatches, ?_, ?_⟩
  · intro rule' piece' hpiece' hmatches'
    rw [List.take_append_drop] at hpiece'
    obtain ⟨m, hm, hle⟩ := hmatch rule' piece' hpiece' hmatches'
    have hbeaten := hbeats rule' (mem_all rule') m hm
    rw [List.length_take, Nat.min_eq_left hn]
    omega
  · rintro rfl rule' hreserved hmatches'
    obtain ⟨m, hm, hle⟩ := hmatch rule' (text.take n) (List.take_prefix n text) hmatches'
    rw [List.length_take, Nat.min_eq_left hn] at hle
    rcases hbeats rule' (mem_all rule') m hm with hlt | ⟨-, rfl | hbefore⟩
    · omega
    · cases hreserved
    · exact not_sublist_of_reserved hreserved hbefore

/-- The search finds no rule exactly where none applies. -/
theorem longest?_of_stuck {text : List Char} (h : Stuck text) : longest? text = none := by
  cases hfound : longest? text with
  | none => rfl
  | some found =>
      have htakes := (takes_of_longest?_eq_some hfound).2.not_stuck
      rw [List.take_append_drop] at htakes
      exact absurd h htakes

/-- **The search finds the rule and the length of what is taken.** -/
theorem longest?_of_takes {rule : Rule} {piece rest : List Char} (h : rule.Takes piece rest) :
    longest? (piece ++ rest) = some (rule, piece.length) := by
  cases hfound : longest? (piece ++ rest) with
  | none => exact absurd (stuck_of_longest?_eq_none hfound) h.not_stuck
  | some found =>
      obtain ⟨rule', n⟩ := found
      obtain ⟨hn, htakes⟩ := takes_of_longest?_eq_some hfound
      obtain ⟨rfl, hpiece, -⟩ := h.unique htakes (List.take_append_drop n _).symm
      have hlength := congrArg List.length hpiece
      rw [List.length_take, Nat.min_eq_left hn] at hlength
      rw [hlength]

end Rule

/-! ## Cuts of a line -/

/-- A line cut into pieces, each taken by a rule, up to a rest. -/
structure Cut where
  pieces : List (Rule × List Char)
  rest : List Char

namespace Cut

/-- Each piece is taken by its rule off what remains of the line, until no rule
applies. -/
inductive Maximal : List Char → Cut → Prop where
  | stuck {text : List Char} (h : Rule.Stuck text) : Maximal text ⟨[], text⟩
  | piece {text : List Char} {rule : Rule} {piece remaining : List Char} {cut : Cut}
      (htext : text = piece ++ remaining) (htakes : rule.Takes piece remaining)
      (hcut : Maximal remaining cut) : Maximal text ⟨(rule, piece) :: cut.pieces, cut.rest⟩

/-- Every line can be cut until no rule applies, since each piece makes it shorter. -/
theorem exists_maximal (text : List Char) : ∃ cut, Maximal text cut := by
  induction hlength : text.length using Nat.strongRecOn generalizing text with
  | _ length ih =>
      cases hfound : Rule.longest? text with
      | none => exact ⟨_, .stuck (Rule.stuck_of_longest?_eq_none hfound)⟩
      | some found =>
          obtain ⟨rule, n⟩ := found
          obtain ⟨hn, htakes⟩ := Rule.takes_of_longest?_eq_some hfound
          have hpos := htakes.length_pos
          rw [List.length_take, Nat.min_eq_left hn] at hpos
          have hshorter : (text.drop n).length < length := by
            rw [List.length_drop]
            omega
          obtain ⟨cut, hcut⟩ := ih _ hshorter (text.drop n) rfl
          exact ⟨_, .piece (List.take_append_drop n text).symm htakes hcut⟩

/-- **A line has only one maximal cut.** -/
theorem Maximal.unique {text : List Char} {cut cut' : Cut} (h : Maximal text cut)
    (h' : Maximal text cut') : cut = cut' := by
  induction h generalizing cut' with
  | stuck hstuck =>
      cases h' with
      | stuck => rfl
      | piece htext htakes => exact absurd (htext ▸ hstuck) htakes.not_stuck
  | piece htext htakes _ ih =>
      cases h' with
      | stuck hstuck => exact absurd (htext ▸ hstuck) htakes.not_stuck
      | piece htext' htakes' hcut' =>
          obtain ⟨rfl, rfl, rfl⟩ := htakes.unique htakes' (htext.symm.trans htext')
          rw [ih hcut']

/-- The tokens of pieces that stand one after the other from a place on. -/
def tokensOf (here : Position) : List (Rule × List Char) → List Token
  | [] => []
  | (rule, piece) :: pieces =>
    ((rule.lexeme? piece).map (Token.mk · here)).toList
      ++ tokensOf { here with column := here.column + piece.length } pieces

/-- The tokens of a line, given its number. -/
def tokens (script : String) (line : Nat) (cut : Cut) : List Token :=
  tokensOf ⟨script, line, 1⟩ cut.pieces

/-- How many characters the pieces have. -/
def width (cut : Cut) : Nat := (cut.pieces.map fun piece => piece.2.length).sum

end Cut

/-! ## The scan of a line -/

namespace Token

/-- Passing over a character moves the place by a column. -/
theorem scanFrom_succ_cons (here : Position) (skip : Nat) (c : Char) (cs : List Char) :
    scanFrom here (skip + 1) (c :: cs) =
      scanFrom { here with column := here.column + 1 } skip cs := rfl

-- kept shut, or the check of the equation runs the search on an unknown text
attribute [local irreducible] Rule.longest? in
/-- At the beginning of a piece the longest match decides, and the token is put before those
that follow. -/
theorem scanFrom_zero_cons (here : Position) (c : Char) (cs : List Char) :
    scanFrom here 0 (c :: cs) =
      (match Rule.longest? (c :: cs) with
      | none => .error ⟨.unknownToken (String.singleton c), some here⟩
      | some (rule, length) => do
        let rest ← scanFrom { here with column := here.column + 1 } (length - 1) cs
        match rule.lexeme? ((c :: cs).take length) with
        | some lexeme => pure (⟨lexeme, here⟩ :: rest)
        | none => pure rest) := rfl

/-- Characters that are skipped only count for the column. -/
theorem scanFrom_skip (here : Position) {skip : Nat} {text : List Char}
    (h : skip ≤ text.length) :
    scanFrom here skip text =
      scanFrom { here with column := here.column + skip } 0 (text.drop skip) := by
  induction skip generalizing here text with
  | zero => rfl
  | succ skip ih =>
      cases text with
      | nil => cases h
      | cons c cs =>
          rw [scanFrom_succ_cons, ih _ (Nat.le_of_succ_le_succ h), List.drop_succ_cons]
          simp only [Nat.add_assoc, Nat.add_comm 1]

/-- Where no rule applies the first character is an unknown token, at its place. -/
theorem scanFrom_of_stuck (here : Position) {c : Char} {cs : List Char}
    (h : Rule.Stuck (c :: cs)) :
    scanFrom here 0 (c :: cs) = .error ⟨.unknownToken (String.singleton c), some here⟩ := by
  rw [scanFrom_zero_cons, Rule.longest?_of_stuck h]

/-- The scan takes off a piece and goes on with what remains. -/
theorem scanFrom_of_takes (here : Position) {rule : Rule} {piece remaining : List Char}
    (h : rule.Takes piece remaining) :
    scanFrom here 0 (piece ++ remaining) =
      (scanFrom { here with column := here.column + piece.length } 0 remaining).map
        (((rule.lexeme? piece).map (Token.mk · here)).toList ++ ·) := by
  have hlongest := Rule.longest?_of_takes h
  cases piece with
  | nil => exact absurd h.length_pos (Nat.lt_irrefl 0)
  | cons c cs =>
      have hskip : scanFrom { here with column := here.column + 1 } cs.length (cs ++ remaining) =
          scanFrom { here with column := here.column + (c :: cs).length } 0 remaining := by
        rw [scanFrom_skip _ (by simp), List.drop_left]
        simp only [List.length_cons, Nat.add_assoc, Nat.add_comm 1]
      rw [List.cons_append] at hlongest ⊢
      rw [scanFrom_zero_cons, hlongest]
      simp only [List.length_cons, Nat.add_sub_cancel, hskip, List.take_succ_cons, List.take_left]
      cases scanFrom { here with column := here.column + (cs.length + 1) } 0 remaining <;>
        cases rule.lexeme? (c :: cs) <;> rfl

/-- A line without a rest gives the tokens of its pieces. -/
theorem scanFrom_of_rest_nil {text : List Char} {cut : Cut} (h : cut.Maximal text)
    (hrest : cut.rest = []) (here : Position) :
    scanFrom here 0 text = .ok (Cut.tokensOf here cut.pieces) := by
  induction h generalizing here with
  | stuck _ =>
      cases hrest
      rfl
  | piece htext htakes _ ih =>
      rw [htext, scanFrom_of_takes here htakes, ih hrest]
      rfl

/-- A line with a rest gives a complaint about the first character of this. -/
theorem scanFrom_of_rest_cons {text : List Char} {cut : Cut} (h : cut.Maximal text)
    {c : Char} {cs : List Char} (hrest : cut.rest = c :: cs) (here : Position) :
    scanFrom here 0 text = .error ⟨.unknownToken (String.singleton c),
      some { here with column := here.column + cut.width }⟩ := by
  induction h generalizing here with
  | stuck hstuck =>
      cases hrest
      exact scanFrom_of_stuck here hstuck
  | piece htext htakes _ ih =>
      rw [htext, scanFrom_of_takes here htakes, ih hrest]
      simp only [Except.map, Cut.width, List.map_cons, List.sum_cons, Nat.add_assoc]

end Token

/-! ## The scan of all lines -/

namespace Cut

/-- The tokens of all lines, which are numbered from `line` on. -/
def allTokens (script : String) (line : Nat) (cuts : List Cut) : List Token :=
  (cuts.zipIdx line).flatMap fun (cut, line) => cut.tokens script line

/-- The error is about the first character that no rule takes: it names this
character, the line and the column. -/
def Blames (script : String) (cuts : List Cut) (e : ParseError) : Prop :=
  ∃ before cut after c cs, cuts = before ++ cut :: after ∧ (∀ b ∈ before, b.rest = []) ∧
    cut.rest = c :: cs ∧
    e = ⟨.unknownToken (String.singleton c), some ⟨script, before.length + 1, cut.width + 1⟩⟩

/-- Either every line is cut to its end or there is a first that is not. -/
theorem rest_nil_or_blames (script : String) (cuts : List Cut) :
    (∀ cut ∈ cuts, cut.rest = []) ∨ ∃ e, Blames script cuts e := by
  induction cuts with
  | nil => exact .inl (by simp)
  | cons cut cuts ih =>
      cases hrest : cut.rest with
      | cons c cs => exact .inr ⟨_, [], cut, cuts, c, cs, rfl, by simp, hrest, rfl⟩
      | nil =>
          rcases ih with hall | ⟨_, before, cut', after, c, cs, rfl, hbefore, hcut', -⟩
          · exact .inl (List.forall_mem_cons.mpr ⟨hrest, hall⟩)
          · refine .inr ⟨_, cut :: before, cut', after, c, cs, rfl, ?_, hcut', rfl⟩
            exact List.forall_mem_cons.mpr ⟨hrest, hbefore⟩

end Cut

namespace Token

/-- Lines of which nothing remains give the tokens of their pieces. -/
theorem scanLinesFrom_of_rest_nil (script : String) {texts : List (List Char)} {cuts : List Cut}
    (h : List.Forall₂ Cut.Maximal texts cuts) (hrest : ∀ cut ∈ cuts, cut.rest = [])
    (line : Nat) : scanLinesFrom script line texts = .ok (Cut.allTokens script line cuts) := by
  induction h generalizing line with
  | nil => rfl
  | cons hcut _ ih =>
      obtain ⟨hhead, htail⟩ := List.forall_mem_cons.mp hrest
      rw [scanLinesFrom, scanLine, scanFrom_of_rest_nil hcut hhead, ih htail]
      rfl

/-- The first line of which something remains gives an error at the first character that no
rule takes. -/
theorem scanLinesFrom_of_rest_cons (script : String) {texts : List (List Char)}
    {before after : List Cut} {cut : Cut}
    (h : List.Forall₂ Cut.Maximal texts (before ++ cut :: after))
    (hbefore : ∀ b ∈ before, b.rest = []) {c : Char} {cs : List Char}
    (hrest : cut.rest = c :: cs) (line : Nat) :
    scanLinesFrom script line texts = .error ⟨.unknownToken (String.singleton c),
      some ⟨script, line + before.length, cut.width + 1⟩⟩ := by
  induction before generalizing texts line with
  | nil =>
      cases h with
      | cons hcut _ =>
          rw [scanLinesFrom, scanLine, scanFrom_of_rest_cons hcut hrest, Nat.add_comm 1]
          rfl
  | cons b before ih =>
      obtain ⟨hhead, htail⟩ := List.forall_mem_cons.mp hbefore
      cases h with
      | cons hcut hcuts =>
          rw [scanLinesFrom, scanLine, scanFrom_of_rest_nil hcut hhead, ih hcuts htail,
            List.length_cons, Nat.add_assoc line 1, Nat.add_comm 1]
          rfl

/-- **The scan is by longest matches.**  Every line has one maximal cut.  The
scan succeeds if all of these reach the ends of their lines, and gives the
tokens of the pieces; else it fails at the first character that is left. -/
theorem scanLines_by_maximal_cuts (script : String) (lines : List String) :
    ∃ cuts : List Cut,
      (∀ cuts', List.Forall₂ (fun line cut => cut.Maximal line.toList) lines cuts' ↔
        cuts' = cuts) ∧
      (∀ tokens, scanLines script lines = .ok tokens ↔
        (∀ cut ∈ cuts, cut.rest = []) ∧ tokens = Cut.allTokens script 1 cuts) ∧
      ∀ e, scanLines script lines = .error e ↔ Cut.Blames script cuts e := by
  obtain ⟨cutOf, hcutOf⟩ := Classical.skolem.mp Cut.exists_maximal
  have hcuts : List.Forall₂ Cut.Maximal (lines.map String.toList)
      ((lines.map String.toList).map cutOf) :=
    List.forall₂_map_right_iff.mpr (List.forall₂_same.mpr fun text _ => hcutOf text)
  generalize (lines.map String.toList).map cutOf = cuts at hcuts
  have hblames : ∀ e, Cut.Blames script cuts e → scanLines script lines = .error e := by
    rintro e ⟨before, cut, after, c, cs, rfl, hbefore, hrest, rfl⟩
    rw [scanLines, scanLinesFrom_of_rest_cons script hcuts hbefore hrest, Nat.add_comm 1]
  have hcomplete : (∀ cut ∈ cuts, cut.rest = []) →
      scanLines script lines = .ok (Cut.allTokens script 1 cuts) := by
    intro hrest
    exact scanLinesFrom_of_rest_nil script hcuts hrest 1
  refine ⟨cuts, fun cuts' => ?_, fun tokens => ?_, fun e => ?_⟩
  · rw [← List.forall₂_map_left_iff]
    constructor
    · intro hcuts'
      exact List.right_unique_forall₂' (fun _ _ _ h h' => h.unique h') hcuts' hcuts
    · rintro rfl
      exact hcuts
  · constructor
    · intro hok
      rcases Cut.rest_nil_or_blames script cuts with hrest | ⟨e, hblamed⟩
      · rw [hcomplete hrest] at hok
        cases hok
        exact ⟨hrest, rfl⟩
      · rw [hblames e hblamed] at hok
        cases hok
    · rintro ⟨hrest, rfl⟩
      exact hcomplete hrest
  · constructor
    · intro herror
      rcases Cut.rest_nil_or_blames script cuts with hrest | ⟨e', hblamed⟩
      · rw [hcomplete hrest] at herror
        cases herror
      · rw [hblames e' hblamed] at herror
        cases herror
        exact hblamed
    · exact hblames e

example : scanLines "s" ["0x 1e+2"] =
    .ok [⟨.integer "0", ⟨"s", 1, 1⟩⟩, ⟨.identifier "x", ⟨"s", 1, 2⟩⟩,
      ⟨.double "1e+2", ⟨"s", 1, 4⟩⟩] := rfl

end Token

end Scriptlet
