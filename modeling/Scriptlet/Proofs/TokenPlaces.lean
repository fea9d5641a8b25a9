import Scriptlet.Proofs.DatumTokens

/-!
# Places that the scan gives

Every token is placed in the script that is scanned, on one of its lines.  If a
line cannot be cut to its end, the error is at the first character that no rule
takes.
-/

namespace Scriptlet

/-- The character at a place of the lines, which count from one like the columns. -/
def Position.charAt? (lines : List (List Char)) (p : Position) : Option Char :=
  match p.line, p.column with
  | line + 1, column + 1 => lines[line]?.bind fun text => text[column]?
  | _, _ => none

namespace Cut

variable {text : List Char} {cut : Cut}

/-- The pieces of a cut and its rest are the whole line. -/
theorem Maximal.text_eq (h : cut.Maximal text) : text = textOf cut.pieces ++ cut.rest := by
  induction h with
  | stuck => rfl
  | piece htext _ _ ih =>
      rw [htext, ih, textOf_cons, List.append_assoc, ← ih]

/-- The width of a cut is the length of its text. -/
theorem width_eq (cut : Cut) : cut.width = (textOf cut.pieces).length := by
  rw [width, textOf, List.length_flatMap]

/-- The tokens of pieces are on the line where the pieces begin. -/
theorem position_of_mem_tokensOf {here : Position} {pieces : List (Rule × List Char)} {t : Token}
    (h : t ∈ tokensOf here pieces) :
    t.position.script = here.script ∧ t.position.line = here.line := by
  induction pieces generalizing here with
  | nil => cases h
  | cons piece pieces ih =>
      obtain ⟨rule, piece⟩ := piece
      rcases List.mem_append.mp h with hfirst | hmore
      · obtain ⟨lexeme, -, rfl⟩ := Option.map_eq_some_iff.mp (Option.mem_toList.mp hfirst)
        exact ⟨rfl, rfl⟩
      · have hplace := ih hmore
        exact hplace

/-- The tokens of lines are on the first of these lines or later. -/
theorem position_of_mem_allTokens {script : String} {first : Nat} {cuts : List Cut} {t : Token}
    (h : t ∈ allTokens script first cuts) :
    t.position.script = script ∧ first ≤ t.position.line := by
  obtain ⟨⟨cut, line⟩, hcut, ht⟩ := List.mem_flatMap.mp h
  obtain ⟨hscript, hline⟩ := position_of_mem_tokensOf ht
  refine ⟨hscript, ?_⟩
  rw [hline]
  exact (List.mem_zipIdx hcut).1

/-- An error is about the character at its place. -/
theorem Blames.charAt? {script : String} {texts : List (List Char)} {cuts : List Cut}
    {e : ParseError} (h : Blames script cuts e) (hcuts : List.Forall₂ Maximal texts cuts) :
    ∃ c p, e = ⟨.unknownToken (String.singleton c), some p⟩ ∧ p.script = script ∧
      p.charAt? texts = some c := by
  obtain ⟨before, cut, after, c, cs, rfl, -, hrest, rfl⟩ := h
  refine ⟨c, _, rfl, rfl, ?_⟩
  have hdrop := List.forall₂_drop_append texts before (cut :: after) hcuts
  obtain ⟨text, texts', hcut, -, htexts⟩ := List.forall₂_cons_right_iff.mp hdrop
  have hline : texts[before.length]? = some text := by
    rw [← List.head?_drop, htexts]
    rfl
  have hcolumn : text[cut.width]? = some c := by
    rw [hcut.text_eq, hrest, width_eq, List.getElem?_append_right (Nat.le_refl _), Nat.sub_self]
    rfl
  simp only [Position.charAt?, hline, Option.bind_some, hcolumn]

end Cut

namespace Token

/-- The scan gives tokens that are placed in the script, or an error about a character. -/
theorem scanLinesFrom_cases (script : String) (texts : List (List Char)) :
    (∃ tokens, scanLinesFrom script 1 texts = .ok tokens ∧
        ∀ t ∈ tokens, t.position.script = script ∧ 0 < t.position.line) ∨
      ∃ c p, scanLinesFrom script 1 texts =
          .error ⟨.unknownToken (String.singleton c), some p⟩ ∧
        p.script = script ∧ p.charAt? texts = some c := by
  obtain ⟨cutOf, hcutOf⟩ := Classical.skolem.mp Cut.exists_maximal
  have hcuts : List.Forall₂ Cut.Maximal texts (texts.map cutOf) :=
    List.forall₂_map_right_iff.mpr (List.forall₂_same.mpr fun text _ => hcutOf text)
  rcases Cut.rest_nil_or_blames script (texts.map cutOf) with hrest | ⟨e, hblames⟩
  · refine .inl ⟨_, scanLinesFrom_of_rest_nil script hcuts hrest 1, fun t ht => ?_⟩
    exact Cut.position_of_mem_allTokens ht
  · obtain ⟨c, p, rfl, hscript, hc⟩ := hblames.charAt? hcuts
    refine .inr ⟨c, p, ?_, hscript, hc⟩
    obtain ⟨before, cut, after, d, cs, heq, hbefore, hrest, hp⟩ := hblames
    rw [heq] at hcuts
    rw [hp, scanLinesFrom_of_rest_cons script hcuts hbefore hrest, Nat.add_comm 1]

/-- The tokens of a script are placed in it. -/
theorem position_of_mem_scan {script text : String} {tokens : List Token}
    (h : scan script text = .ok tokens) {t : Token} (ht : t ∈ tokens) :
    t.position.script = script ∧ 0 < t.position.line := by
  rcases scanLinesFrom_cases script (linesOf (unifyLineEnds text.toList)) with
    ⟨tokens', hscan, hplaced⟩ | ⟨c, p, hscan, -⟩ <;> rw [scan, hscan] at h <;> cases h
  exact hplaced t ht

end Token

end Scriptlet
