import Scriptlet.Pattern

/-!
# What a search with a pattern finds

The derivative of a pattern by a character denotes exactly what may follow this
character (`Pattern.matches_derivative`).  So the search along a text, one
derivative per character, finds the longest beginning of the text that the
pattern denotes (`Pattern.matches_of_longest?_eq_some`), and finds nothing only
if no beginning is denoted (`Pattern.not_matches_of_longest?_eq_none`).
-/

namespace Scriptlet.Pattern

variable {p q : Pattern} {c : Char} {s t : List Char}

/-! ## The sets that patterns denote -/

/-- The pattern `never` denotes no text. -/
theorem not_matches_never : ¬ Matches .never s := by
  intro h
  cases h

/-- The pattern `empty` denotes the empty text only. -/
theorem matches_empty_iff : Matches .empty s ↔ s = [] := by
  constructor
  · intro h
    cases h
    rfl
  · rintro rfl
    exact .empty

/-- A test for a character denotes the texts of one character that passes it. -/
theorem matches_char_iff {test : Char → Bool} :
    Matches (.char test) s ↔ ∃ c, test c = true ∧ s = [c] := by
  constructor
  · intro h
    cases h with
    | char htest => exact ⟨_, htest, rfl⟩
  · rintro ⟨c, htest, rfl⟩
    exact .char htest

/-- A test for a character denotes no text of more characters than one. -/
theorem matches_char_cons_iff {test : Char → Bool} :
    Matches (.char test) (c :: s) ↔ test c = true ∧ s = [] := by
  rw [matches_char_iff]
  constructor
  · rintro ⟨c', htest, heq⟩
    cases heq
    exact ⟨htest, rfl⟩
  · rintro ⟨htest, rfl⟩
    exact ⟨c, htest, rfl⟩

/-- A choice denotes what one of its parts does. -/
theorem matches_either_iff : Matches (.either p q) s ↔ Matches p s ∨ Matches q s := by
  constructor
  · intro h
    cases h with
    | left h => exact .inl h
    | right h => exact .inr h
  · rintro (h | h)
    · exact .left h
    · exact .right h

/-- A sequence denotes what can be cut into a text of each part. -/
theorem matches_andThen_iff :
    Matches (.andThen p q) s ↔ ∃ u v, s = u ++ v ∧ Matches p u ∧ Matches q v := by
  constructor
  · intro h
    cases h with
    | andThen hp hq => exact ⟨_, _, rfl, hp, hq⟩
  · rintro ⟨u, v, rfl, hp, hq⟩
    exact .andThen hp hq

/-- A text of many pieces that is not empty begins with a piece that is not. -/
theorem matches_many_cons_iff :
    Matches (.many p) (c :: s) ↔
      ∃ u v, s = u ++ v ∧ Matches p (c :: u) ∧ Matches (.many p) v := by
  constructor
  · intro h
    generalize hpattern : Pattern.many p = pattern at h
    generalize htext : c :: s = text at h
    induction h with
    | none => cases htext
    | @more p' s' t' hp hq _ ih =>
        cases hpattern
        cases s' with
        -- an empty piece in front adds nothing
        | nil => exact ih rfl htext
        | cons c' s' =>
            cases htext
            exact ⟨s', t', rfl, hp, hq⟩
    | _ => cases hpattern
  · rintro ⟨u, v, rfl, hp, hq⟩
    exact .more hp hq

/-- The one text of a literal is its own. -/
theorem matches_literal_iff {text : List Char} : Matches (literal text) s ↔ s = text := by
  induction text generalizing s with
  | nil => exact matches_empty_iff
  | cons c cs ih =>
      unfold literal only
      rw [matches_andThen_iff]
      constructor
      · rintro ⟨u, v, rfl, hu, hv⟩
        obtain ⟨c', hc', rfl⟩ := matches_char_iff.mp hu
        rw [beq_iff_eq] at hc'
        rw [hc', ih.mp hv, List.singleton_append]
      · rintro rfl
        exact ⟨[c], cs, rfl, .char (beq_self_eq_true c), ih.mpr rfl⟩

/-! ## Derivatives -/

/-- A pattern is nullable if and only if it denotes the empty text. -/
theorem nullable_iff : p.nullable = true ↔ Matches p [] := by
  induction p with
  | never => simp [nullable, not_matches_never]
  | empty => simp [nullable, Matches.empty]
  | char test => simp [nullable, matches_char_iff]
  | either p q ihp ihq => simp [nullable, matches_either_iff, ihp, ihq]
  | andThen p q ihp ihq =>
      simp only [nullable, Bool.and_eq_true, ihp, ihq, matches_andThen_iff]
      constructor
      · rintro ⟨hp, hq⟩
        exact ⟨[], [], rfl, hp, hq⟩
      · rintro ⟨u, v, huv, hp, hq⟩
        obtain ⟨rfl, rfl⟩ := List.nil_eq_append_iff.mp huv
        exact ⟨hp, hq⟩
  | many p _ => simp [nullable, Matches.none]

/-- The simplified choice denotes what the choice does. -/
theorem matches_join : Matches (join p q) s ↔ Matches p s ∨ Matches q s := by
  unfold join
  split
  · simp [not_matches_never]
  · simp [not_matches_never]
  · exact matches_either_iff

/-- The simplified sequence denotes what the sequence does. -/
theorem matches_chain :
    Matches (chain p q) s ↔ ∃ u v, s = u ++ v ∧ Matches p u ∧ Matches q v := by
  unfold chain
  split
  · simp [not_matches_never]
  · simp [not_matches_never]
  · constructor
    · intro h
      exact ⟨[], s, rfl, .empty, h⟩
    · rintro ⟨u, v, rfl, hu, hv⟩
      rw [matches_empty_iff.mp hu]
      exact hv
  · exact matches_andThen_iff

/-- A sequence that is not empty begins in its first part, unless this is empty. -/
theorem matches_andThen_cons_iff :
    Matches (.andThen p q) (c :: s) ↔
      (∃ u v, s = u ++ v ∧ Matches p (c :: u) ∧ Matches q v) ∨
        (Matches p [] ∧ Matches q (c :: s)) := by
  rw [matches_andThen_iff]
  constructor
  · rintro ⟨u, v, huv, hp, hq⟩
    rcases List.cons_eq_append_iff.mp huv with ⟨rfl, rfl⟩ | ⟨u', rfl, rfl⟩
    · exact .inr ⟨hp, hq⟩
    · exact .inl ⟨u', v, rfl, hp, hq⟩
  · rintro (⟨u, v, rfl, hp, hq⟩ | ⟨hp, hq⟩)
    · exact ⟨c :: u, v, rfl, hp, hq⟩
    · exact ⟨[], c :: s, rfl, hp, hq⟩

/-- **The derivative by a character denotes what may follow it.** -/
theorem matches_derivative : Matches (p.derivative c) s ↔ Matches p (c :: s) := by
  induction p generalizing s with
  | never => simp [derivative, not_matches_never]
  | empty => simp [derivative, not_matches_never, matches_empty_iff]
  | char test =>
      unfold derivative
      rw [matches_char_cons_iff]
      split
      next htest => simp [matches_empty_iff, htest]
      next htest => simp [not_matches_never, htest]
  | either p q ihp ihq => simp only [derivative, matches_join, matches_either_iff, ihp, ihq]
  | andThen p q ihp ihq =>
      rw [matches_andThen_cons_iff, ← nullable_iff]
      unfold derivative
      split
      next hnullable => simp only [matches_join, matches_chain, ihp, ihq, hnullable, true_and]
      next hnullable => simp [matches_chain, ihp, hnullable]
  | many p ih => simp only [derivative, matches_chain, matches_many_cons_iff, ih]

/-- Whether the pattern denotes a text, found by derivatives. -/
def accepts (p : Pattern) (s : List Char) : Bool :=
  (s.foldl (fun p c => p.derivative c) p).nullable

/-- Derivatives decide which texts a pattern denotes. -/
theorem accepts_iff : p.accepts s = true ↔ Matches p s := by
  induction s generalizing p with
  | nil => exact nullable_iff
  | cons c s ih =>
      rw [← matches_derivative]
      exact ih

instance : Decidable (Matches p s) :=
  decidable_of_iff _ accepts_iff

/-! ## The characters of a text -/

/-- Whether a text of the pattern may begin with a character. -/
def canStart : Pattern → Char → Bool
  | .never, _ => false
  | .empty, _ => false
  | .char test, c => test c
  | .either p q, c => p.canStart c || q.canStart c
  | .andThen p q, c => p.canStart c || (p.nullable && q.canStart c)
  | .many p, c => p.canStart c

/-- A text of the pattern begins with a character that it may begin with. -/
theorem canStart_of_matches (h : Matches p (c :: s)) : p.canStart c = true := by
  induction p generalizing s with
  | never => exact absurd h not_matches_never
  | empty => cases matches_empty_iff.mp h
  | char test => exact (matches_char_cons_iff.mp h).1
  | either p q ihp ihq =>
      rw [canStart, Bool.or_eq_true]
      rcases matches_either_iff.mp h with hp | hq
      · exact .inl (ihp hp)
      · exact .inr (ihq hq)
  | andThen p q ihp ihq =>
      rw [canStart, Bool.or_eq_true, Bool.and_eq_true]
      rcases matches_andThen_cons_iff.mp h with ⟨u, v, -, hp, -⟩ | ⟨hp, hq⟩
      · exact .inl (ihp hp)
      · exact .inr ⟨nullable_iff.mpr hp, ihq hq⟩
  | many p ih =>
      obtain ⟨u, v, -, hp, -⟩ := matches_many_cons_iff.mp h
      exact ih hp

/-- Whether a character may stand somewhere in a text of the pattern. -/
def canHold : Pattern → Char → Bool
  | .never, _ => false
  | .empty, _ => false
  | .char test, c => test c
  | .either p q, c => p.canHold c || q.canHold c
  | .andThen p q, c => p.canHold c || q.canHold c
  | .many p, c => p.canHold c

/-- In a text of the pattern stand only characters that may stand there. -/
theorem canHold_of_matches (h : Matches p s) (hc : c ∈ s) : p.canHold c = true := by
  induction h with
  | empty | none => cases hc
  | char htest =>
      rw [List.mem_singleton.mp hc]
      exact htest
  | left _ ih => rw [canHold, ih hc, Bool.true_or]
  | right _ ih => rw [canHold, ih hc, Bool.or_true]
  | andThen _ _ ihp ihq =>
      rw [canHold, Bool.or_eq_true]
      exact (List.mem_append.mp hc).imp ihp ihq
  | more _ _ ihp ihq =>
      rcases List.mem_append.mp hc with hc | hc
      · exact ihp hc
      · exact ihq hc

/-! ## The longest match -/

/-- Without characters the longest match is the empty one, if the pattern has it. -/
theorem longest?_nil : p.longest? [] = if p.nullable then some 0 else none := by
  cases p <;> rfl

/-- With a character in front the longest match is one more than that of the derivative, or
the empty one. -/
theorem longest?_cons :
    p.longest? (c :: s) =
      match (p.derivative c).longest? s with
      | some n => some (n + 1)
      | none => if p.nullable then some 0 else none := by
  cases p with
  | never => simp [longest?, derivative, nullable]
  | _ => rfl

/-- A search that finds nothing has looked at every beginning. -/
theorem not_matches_of_longest?_eq_none (h : p.longest? s = none) {u : List Char} (hu : u <+: s) :
    ¬ Matches p u := by
  induction s generalizing p u with
  | nil =>
      rw [List.prefix_nil] at hu
      subst hu
      rw [longest?_nil] at h
      rw [← nullable_iff]
      intro hnullable
      simp [hnullable] at h
  | cons c s ih =>
      rw [longest?_cons] at h
      split at h
      next => cases h
      next hrest =>
        rcases List.prefix_cons_iff.mp hu with rfl | ⟨t, rfl, ht⟩
        · rw [← nullable_iff]
          intro hnullable
          simp [hnullable] at h
        · rw [← matches_derivative]
          exact ih hrest ht

/-- **What a search finds is denoted, and no longer beginning is.** -/
theorem matches_of_longest?_eq_some {n : Nat} (h : p.longest? s = some n) :
    n ≤ s.length ∧ Matches p (s.take n) ∧ ∀ u, u <+: s → Matches p u → u.length ≤ n := by
  induction s generalizing p n with
  | nil =>
      rw [longest?_nil] at h
      split at h
      next hnullable =>
        cases h
        refine ⟨Nat.le_refl _, nullable_iff.mp hnullable, fun u hu _ => ?_⟩
        exact hu.length_le
      next => cases h
  | cons c s ih =>
      rw [longest?_cons] at h
      split at h
      next m hrest =>
        cases h
        obtain ⟨hle, hmatches, hlongest⟩ := ih hrest
        refine ⟨Nat.succ_le_succ hle, matches_derivative.mp hmatches, fun u hu hmatches' => ?_⟩
        rcases List.prefix_cons_iff.mp hu with rfl | ⟨t, rfl, ht⟩
        · exact Nat.zero_le _
        · exact Nat.succ_le_succ (hlongest t ht (matches_derivative.mpr hmatches'))
      next hrest =>
        split at h
        next hnullable =>
          cases h
          refine ⟨Nat.zero_le _, nullable_iff.mp hnullable, fun u hu hmatches => ?_⟩
          rcases List.prefix_cons_iff.mp hu with rfl | ⟨t, rfl, ht⟩
          · exact Nat.le_refl _
          · have hnot := not_matches_of_longest?_eq_none hrest ht
            exact absurd (matches_derivative.mpr hmatches) hnot
        next => cases h

end Scriptlet.Pattern
