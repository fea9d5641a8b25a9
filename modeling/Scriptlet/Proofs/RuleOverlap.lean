import Scriptlet.Proofs.PatternLanguage
import Scriptlet.Token.Scan

/-!
# Which rules share a text

The only texts to which two rules apply are the reserved words: they look like
names (`Rule.eq_of_matches`).  For a rule with a fixed text this is found by
trying every other rule on it.  The other rules differ in the character that a
text of theirs begins with, except for numbers, which are told apart by what
else is in them.
-/

namespace Scriptlet.Rule

open Pattern

/-- The one text of a keyword, a truth value or a symbol. -/
def fixedText? : Rule → Option (List Char)
  | .boolean value => some (Lexeme.booleanText value).toList
  | .keyword word => some word.text.toList
  | .symbol mark => some mark.text.toList
  | _ => none

/-- Whether the rule is for a reserved word: a keyword or a truth value. -/
def reserved : Rule → Bool
  | .boolean _ => true
  | .keyword _ => true
  | _ => false

/-- A rule with a fixed text has the pattern of that text. -/
theorem pattern_of_fixedText? {rule : Rule} {text : List Char}
    (h : rule.fixedText? = some text) : rule.pattern = literal text := by
  cases rule <;> cases h <;> rfl

/-- No rule applies to the empty text. -/
theorem not_matches_nil (rule : Rule) : ¬ rule.pattern.Matches [] := by
  have hall : ∀ r ∈ all, r.pattern.nullable = false := by decide +kernel
  rw [← nullable_iff, hall rule (mem_all rule)]
  exact Bool.false_ne_true

/-! ## Fixed texts -/

/-- A fixed text belongs to no other rule, apart from reserved words, which look
like names. -/
theorem eq_of_matches_fixedText? {rule r : Rule} {text : List Char}
    (htext : r.fixedText? = some text) (h : rule.pattern.Matches text) :
    rule = r ∨ (r.reserved = true ∧ rule = .identifier) := by
  have hall : ∀ r ∈ all, ∀ text ∈ r.fixedText?, ∀ rule ∈ all, rule.pattern.Matches text →
      rule = r ∨ (r.reserved = true ∧ rule = .identifier) := by
    decide +kernel
  exact hall r (mem_all r) text htext rule (mem_all rule) h

/-! ## First characters -/

/-- The rule without a fixed text that can apply where a text begins with the
character; `integer` stands for all numbers. -/
def startingWith (c : Char) : Rule :=
  if isBlank c then .blank
  else if c == '"' then .string
  else if c == '/' then .comment
  else if isNameStart c then .identifier
  else .integer

/-- The rule itself, or `integer` for a number. -/
def family : Rule → Rule
  | .hexInteger => .integer
  | .double => .integer
  | rule => rule

/-- No name begins with a digit. -/
theorem isNameStart_eq_false_of_isDigit {c : Char} (h : Digits.isDigit c = true) :
    isNameStart c = false := by
  simp only [Digits.isDigit, Bool.and_eq_true, decide_eq_true_eq, Char.le_def,
    UInt32.le_iff_toNat_le] at h
  simp only [isNameStart, Bool.or_eq_false_iff, Bool.and_eq_false_iff, decide_eq_false_iff_not,
    Char.le_def, UInt32.le_iff_toNat_le, beq_eq_false_iff_ne]
  have hnine : '9'.val.toNat = 57 := rfl
  have hsmall : 'a'.val.toNat = 97 := rfl
  have hcapital : 'A'.val.toNat = 65 := rfl
  refine ⟨⟨.inl (by omega), .inl (by omega)⟩, ?_⟩
  rintro rfl
  simp at h

/-- A blank, a quote and a slash begin neither a name nor a number. -/
theorem not_isBlank {c : Char} (h : isNameStart c = true ∨ Digits.isDigit c = true ∨ c = '.') :
    isBlank c = false ∧ c ≠ '"' ∧ c ≠ '/' := by
  have hother : ∀ d ∈ [' ', '\t', '\x0c', '\x0b', '\r', '\n', '"', '/'], c ≠ d := by
    rintro d hd rfl
    simp only [List.mem_cons, List.not_mem_nil, or_false] at hd
    rcases hd with rfl | rfl | rfl | rfl | rfl | rfl | rfl | rfl <;> revert h <;> decide
  simp only [List.forall_mem_cons] at hother
  simp [isBlank, isLineEnd, hother]

/-- What a text begins with tells the rules without a fixed text apart, up to
numbers. -/
theorem family_eq_of_canStart {rule : Rule} (hfixed : rule.fixedText? = none) {c : Char}
    (h : rule.pattern.canStart c = true) : rule.family = startingWith c := by
  cases rule with
  | boolean _ | keyword _ | symbol _ => cases hfixed
  | comment =>
      obtain rfl : c = '/' := by simpa [pattern, literal, only, canStart, nullable] using h
      rfl
  | blank =>
      have hblank : isBlank c = true := by simpa [pattern, many1, canStart, nullable] using h
      simp [family, startingWith, hblank]
  | string =>
      obtain rfl : c = '"' := by simpa [pattern, only, canStart, nullable] using h
      rfl
  | hexInteger =>
      obtain rfl : c = '0' := by simpa [pattern, only, canStart, nullable] using h
      rfl
  | double =>
      -- both forms of a double may begin with a digit
      have hforms : (Digits.isDigit c = true ∨ c = '.') ∨ Digits.isDigit c = true := by
        simpa [pattern, digitsPattern, many1, only, canStart, nullable] using h
      have hstart : Digits.isDigit c = true ∨ c = '.' := hforms.elim id .inl
      obtain ⟨hblank, hquote, hslash⟩ := not_isBlank (.inr hstart)
      have hname : isNameStart c = false := by
        rcases hstart with hdigit | rfl
        · exact isNameStart_eq_false_of_isDigit hdigit
        · decide
      simp [family, startingWith, hblank, hquote, hslash, hname]
  | integer =>
      have hdigit : Digits.isDigit c = true := by
        simpa [pattern, digitsPattern, many1, canStart, nullable] using h
      obtain ⟨hblank, hquote, hslash⟩ := not_isBlank (.inr (.inl hdigit))
      simp [family, startingWith, hblank, hquote, hslash, isNameStart_eq_false_of_isDigit hdigit]
  | identifier =>
      have hname : isNameStart c = true := by simpa [pattern, canStart, nullable] using h
      obtain ⟨hblank, hquote, hslash⟩ := not_isBlank (.inl hname)
      simp [family, startingWith, hblank, hquote, hslash, hname]

/-! ## Numbers -/

/-- The rule that applies to a text that is a number. -/
def numberRule (text : List Char) : Rule :=
  if text.all Digits.isDigit then .integer
  else if text.any fun c => c == 'x' || c == 'X' then .hexInteger
  else .double

/-- A number with a point or an exponent is not made of digits alone. -/
theorem exists_not_isDigit_of_double {text : List Char}
    (h : Rule.double.pattern.Matches text) : ∃ c ∈ text, Digits.isDigit c = false := by
  rcases matches_either_iff.mp h with h | h
  · obtain ⟨whole, rest, rfl, -, hrest⟩ := matches_andThen_iff.mp h
    obtain ⟨point, decimals, rfl, hpoint, -⟩ := matches_andThen_iff.mp hrest
    obtain ⟨c, hc, rfl⟩ := matches_char_iff.mp hpoint
    rw [beq_iff_eq] at hc
    exact ⟨c, by simp, hc ▸ by decide⟩
  · obtain ⟨whole, rest, rfl, -, hrest⟩ := matches_andThen_iff.mp h
    obtain ⟨mark, exponent, rfl, hmark, -⟩ := matches_andThen_iff.mp hrest
    obtain ⟨c, hc, rfl⟩ := matches_char_iff.mp hmark
    rw [Bool.or_eq_true, beq_iff_eq, beq_iff_eq] at hc
    refine ⟨c, by simp, ?_⟩
    rcases hc with rfl | rfl <;> decide

/-- What else is in a number tells which rule it is of. -/
theorem eq_numberRule {rule : Rule} (hfamily : rule.family = .integer) {text : List Char}
    (h : rule.pattern.Matches text) : rule = numberRule text := by
  cases rule with
  | integer =>
      have hdigits : text.all Digits.isDigit = true := by
        rw [List.all_eq_true]
        intro c hc
        simpa [pattern, digitsPattern, many1, canHold] using canHold_of_matches h hc
      rw [numberRule, if_pos hdigits]
  | hexInteger =>
      obtain ⟨zero, rest, rfl, -, hrest⟩ := matches_andThen_iff.mp h
      obtain ⟨mark, digits, rfl, hmark, -⟩ := matches_andThen_iff.mp hrest
      obtain ⟨x, hx, rfl⟩ := matches_char_iff.mp hmark
      have hdigit : Digits.isDigit x = false := by
        rw [Bool.or_eq_true, beq_iff_eq, beq_iff_eq] at hx
        rcases hx with rfl | rfl <;> decide
      simp [numberRule, hdigit, hx]
  | double =>
      obtain ⟨c, hc, hdigit⟩ := exists_not_isDigit_of_double h
      have hdigits : ¬ text.all Digits.isDigit = true := by
        rw [List.all_eq_true]
        intro hall
        exact Bool.false_ne_true (hdigit.symm.trans (hall c hc))
      have hx : ¬ (text.any fun c => c == 'x' || c == 'X') = true := by
        rw [List.any_eq_true]
        rintro ⟨x, hmem, hx⟩
        rw [Bool.or_eq_true, beq_iff_eq, beq_iff_eq] at hx
        have hhold := canHold_of_matches h hmem
        revert hhold
        rcases hx with rfl | rfl <;> decide
      rw [numberRule, if_neg hdigits, if_neg hx]
  | _ => cases hfamily

/-! ## All rules -/

/-- Two rules without a fixed text share no text. -/
theorem eq_of_fixedText?_eq_none {rule rule' : Rule} {text : List Char}
    (hfixed : rule.fixedText? = none) (hfixed' : rule'.fixedText? = none)
    (h : rule.pattern.Matches text) (h' : rule'.pattern.Matches text) : rule = rule' := by
  cases text with
  | nil => exact absurd h (not_matches_nil rule)
  | cons c cs =>
      have hfamily : rule.family = rule'.family :=
        (family_eq_of_canStart hfixed (canStart_of_matches h)).trans
          (family_eq_of_canStart hfixed' (canStart_of_matches h')).symm
      by_cases hnumber : rule.family = .integer
      · have hnumber' := hfamily.symm.trans hnumber
        exact (eq_numberRule hnumber h).trans (eq_numberRule hnumber' h').symm
      · -- away from numbers the family is the rule itself
        have hself : ∀ r : Rule, r.family ≠ .integer → r.family = r := by
          intro r hr
          cases r <;> first | rfl | exact absurd rfl hr
        rw [← hself rule hnumber, ← hself rule' (hfamily ▸ hnumber), hfamily]

/-- **Two rules share a text only if it is a reserved word.** -/
theorem eq_of_matches {rule rule' : Rule} {text : List Char}
    (h : rule.pattern.Matches text) (h' : rule'.pattern.Matches text) :
    rule = rule' ∨ (rule.reserved = true ∧ rule' = .identifier) ∨
      (rule'.reserved = true ∧ rule = .identifier) := by
  have hfixed : ∀ {r : Rule} {fixed : List Char}, r.fixedText? = some fixed →
      r.pattern.Matches text → r.fixedText? = some text := by
    intro r fixed hr hmatches
    rw [pattern_of_fixedText? hr, matches_literal_iff] at hmatches
    rw [hr, hmatches]
  cases hrule : rule.fixedText? with
  | some fixed =>
      rcases eq_of_matches_fixedText? (hfixed hrule h) h' with rfl | hreserved
      · exact .inl rfl
      · exact .inr (.inl hreserved)
  | none =>
      cases hrule' : rule'.fixedText? with
      | some fixed =>
          rcases eq_of_matches_fixedText? (hfixed hrule' h') h with rfl | hreserved
          · exact .inl rfl
          · exact .inr (.inr hreserved)
      | none => exact .inl (eq_of_fixedText?_eq_none hrule hrule' h h')

end Scriptlet.Rule
