import Mathlib.Data.List.Forall2
import Mathlib.Data.List.Induction
import Mathlib.Data.Nat.Digits.Defs
import Scriptlet.Proofs.ErrorPlaces
import Scriptlet.Proofs.ExpressionCompleteness
import Scriptlet.Proofs.IntegerArithmetic
import Scriptlet.Proofs.TokenSpans

/-!
# The numbers that tokens stand for

The digits of a number are worth their places in `0123456789abcdef`, and the number is the sum of
their values, each times a power of the base (`numeral`).  The text of a number that is cut out of
a script consists of digits of its base (`Token.Scanned.wellFormed`), so the readers, which go
through it from the left, find this number whatever its length.  A decimal number is the integer
itself and must not exceed the greatest one; a hexadecimal number gives thirty-two bits and must
not have more (`Token.literals_mean_numbers`).
-/

namespace Scriptlet

/-! ## Numbers as they are written -/

/-- The value of a digit, its letters in either case: its place among all digits. -/
def digitValue (c : Char) : Nat := "0123456789abcdef".toList.idxOf c.toLower

/-- The number that digits stand for, the first of them being the highest. -/
def numeral (base : Nat) (digits : List Char) : Nat :=
  Nat.ofDigits base (digits.map digitValue).reverse

/-- There are digits of the base, and there is nothing else. -/
structure IsNumeral (base : Nat) (digits : List Char) : Prop where
  ne_nil : digits ≠ []
  digit : ∀ c ∈ digits, digitValue c < base

/-- One digit more multiplies the number by the base and adds the digit. -/
theorem numeral_append_singleton (base : Nat) (digits : List Char) (c : Char) :
    numeral base (digits ++ [c]) = base * numeral base digits + digitValue c := by
  simp only [numeral, List.map_append, List.map_singleton, List.reverse_append,
    List.reverse_singleton, List.singleton_append, Nat.ofDigits_cons]
  omega

-- leading zeros, and letters in both cases
example : numeral 10 "000042".toList = 42 ∧ numeral 16 "00fF".toList = 255 := by decide

/-- Digits are among the first 128 characters. -/
theorem toNat_lt_of_isHexDigit {c : Char} (h : Rule.isHexDigit c = true) : c.toNat < 128 := by
  have hle : c ≤ 'f' := by
    simp only [Rule.isHexDigit, Digits.isDigit, Bool.or_eq_true, Bool.and_eq_true,
      decide_eq_true_eq] at h
    rcases h with (hc | hc) | hc
    · exact Char.le_trans hc.2 (by decide)
    · exact hc.2
    · exact Char.le_trans hc.2 (by decide)
  have hnat : c.toNat ≤ 'f'.toNat := hle
  exact Nat.lt_of_le_of_lt hnat (by decide)

/-- The readers agree with the table about a single digit; there are only 128 codes to check. -/
theorem hexDigit?_eq_digitValue {c : Char} (h : Rule.isHexDigit c = true) :
    Literal.hexDigit? c = some (digitValue c) ∧ digitValue c < 16 := by
  have hall : ∀ k < 128, Rule.isHexDigit (Char.ofNat k) = true →
      Literal.hexDigit? (Char.ofNat k) = some (digitValue (Char.ofNat k)) ∧
        digitValue (Char.ofNat k) < 16 := by
    decide +kernel
  have hc := hall c.toNat (toNat_lt_of_isHexDigit h)
  rw [Char.ofNat_toNat] at hc
  exact hc h

/-- The value of a decimal digit is its distance from zero, and less than ten. -/
theorem sub_eq_digitValue {c : Char} (h : Digits.isDigit c = true) :
    c.toNat - '0'.toNat = digitValue c ∧ digitValue c < 10 := by
  have hhex : Rule.isHexDigit c = true := by simp [Rule.isHexDigit, h]
  have hall : ∀ k < 128, Digits.isDigit (Char.ofNat k) = true →
      (Char.ofNat k).toNat - '0'.toNat = digitValue (Char.ofNat k) ∧
        digitValue (Char.ofNat k) < 10 := by
    decide +kernel
  have hc := hall c.toNat (toNat_lt_of_isHexDigit hhex)
  rw [Char.ofNat_toNat] at hc
  exact hc h

/-! ## What the readers find -/

/-- Reading decimal digits gives the number that they stand for. -/
theorem Digits.value_eq_numeral {digits : List Char}
    (h : ∀ c ∈ digits, Digits.isDigit c = true) : Digits.value digits = numeral 10 digits := by
  induction digits using List.reverseRecOn with
  | nil => rfl
  | append_singleton digits c ih =>
      have hdigits : ∀ d ∈ digits, Digits.isDigit d = true := fun d hd =>
        h d (List.mem_append_left _ hd)
      have hc := (sub_eq_digitValue (h c (by simp))).1
      rw [Digits.value_append_singleton, ih hdigits, hc, numeral_append_singleton]

namespace Literal

/-- One hexadecimal digit more is read after the others. -/
theorem hexNumber?_append_singleton (digits : List Char) (c : Char) :
    hexNumber? (digits ++ [c]) =
      (hexNumber? digits).bind fun n => (hexDigit? c).map (16 * n + ·) := by
  simp [hexNumber?]

/-- Reading hexadecimal digits gives the number that they stand for. -/
theorem hexNumber?_eq_numeral {digits : List Char}
    (h : ∀ c ∈ digits, Rule.isHexDigit c = true) :
    hexNumber? digits = some (numeral 16 digits) := by
  induction digits using List.reverseRecOn with
  | nil => rfl
  | append_singleton digits c ih =>
      have hdigits : ∀ d ∈ digits, Rule.isHexDigit d = true := fun d hd =>
        h d (List.mem_append_left _ hd)
      have hc := (hexDigit?_eq_digitValue (h c (by simp))).1
      rw [hexNumber?_append_singleton, ih hdigits, hc, numeral_append_singleton,
        Option.bind_some, Option.map_some]

/-- What a reader of integers finds: the integer with this value if it fits, and nothing
otherwise. -/
structure Finds (found : Option Int32) (fits : Prop) (value : Int) : Prop where
  integer : fits → ∃ n : Int32, n.toInt = value ∧ found = some n
  nothing : ¬ fits → found = none

/-- Decimal digits stand for a number that is not negative. -/
theorem finds_ofDecimal? {digits : List Char} (h : Digits.isNumber digits = true) :
    Finds (ofDecimal? digits) (numeral 10 digits ≤ 2147483647) (numeral 10 digits) := by
  rw [ofDecimal?_of_isNumber h, Digits.value_eq_numeral (Digits.isNumber_iff.mp h).2]
  unfold ofInt?
  split
  next hle =>
    refine ⟨fun _ => ⟨_, Int32.toInt_ofInt_of_le hle.1 ?_, rfl⟩, fun hbeyond => by omega⟩
    show (numeral 10 digits : Int) < 2147483648
    omega
  next hgt => exact ⟨fun hfits => by omega, fun _ => rfl⟩

/-- The digits of a hexadecimal number stand for bits. -/
theorem finds_ofHex? {digits : List Char} (hne : digits ≠ [])
    (h : ∀ c ∈ digits, Rule.isHexDigit c = true) :
    Finds (ofHex? digits) (numeral 16 digits < 4294967296)
      (Integer.wrap (numeral 16 digits)) := by
  have hlimit : Nat.pow 2 32 = 4294967296 := rfl
  have hunsigned : ofHex? digits = if numeral 16 digits < Nat.pow 2 32 then
      some (UInt32.ofNat (numeral 16 digits)).toInt32 else none := by
    -- a plus sign would be skipped, but it is no digit
    have hsign : ∀ cs, digits ≠ '+' :: cs := by
      intro cs hcs
      rw [hcs] at h
      cases h '+' List.mem_cons_self
    unfold ofHex?
    split
    next cs => exact absurd rfl (hsign cs)
    next => rw [if_neg (by simpa using hne), hexNumber?_eq_numeral h]
  rw [hunsigned]
  split
  next hlt =>
    refine ⟨fun _ => ⟨_, ?_, rfl⟩, fun hbeyond => absurd hlt hbeyond⟩
    rw [← Int32.toInt_toBitVec, UInt32.toBitVec_toInt32, UInt32.toBitVec_ofNat',
      BitVec.toInt_ofNat', Integer.bmod_eq_wrap]
  next hge => exact ⟨fun hfits => by omega, fun _ => rfl⟩

end Literal

/-! ## Numbers with a point or an exponent -/

namespace Double

/-- Neither the point nor the mark of an exponent is a digit. -/
theorem not_mark_of_isDigit {c : Char} (h : Digits.isDigit c = true) :
    isExponentMark c = false ∧ c ≠ '.' := by
  constructor
  · by_contra hmark
    simp only [isExponentMark, Bool.not_eq_false, Bool.or_eq_true, beq_iff_eq] at hmark
    rcases hmark with rfl | rfl <;> cases h
  · rintro rfl
    cases h

/-- A text is cut in front of the first character at which a test fails. -/
theorem cut_append {test : Char → Bool} {before after : List Char}
    (hbefore : ∀ c ∈ before, test c = true) (hafter : ∀ c ∈ after.head?, test c = false) :
    (before ++ after).takeWhile test = before ∧ (before ++ after).dropWhile test = after := by
  rw [List.takeWhile_append_of_pos hbefore, List.dropWhile_append_of_pos hbefore]
  cases after with
  | nil => exact ⟨List.append_nil before, rfl⟩
  | cons c cs =>
      have hc : ¬ test c = true := Bool.not_eq_true _ ▸ hafter c rfl
      rw [List.takeWhile_cons_of_neg hc, List.dropWhile_cons_of_neg hc, List.append_nil]
      exact ⟨rfl, rfl⟩

/-- Digits around a point hold no mark of an exponent. -/
theorem not_isExponentMark_of_mem {whole point : List Char}
    (hpoint : ∀ c ∈ point.head?, c = '.')
    (hdigits : ∀ c ∈ whole ++ point.drop 1, Digits.isDigit c = true) :
    ∀ c ∈ whole ++ point, (!isExponentMark c) = true := by
  have hdigit : ∀ c ∈ whole ++ point.drop 1, (!isExponentMark c) = true := fun c hc => by
    rw [(not_mark_of_isDigit (hdigits c hc)).1, Bool.not_false]
  intro c hc
  rcases List.mem_append.mp hc with hc | hc
  · exact hdigit c (List.mem_append_left _ hc)
  · cases point with
    | nil => cases hc
    | cons d ds =>
        rcases List.mem_cons.mp hc with rfl | hc
        · rw [hpoint _ rfl]
          rfl
        · exact hdigit c (List.mem_append_right _ hc)

/-- A text whose digits stand around the point, with an exponent or without one, is a number. -/
theorem Parts.wellFormed_ofText {whole point exponent : List Char}
    (hpoint : ∀ c ∈ point.head?, c = '.')
    (hdigits : Digits.isNumber (whole ++ point.drop 1) = true)
    (hmark : ∀ c ∈ exponent.head?, isExponentMark c = true)
    (hexponent : exponent.tail?.all Digits.isSignedNumber = true) :
    (Parts.ofText ((whole ++ point) ++ exponent)).wellFormed = true := by
  have hall := (Digits.isNumber_iff.mp hdigits).2
  obtain ⟨hmantissa, htail⟩ := cut_append (not_isExponentMark_of_mem hpoint hall)
    fun c hc => show (!isExponentMark c) = false by rw [hmark c hc, Bool.not_true]
  have hbefore : ∀ c ∈ whole, (c != '.') = true := fun c hc =>
    bne_iff_ne.mpr (not_mark_of_isDigit (hall c (List.mem_append_left _ hc))).2
  obtain ⟨hwhole, hfraction⟩ := cut_append hbefore fun c hc => by
    rw [hpoint c hc, bne_self_eq_false]
  rw [Parts.ofText, hmantissa, htail, hwhole, hfraction, Parts.wellFormed, hdigits, hexponent,
    Bool.and_self]

end Double

namespace Rule

/-- Texts of the pattern of digits are numbers. -/
theorem isNumber_of_matches {s : List Char} (h : digitsPattern.Matches s) :
    Digits.isNumber s = true := by
  refine Digits.isNumber_iff.mpr ⟨fun hnil => ?_, fun c hc => ?_⟩
  · exact Rule.not_matches_nil .integer (hnil ▸ h)
  · simpa only [digitsPattern, Pattern.many1, Pattern.canHold, Bool.or_self] using
      Pattern.canHold_of_matches h hc

/-- An exponent begins with its mark, and digits with or without a sign follow it. -/
theorem exponent_of_matches {s : List Char} (h : exponentPattern.Matches s) :
    (∀ c ∈ s.head?, Double.isExponentMark c = true) ∧
      s.tail?.all Digits.isSignedNumber = true := by
  obtain ⟨mark, tail, rfl, hmark, htail⟩ := Pattern.matches_andThen_iff.mp h
  obtain ⟨c, hc, rfl⟩ := Pattern.matches_char_iff.mp hmark
  obtain ⟨sign, digits, rfl, hsign, hdigits⟩ := Pattern.matches_andThen_iff.mp htail
  have hnumber := isNumber_of_matches hdigits
  refine ⟨fun d hd => Option.some.inj hd ▸ hc, ?_⟩
  show Digits.isSignedNumber (sign ++ digits) = true
  rcases Pattern.matches_either_iff.mp hsign with hsign | hsign
  · obtain ⟨d, hd, rfl⟩ := Pattern.matches_char_iff.mp hsign
    rw [Bool.or_eq_true, beq_iff_eq, beq_iff_eq] at hd
    rcases hd with rfl | rfl <;> exact hnumber
  · rw [Pattern.matches_empty_iff.mp hsign, List.nil_append, Digits.isSignedNumber,
      Digits.splitSign_of_isNumber hnumber]
    exact hnumber

/-- **What is cut out as a number with a point or an exponent is one.** -/
theorem wellFormed_of_matches {s : List Char} (h : Rule.double.pattern.Matches s) :
    (Double.Parts.ofText s).wellFormed = true := by
  rcases Pattern.matches_either_iff.mp h with h | h
  · obtain ⟨whole, rest, rfl, hwhole, hrest⟩ := Pattern.matches_andThen_iff.mp h
    obtain ⟨point, rest, rfl, hpoint, hrest⟩ := Pattern.matches_andThen_iff.mp hrest
    obtain ⟨fraction, exponent, rfl, hfraction, hexponent⟩ := Pattern.matches_andThen_iff.mp hrest
    obtain ⟨c, hc, rfl⟩ := Pattern.matches_char_iff.mp hpoint
    obtain rfl := beq_iff_eq.mp hc
    have hdigits : ∀ c ∈ whole, Digits.isDigit c = true := fun c hc => by
      simpa only [Pattern.canHold] using Pattern.canHold_of_matches hwhole hc
    have hnumber : Digits.isNumber (whole ++ fraction) = true := by
      obtain ⟨hne, hall⟩ := Digits.isNumber_iff.mp (isNumber_of_matches hfraction)
      refine Digits.isNumber_iff.mpr ⟨List.append_ne_nil_of_right_ne_nil _ hne, fun c hc => ?_⟩
      exact (List.mem_append.mp hc).elim (hdigits c) (hall c)
    obtain ⟨hmark, hsigned⟩ : (∀ c ∈ exponent.head?, Double.isExponentMark c = true) ∧
        exponent.tail?.all Digits.isSignedNumber = true := by
      rcases Pattern.matches_either_iff.mp hexponent with hexponent | hexponent
      · exact exponent_of_matches hexponent
      · rw [Pattern.matches_empty_iff.mp hexponent]
        exact ⟨fun c hc => (Option.not_mem_none c hc).elim, rfl⟩
    rw [List.singleton_append, ← List.cons_append, ← List.append_assoc]
    exact Double.Parts.wellFormed_ofText (fun d hd => (Option.some.inj hd).symm) hnumber
      hmark hsigned
  · obtain ⟨whole, exponent, rfl, hwhole, hexponent⟩ := Pattern.matches_andThen_iff.mp h
    have hnumber := isNumber_of_matches hwhole
    obtain ⟨hmark, hsigned⟩ := exponent_of_matches hexponent
    rw [← List.append_nil whole]
    refine Double.Parts.wellFormed_ofText (fun c hc => ?_) ?_ hmark hsigned
    · cases hc
    · rw [List.drop_nil, List.append_nil]
      exact hnumber

end Rule

/-! ## Texts of tokens -/

/-- What a rule takes gives a token whose text is one of its kind. -/
theorem Rule.Takes.wellFormed {rule : Rule} {piece rest : List Char} {l : Lexeme}
    (h : rule.Takes piece rest) (hl : rule.lexeme? piece = some l) : l.WellFormed := by
  have hmatches := h.applies
  cases rule with
  | comment | blank => cases hl
  | string | boolean _ | keyword _ | symbol _ =>
      cases hl
      trivial
  | double =>
      cases hl
      simpa only [Lexeme.WellFormed, String.toList_ofList] using hmatches
  | integer =>
      cases hl
      simp only [Lexeme.WellFormed, String.toList_ofList]
      exact Digits.isNumber_iff.mp (Rule.isNumber_of_matches hmatches)
  | hexInteger =>
      cases hl
      obtain ⟨zero, tail, rfl, hzero, htail⟩ := Pattern.matches_andThen_iff.mp hmatches
      obtain ⟨mark, digits, rfl, hmark, hdigits⟩ := Pattern.matches_andThen_iff.mp htail
      obtain ⟨c, -, rfl⟩ := Pattern.matches_char_iff.mp hzero
      obtain ⟨d, -, rfl⟩ := Pattern.matches_char_iff.mp hmark
      simp only [Lexeme.WellFormed, List.cons_append, List.nil_append, List.drop_succ_cons,
        List.drop_zero, String.toList_ofList]
      refine ⟨fun hnil => ?_, fun c hc => ?_⟩
      · obtain ⟨first, more, heq, hfirst, -⟩ := Pattern.matches_andThen_iff.mp hdigits
        obtain ⟨e, -, rfl⟩ := Pattern.matches_char_iff.mp hfirst
        rw [hnil] at heq
        cases heq
      · have hhold := Pattern.canHold_of_matches hdigits hc
        simpa only [Pattern.many1, Pattern.canHold, Bool.or_self] using hhold
  | identifier =>
      cases hl
      have hunreserved := h.unreserved rfl
      simp only [Lexeme.WellFormed, String.toList_ofList]
      refine ⟨hmatches, fun word hword => ?_, fun value hvalue => ?_⟩
      · refine hunreserved (.keyword word) rfl (Pattern.matches_literal_iff.mpr ?_)
        rw [← hword, String.toList_ofList]
      · refine hunreserved (.boolean value) rfl (Pattern.matches_literal_iff.mpr ?_)
        rw [← hvalue, String.toList_ofList]

/-- Each of the pieces was taken off some text. -/
theorem Cut.Taken.takes {pieces : List (Rule × List Char)} {rest : List Char}
    (h : Taken pieces rest) : ∀ piece ∈ pieces, ∃ rest', piece.1.Takes piece.2 rest' := by
  induction pieces with
  | nil => exact List.forall_mem_nil _
  | cons piece pieces ih =>
      obtain ⟨htakes, hmore⟩ := h
      exact List.forall_mem_cons.mpr ⟨⟨_, htakes⟩, ih hmore⟩

namespace Token

/-- The tokens of lines are well formed, each by the rule that took it. -/
theorem wellFormed_of_scanLinesFrom {script : String} {texts : List (List Char)}
    {tokens : List Token} (h : scanLinesFrom script 1 texts = .ok tokens) :
    ∀ t ∈ tokens, t.lexeme.WellFormed := by
  obtain ⟨cutOf, hcutOf⟩ := Classical.skolem.mp Cut.exists_maximal
  have hcuts : List.Forall₂ Cut.Maximal texts (texts.map cutOf) :=
    List.forall₂_map_right_iff.mpr (List.forall₂_same.mpr fun text _ => hcutOf text)
  rcases Cut.rest_nil_or_blames script (texts.map cutOf) with hrest | ⟨e, hblames⟩
  · rw [scanLinesFrom_of_rest_nil script hcuts hrest 1] at h
    cases h
    intro t ht
    rw [← Cut.map_token_allSpelled] at ht
    obtain ⟨x, hx, rfl⟩ := List.mem_map.mp ht
    obtain ⟨cut, line, -, hcut, hx⟩ := Cut.mem_allSpelled.mp hx
    obtain ⟨text, -, rfl⟩ := List.mem_map.mp (List.mem_of_getElem? hcut)
    obtain ⟨rule, hpiece, hlexeme⟩ := Cut.piece_of_mem_spelledOf hx
    obtain ⟨rest, htakes⟩ := (hcutOf text).taken.takes _ hpiece
    exact htakes.wellFormed hlexeme
  · obtain ⟨before, cut, after, c, cs, heq, hbefore, hrest, -⟩ := hblames
    rw [heq] at hcuts
    rw [scanLinesFrom_of_rest_cons script hcuts hbefore hrest] at h
    cases h

/-- The tokens are those of a text or of lines. -/
def Scanned (script : String) (tokens : List Token) : Prop :=
  (∃ text, scan script text = .ok tokens) ∨ ∃ lines, scanLines script lines = .ok tokens

/-- The tokens of a text are well formed, each by the rule that took it. -/
theorem Scanned.wellFormed {script : String} {tokens : List Token} (h : Scanned script tokens) :
    ∀ t ∈ tokens, t.lexeme.WellFormed := by
  rcases h with ⟨text, htext⟩ | ⟨lines, hlines⟩
  · exact wellFormed_of_scanLinesFrom htext
  · exact wellFormed_of_scanLinesFrom hlines

end Token

/-! ## How the parser takes them -/

namespace Parser

/-- In front of a token that spells out a value, or fails to, the primary is a literal. -/
theorem primary_of_read? {lexeme : Lexeme} {result : Except ParseError.Cause Literal}
    (h : Literal.read? lexeme = some result) (p : Position) (rest : List Token) {n : Nat}
    (hn : 0 < n) :
    primary (n + 1) (⟨lexeme, p⟩ :: rest) = literal lexeme p (⟨lexeme, p⟩ :: rest) := by
  have hnames : lexeme.lvalueName? = none ∧ ∀ name, lexeme ≠ .identifier name := by
    cases lexeme with
    | identifier _ | keyword _ | symbol _ => cases h
    | _ => simp [Lexeme.lvalueName?]
  have hcall := Parsed.call_eq_none hn (callHead_of_ne_identifier hnames.2 p rest)
  have hlvalue := Parsed.lvalue_eq_none hn (lvalueHead_of_eq_none hnames.1 p rest)
  refine Run.bind_eq_of_done hcall (Run.bind_eq_of_done hlvalue ?_)
  refine Run.bind_eq_of_done rfl ?_
  cases lexeme with
  | identifier _ | keyword _ | symbol _ => cases h
  | _ => rfl

end Parser

namespace Token

variable {t : Token} {digits : String}

/-- The token is taken as a constant, whatever follows it. -/
def ReadAs (t : Token) (value : Literal) : Prop :=
  ∀ rest, Parser.parse Parser.primary (t :: rest) =
    (.ok (some (.literal t.position value)), rest)

/-- The token is left, whatever follows it, and the error names its digits and its place. -/
def OutOfRange (t : Token) (digits : String) : Prop :=
  ∀ rest, Parser.parse Parser.primary (t :: rest) =
    (.error ⟨.literalOutOfRange digits, some t.position⟩, t :: rest)

/-- A token that spells out a value is read as a literal: no other primary expression begins
with it. -/
theorem parse_primary_of_read? {result : Except ParseError.Cause Literal}
    (h : Literal.read? t.lexeme = some result) (rest : List Token) :
    Parser.parse Parser.primary (t :: rest) =
      Parser.parse (fun _ => Parser.literal t.lexeme t.position) (t :: rest) := by
  obtain ⟨n, hn, hfuel⟩ : ∃ n, 0 < n ∧ Parser.fuel (t :: rest) = n + 1 :=
    ⟨Parser.fuel (t :: rest) - 1, by rw [Parser.fuel]; omega, by rw [Parser.fuel]; omega⟩
  unfold Parser.parse
  rw [hfuel, Parser.primary_of_read? h t.position rest hn]

/-- A token with a value in range is read as a constant. -/
theorem readAs_of_read? {value : Literal} (h : Literal.read? t.lexeme = some (.ok value)) :
    t.ReadAs value := by
  intro rest
  rw [parse_primary_of_read? h, Parser.parse, Parser.literal_of_read? h]
  rfl

/-- A token that is refused is out of range. -/
theorem outOfRange_of_read?
    (h : Literal.read? t.lexeme = some (.error (.literalOutOfRange digits))) :
    t.OutOfRange digits := by
  intro rest
  rw [parse_primary_of_read? h, Parser.parse, Parser.literal, h]
  rfl

/-- The token spells out a number that is beyond the range of its notation. -/
def TooGreat (t : Token) (digits : String) : Prop :=
  (t.lexeme = .integer digits ∧ 2147483647 < numeral 10 digits.toList) ∨
    (t.lexeme = .hexInteger digits ∧ 4294967296 ≤ numeral 16 digits.toList)

/-- The token has these digits, in which a reader of integers has found what is given. -/
def HasDigits (t : Token) (digits : String) (found : Option Int32) : Prop :=
  Literal.read? t.lexeme = some (Literal.orOutOfRange digits (found.map .int))

namespace HasDigits

variable {found : Option Int32} {fits : Prop} {value : Int}

/-- A reader that finds an integer makes the token a constant of this value. -/
theorem readAs (h : t.HasDigits digits found) (hfinds : Literal.Finds found fits value)
    (hfits : fits) : ∃ n : Int32, n.toInt = value ∧ t.ReadAs (.int n) := by
  obtain ⟨n, hn, rfl⟩ := hfinds.integer hfits
  exact ⟨n, hn, readAs_of_read? h⟩

/-- A reader that finds nothing refuses the token for its digits. -/
theorem outOfRange (h : t.HasDigits digits found) (hfinds : Literal.Finds found fits value)
    (hbeyond : ¬ fits) : t.OutOfRange digits := by
  obtain rfl := hfinds.nothing hbeyond
  exact outOfRange_of_read? h

/-- If a number is refused, it does not fit, and the error has its digits. -/
theorem not_fits (h : t.HasDigits digits found) (hfinds : Literal.Finds found fits value)
    {text : String} (herror : Literal.read? t.lexeme = some (.error (.literalOutOfRange text))) :
    ¬ fits ∧ digits = text := by
  rw [h] at herror
  cases found with
  | some n => cases herror
  | none =>
      cases herror
      refine ⟨fun hfits => ?_, rfl⟩
      obtain ⟨n, -, hn⟩ := hfinds.integer hfits
      cases hn

end HasDigits

/-- Decimal numbers. -/
theorem hasDigits_of_integer (h : t.lexeme = .integer digits) :
    t.HasDigits digits (Literal.ofDecimal? digits.toList) := by
  unfold HasDigits
  rw [h]
  rfl

/-- Hexadecimal numbers. -/
theorem hasDigits_of_hexInteger (h : t.lexeme = .hexInteger digits) :
    t.HasDigits digits (Literal.ofHex? digits.toList) := by
  unfold HasDigits
  rw [h]
  rfl

/-- A decimal token is made of digits, which are found up to the greatest integer. -/
theorem finds_of_integer (hwell : t.lexeme.WellFormed) (h : t.lexeme = .integer digits) :
    IsNumeral 10 digits.toList ∧
      Literal.Finds (Literal.ofDecimal? digits.toList)
        (numeral 10 digits.toList ≤ 2147483647) (numeral 10 digits.toList) := by
  rw [h] at hwell
  obtain ⟨hne, hdigits⟩ := hwell
  refine ⟨⟨hne, fun c hc => (sub_eq_digitValue (hdigits c hc)).2⟩, ?_⟩
  exact Literal.finds_ofDecimal? (Digits.isNumber_iff.mpr ⟨hne, hdigits⟩)

/-- A hexadecimal token is made of digits, which are found up to thirty-two bits. -/
theorem finds_of_hexInteger (hwell : t.lexeme.WellFormed) (h : t.lexeme = .hexInteger digits) :
    IsNumeral 16 digits.toList ∧
      Literal.Finds (Literal.ofHex? digits.toList)
        (numeral 16 digits.toList < 4294967296) (Integer.wrap (numeral 16 digits.toList)) := by
  rw [h] at hwell
  obtain ⟨hne, hdigits⟩ := hwell
  refine ⟨⟨hne, fun c hc => (hexDigit?_eq_digitValue (hdigits c hc)).2⟩, ?_⟩
  exact Literal.finds_ofHex? hne hdigits

/-- Numbers with a point or an exponent. -/
theorem read?_of_double (hwell : t.lexeme.WellFormed) (h : t.lexeme = .double digits) :
    Literal.read? t.lexeme = some (.ok (.double (Double.ofText digits))) := by
  rw [h] at hwell
  rw [h, Literal.read?, Double.ofText?_of_wellFormed (Rule.wellFormed_of_matches hwell)]
  rfl

/-- A token that cannot be read spells out a number that is too great. -/
theorem Unreadable.tooGreat {e : ParseError} (h : t.Unreadable e) (hwell : t.lexeme.WellFormed)
    (hcause : e.cause = .literalOutOfRange digits) : t.TooGreat digits := by
  have hread := h.read?
  rw [hcause] at hread
  cases hlexeme : t.lexeme with
  | integer text =>
      have hfinds := (finds_of_integer hwell hlexeme).2
      obtain ⟨hbeyond, rfl⟩ := (hasDigits_of_integer hlexeme).not_fits hfinds hread
      exact .inl ⟨hlexeme, Nat.lt_of_not_le hbeyond⟩
  | hexInteger text =>
      have hfinds := (finds_of_hexInteger hwell hlexeme).2
      obtain ⟨hbeyond, rfl⟩ := (hasDigits_of_hexInteger hlexeme).not_fits hfinds hread
      exact .inr ⟨hlexeme, Nat.le_of_not_lt hbeyond⟩
  | double text =>
      rw [read?_of_double hwell hlexeme] at hread
      cases hread
  | string _ | boolean _ | identifier _ | keyword _ | symbol _ =>
      rw [hlexeme] at hread
      cases hread

/-- **Tokens of numbers mean their number.**  For every token that is cut out of a text: a
decimal number is read as the integer that its digits stand for if this is not too great, and a
hexadecimal one as the integer with its thirty-two bits; otherwise the error names the digits.
Other tokens never are out of range, wherever the parser comes upon them. -/
theorem literals_mean_numbers {script : String} {tokens : List Token}
    (h : Scanned script tokens) :
    (∀ t ∈ tokens, ∀ digits, t.lexeme = .integer digits →
      IsNumeral 10 digits.toList ∧
      (numeral 10 digits.toList ≤ 2147483647 →
        ∃ n : Int32, n.toInt = numeral 10 digits.toList ∧ t.ReadAs (.int n)) ∧
      (2147483647 < numeral 10 digits.toList → t.OutOfRange digits)) ∧
    (∀ t ∈ tokens, ∀ digits, t.lexeme = .hexInteger digits →
      IsNumeral 16 digits.toList ∧
      (numeral 16 digits.toList < 4294967296 →
        ∃ n : Int32, n.toInt = Integer.wrap (numeral 16 digits.toList) ∧ t.ReadAs (.int n)) ∧
      (4294967296 ≤ numeral 16 digits.toList → t.OutOfRange digits)) ∧
    (∀ t ∈ tokens, ∀ digits, t.lexeme = .double digits →
      t.ReadAs (.double (Double.ofText digits))) ∧
    (∀ ts ⊆ tokens, ∀ e rest digits, Parser.parse Parser.primary ts = (.error e, rest) →
      e.cause = .literalOutOfRange digits →
      ∃ t ∈ ts, rest.head? = some t ∧ e.position = some t.position ∧ t.TooGreat digits) ∧
    ∀ name e digits, Script.ofTokens name tokens = .error e →
      e.cause = .literalOutOfRange digits →
      ∃ t ∈ tokens, e.position = some t.position ∧ t.TooGreat digits := by
  have hwell := h.wellFormed
  refine ⟨?_, ?_, ?_, ?_, ?_⟩
  · intro t ht digits hlexeme
    have hdigits := hasDigits_of_integer hlexeme
    obtain ⟨hnumeral, hfinds⟩ := finds_of_integer (hwell t ht) hlexeme
    exact ⟨hnumeral, hdigits.readAs hfinds, fun hlt =>
      hdigits.outOfRange hfinds (Nat.not_le_of_lt hlt)⟩
  · intro t ht digits hlexeme
    have hdigits := hasDigits_of_hexInteger hlexeme
    obtain ⟨hnumeral, hfinds⟩ := finds_of_hexInteger (hwell t ht) hlexeme
    exact ⟨hnumeral, hdigits.readAs hfinds, fun hle =>
      hdigits.outOfRange hfinds (Nat.not_lt_of_le hle)⟩
  · intro t ht digits hlexeme
    exact readAs_of_read? (read?_of_double (hwell t ht) hlexeme)
  · intro ts hts e rest digits hparse hcause
    obtain ⟨t, ht, hhead, hunreadable⟩ := Parser.unreadable_of_parse
      (fun n => (Parser.expressionsLocate n).primary) hparse
      (by rw [hcause, ParseError.Cause.grammatical])
    exact ⟨t, ht, hhead, hunreadable.position, hunreadable.tooGreat (hwell t (hts ht)) hcause⟩
  · intro name e digits hscript hcause
    obtain ⟨t, ht, hunreadable⟩ := Script.unreadable_of_ofTokens hscript
      (by rw [hcause, ParseError.Cause.grammatical])
    exact ⟨t, ht, hunreadable.position, hunreadable.tooGreat (hwell t ht) hcause⟩

/-- Numbers at both ends of both ranges, the first ones with zeros in front. -/
def extremeTokens : List Token :=
  [⟨.integer "00000000002147483647", ⟨"s", 1, 1⟩⟩, ⟨.integer "2147483648", ⟨"s", 1, 22⟩⟩,
    ⟨.hexInteger "00000fFfFffFF", ⟨"s", 2, 1⟩⟩, ⟨.hexInteger "100000000", ⟨"s", 2, 17⟩⟩,
    ⟨.double "1e400", ⟨"s", 2, 29⟩⟩]

/-- Zeros in front do not matter, the greatest numbers of both notations are read and the
next are refused, and a double beyond all is infinite. -/
theorem literals_mean_numbers_extremeTokens :
    Scanned "s" extremeTokens ∧
    (∃ n : Int32, n.toInt = 2147483647 ∧
      ReadAs ⟨.integer "00000000002147483647", ⟨"s", 1, 1⟩⟩ (.int n)) ∧
    OutOfRange ⟨.integer "2147483648", ⟨"s", 1, 22⟩⟩ "2147483648" ∧
    (∃ n : Int32, n.toInt = -1 ∧ ReadAs ⟨.hexInteger "00000fFfFffFF", ⟨"s", 2, 1⟩⟩ (.int n)) ∧
    OutOfRange ⟨.hexInteger "100000000", ⟨"s", 2, 17⟩⟩ "100000000" ∧
    ReadAs ⟨.double "1e400", ⟨"s", 2, 29⟩⟩ (.double (Double.ofText "1e400")) ∧
    ∃ t ∈ extremeTokens.drop 1, (extremeTokens.drop 1).head? = some t ∧
      some (⟨"s", 1, 22⟩ : Position) = some t.position ∧ t.TooGreat "2147483648" := by
  have hscan : Scanned "s" extremeTokens :=
    .inl ⟨"00000000002147483647 2147483648\n0x00000fFfFffFF 0X100000000 1e400", rfl⟩
  obtain ⟨hinteger, hhex, hdouble, hprimary, -⟩ := literals_mean_numbers hscan
  obtain ⟨-, hgreatest, -⟩ := hinteger _ (.head _) _ rfl
  obtain ⟨-, -, hbeyond⟩ := hinteger _ (.tail _ (.head _)) _ rfl
  obtain ⟨-, hminusOne, -⟩ := hhex _ (.tail _ (.tail _ (.head _))) _ rfl
  obtain ⟨-, -, htooMany⟩ := hhex _ (.tail _ (.tail _ (.tail _ (.head _)))) _ rfl
  have hlast := hdouble _ (.tail _ (.tail _ (.tail _ (.tail _ (.head _))))) _ rfl
  obtain ⟨n, hn, hread⟩ := hgreatest (by decide)
  obtain ⟨m, hm, hread'⟩ := hminusOne (by decide)
  refine ⟨hscan, ⟨n, hn.trans (by decide), hread⟩, hbeyond (by decide),
    ⟨m, hm.trans (by decide), hread'⟩, htooMany (by decide), hlast, ?_⟩
  exact hprimary (extremeTokens.drop 1) (List.drop_subset _ _) _ _ _
    (hbeyond (by decide) (extremeTokens.drop 2)) rfl

end Token

end Scriptlet
