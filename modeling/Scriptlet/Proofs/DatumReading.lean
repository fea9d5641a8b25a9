import Scriptlet.Proofs.DatumTokens
import Scriptlet.Proofs.RoundTrip

/-!
# Reading written data

The tokens of a datum derive an expression that spells it out, with a minus sign
as an operator before each negative integer (`Datum.readable`).  The one
exception is the least integer: its digits stand for a number that no integer
has, so the parser stops there and nothing of the text is run (`Datum.refused`).

The second part needs to know of the parser how it fails.  An error in a phrase
is an error of every phrase that it is the beginning of, and of one in which it
follows what could be read (`Parser.Refuses`).
-/

namespace Scriptlet

/-! ## Phrases that are refused -/

namespace Parser

variable {α : Type} {ts us : List Token} {e : ParseError}

/-- The parser fails with this error on all tokens that begin with these.  The fuel
grows with the tokens as it does for those that are read. -/
def Refuses (p : Nat → Parser α) (extra : Nat) (ts : List Token) (e : ParseError) : Prop :=
  ∀ n rest, 24 * ts.length + extra ≤ n → ∃ rest', p n (ts ++ rest) = (.failed e, rest')

namespace Refuses

/-- What is refused stays refused with more tokens behind it. -/
theorem append {p : Nat → Parser α} {extra : Nat} (h : Refuses p extra ts e) (us : List Token) :
    Refuses p extra (ts ++ us) e := by
  intro n rest hn
  rw [List.length_append] at hn
  rw [List.append_assoc]
  exact h n _ (by omega)

/-- A token that is refused as a literal is refused as a primary expression. -/
theorem literal {lexeme : Lexeme} {cause : ParseError.Cause}
    (h : Literal.read? lexeme = some (.error cause)) (p : Position) :
    Refuses primary 1 [⟨lexeme, p⟩] ⟨cause, some p⟩ := by
  intro n rest hn
  simp only [List.length_cons, List.length_nil] at hn
  obtain ⟨m, rfl⟩ : ∃ m, n = m + 1 := ⟨n - 1, by omega⟩
  have hfail : Parser.literal lexeme p (⟨lexeme, p⟩ :: rest) =
      (.failed ⟨cause, some p⟩, ⟨lexeme, p⟩ :: rest) := by
    unfold Parser.literal
    rw [h]
    rfl
  have hnames : lexeme.lvalueName? = none ∧ ∀ name, lexeme ≠ .identifier name := by
    cases lexeme with
    | identifier _ | keyword _ | symbol _ => cases h
    | _ => exact ⟨rfl, nofun⟩
  have hcall := Parsed.call_eq_none (n := m) (by omega) (callHead_of_ne_identifier hnames.2 p rest)
  have hlvalue := Parsed.lvalue_eq_none (n := m) (by omega) (lvalueHead_of_eq_none hnames.1 p rest)
  refine ⟨⟨lexeme, p⟩ :: rest, Run.bind_eq_of_done hcall (Run.bind_eq_of_done hlvalue ?_)⟩
  refine Run.bind_eq_of_done rfl ?_
  cases lexeme with
  | identifier _ | keyword _ | symbol _ => cases h
  | _ => exact hfail

/-- Where no sign is in front, an operand is refused as its primary expression is. -/
theorem ofPrimary (hoperator : ∀ (op : UnaryOp) rest, nextIs op.symbol (ts ++ rest) = false)
    (h : Refuses primary 1 ts e) : Refuses unary 2 ts e := by
  intro n rest hn
  obtain ⟨m, rfl⟩ : ∃ m, n = m + 1 := ⟨n - 1, by omega⟩
  obtain ⟨rest', hfail⟩ := h m rest (by omega)
  have hnone := unaryOperator_of_nextIs_eq_false fun op => hoperator op rest
  exact ⟨rest', Run.bind_eq_of_done hnone hfail⟩

/-- An operand that is refused is refused behind a sign. -/
theorem operator (h : Refuses unary 2 ts e) (op : UnaryOp) (p : Position) :
    Refuses unary 2 (⟨.symbol op.symbol, p⟩ :: ts) e := by
  intro n rest hn
  simp only [List.length_cons] at hn
  obtain ⟨m, rfl⟩ : ∃ m, n = m + 1 := ⟨n - 1, by omega⟩
  obtain ⟨rest', hfail⟩ := h m rest (by omega)
  exact ⟨rest', Run.bind_eq_of_done (unaryOperator_symbol op p _) (Run.bind_failed hfail _)⟩

/-- Every level of operators begins with an operand. -/
theorem binary (h : Refuses unary 2 ts e) (levels : List (List BinaryOp)) :
    Refuses (fun n => Parser.binary n levels) (3 + levels.length) ts e := by
  induction levels with
  | nil =>
      intro n rest hn
      obtain ⟨m, rfl⟩ : ∃ m, n = m + 1 := ⟨n - 1, by omega⟩
      simp only [List.length_nil] at hn
      exact h m rest (by omega)
  | cons ops tighter ih =>
      intro n rest hn
      simp only [List.length_cons] at hn
      obtain ⟨m, rfl⟩ : ∃ m, n = m + 1 := ⟨n - 1, by omega⟩
      obtain ⟨rest', hfail⟩ := ih m rest (by omega)
      exact ⟨rest', Run.bind_failed hfail _⟩

/-- An expression is refused if the operand in front is, since every level begins with
that. -/
theorem expression {lexeme : Lexeme} {p : Position} (hname : lexeme.lvalueName? = none)
    (h : Refuses unary 2 (⟨lexeme, p⟩ :: ts) e) :
    Refuses Parser.expression 16 (⟨lexeme, p⟩ :: ts) e := by
  intro n rest hn
  obtain ⟨m, rfl⟩ : ∃ m, n = m + 3 := ⟨n - 3, by omega⟩
  have hlevels : BinaryOp.levels.length = 10 := rfl
  obtain ⟨rest', hfail⟩ := h.binary BinaryOp.levels m rest (by omega)
  have htarget : assignmentHead (lvalue (m + 1)) (⟨lexeme, p⟩ :: (ts ++ rest)) =
      (.done none, ⟨lexeme, p⟩ :: (ts ++ rest)) :=
    assignmentHead_of_none (Run.bind_eq_of_done (lvalueHead_of_eq_none hname p _) rfl)
  have hconditional : conditional (m + 1) (⟨lexeme, p⟩ :: (ts ++ rest)) = (.failed e, rest') :=
    Run.bind_failed hfail _
  exact ⟨rest', Run.bind_failed (Run.bind_eq_of_done htarget hconditional) _⟩

/-! ## Elements -/

/-- Elements are refused if the first one is. -/
theorem firstElement (h : Refuses Parser.expression 16 ts e) (closing : Symbol) :
    Refuses (fun n => separated1 n closing) 17 ts e := by
  intro n rest hn
  obtain ⟨m, rfl⟩ : ∃ m, n = m + 1 := ⟨n - 1, by omega⟩
  obtain ⟨rest', hfail⟩ := h m rest (by omega)
  exact ⟨rest', Run.bind_failed hfail _⟩

/-- Elements are refused if those behind the first comma are. -/
theorem laterElement {first : Expr} (hfirst : (Phrase.expression first).Derives ts)
    {closing : Symbol} (h : Refuses (fun n => separated1 n closing) 17 us e) (q : Position) :
    Refuses (fun n => separated1 n closing) 17 (ts ++ ⟨.symbol .comma, q⟩ :: us) e := by
  intro n rest hn
  simp only [List.length_append, List.length_cons] at hn
  rw [List.append_assoc, List.cons_append]
  obtain ⟨m, rfl⟩ : ∃ m, n = m + 1 := ⟨n - 1, by omega⟩
  obtain ⟨rest', hfail⟩ := h m rest (by omega)
  refine ⟨rest', Run.bind_eq_of_done (expression_of_derives hfirst (by omega) rfl q _) ?_⟩
  exact Run.bind_eq_of_done (eat_symbol _ _ _) (Run.bind_failed hfail _)

/-- A list is refused if its elements are. -/
theorem list (hclosing : ∀ rest, nextIs .closeBracket (ts ++ rest) = false)
    (h : Refuses (fun n => separated1 n .closeBracket) 17 ts e) (p : Position) :
    Refuses primary 1 (⟨.symbol .openBracket, p⟩ :: ts) e := by
  intro n rest hn
  simp only [List.length_cons] at hn
  obtain ⟨m, rfl⟩ : ∃ m, n = m + 2 := ⟨n - 2, by omega⟩
  obtain ⟨rest', hfail⟩ := h m rest (by omega)
  obtain ⟨hcall, hlvalue⟩ := Parsed.primary_opening (Nat.succ_pos m)
    (show Symbol.openBracket ≠ .ellipsis by decide) p (ts ++ rest)
  have hseparated : separated (m + 1) .closeBracket (ts ++ rest) = (.failed e, rest') :=
    Run.bind_eq_of_done (eat_of_nextIs_eq_false (hclosing rest)) hfail
  refine ⟨rest', Run.bind_eq_of_done hcall (Run.bind_eq_of_done hlvalue ?_)⟩
  refine Run.bind_eq_of_done rfl (Run.bind_eq_of_done rfl ?_)
  exact Run.bind_failed hseparated _

/-! ## Scripts -/

/-- A script is refused that begins with the return of a refused expression. -/
theorem returned (h : Refuses Parser.expression 16 ts e)
    (hsemicolon : ∀ rest, nextIs .semicolon (ts ++ rest) = false) (p : Position) :
    Refuses items 4 (⟨.keyword .returnWord, p⟩ :: ts) e := by
  intro n rest hn
  simp only [List.length_cons] at hn
  obtain ⟨m, rfl⟩ : ∃ m, n = m + 3 := ⟨n - 3, by omega⟩
  obtain ⟨rest', hfail⟩ := h m rest (by omega)
  have hreturn : keywordStatement (m + 1) .returnWord p
      (⟨.keyword .returnWord, p⟩ :: (ts ++ rest)) = (.failed e, rest') := by
    refine Run.bind_eq_of_done rfl ?_
    exact Run.bind_eq_of_done (eat_of_nextIs_eq_false (hsemicolon rest)) (Run.bind_failed hfail _)
  have hstatement : statement (m + 2) (⟨.keyword .returnWord, p⟩ :: (ts ++ rest)) =
      (.failed e, rest') :=
    Run.bind_eq_of_done rfl hreturn
  exact ⟨rest', Run.bind_eq_of_done rfl (Run.bind_failed hstatement _)⟩

/-- A script is not read whose tokens are refused. -/
theorem ofTokens {extra : Nat} (h : Refuses items extra ts e) (hextra : extra ≤ 24)
    (hcause : e.cause ≠ .unexpectedEnd) (name : String) (us : List Token) :
    Script.ofTokens name (ts ++ us) = .error e := by
  have hfuel : 24 * ts.length + extra ≤ fuel (ts ++ us) := by
    rw [fuel, List.length_append]
    omega
  obtain ⟨rest', hfail⟩ := h _ us hfuel
  have hlast : Script.atLastToken (ts ++ us) e = e := by
    unfold Script.atLastToken
    split
    next hend _ => exact absurd hend hcause
    next => rfl
  unfold Script.ofTokens parse
  rw [hfail]
  simp only [Outcome.toExcept, hlast]

end Refuses

end Parser

/-! ## Integers in decimal digits -/

namespace Literal

/-- Reading the digits of a number gives it back. -/
theorem value_toDigits (n : Nat) : Digits.value (Nat.toDigits 10 n) = n :=
  Nat.ofDigitChars_toDigits (by decide) (by decide)

/-- The digits of a number make a number. -/
theorem isNumber_toDigits (n : Nat) : Digits.isNumber (Nat.toDigits 10 n) = true :=
  Digits.isNumber_iff.mpr ⟨Nat.toDigits_ne_nil, fun _ hc =>
    Nat.isDigit_of_mem_toDigits (by decide) (by decide) hc⟩

/-- The digits of a number that fits are read as this number. -/
theorem read?_toDigits_of_lt {n : Nat} (h : n < 2147483648) :
    read? (.integer (String.ofList (Nat.toDigits 10 n))) = some (.ok (.int (Int32.ofNat n))) := by
  have hfits : ofInt? n = some (Int32.ofNat n) := if_pos ⟨by omega, by omega⟩
  rw [read?, String.toList_ofList, ofDecimal?_of_isNumber (isNumber_toDigits n), value_toDigits,
    hfits]
  rfl

/-- The digits of a greater number are refused. -/
theorem read?_toDigits_of_le {n : Nat} (h : 2147483648 ≤ n) :
    read? (.integer (String.ofList (Nat.toDigits 10 n))) =
      some (.error (.literalOutOfRange (String.ofList (Nat.toDigits 10 n)))) := by
  have hfits : ofInt? n = none := if_neg (by omega)
  rw [read?, String.toList_ofList, ofDecimal?_of_isNumber (isNumber_toDigits n), value_toDigits,
    hfits]
  rfl

/-- An integer that is not negative is that of its digits. -/
theorem ofNat_of_toInt_eq {n : Int32} {m : Nat} (h : n.toInt = m) :
    m < 2147483648 ∧ Int32.ofNat m = n := by
  have hlt := n.toInt_lt
  have hm : m < 2147483648 := by omega
  refine ⟨hm, Int32.toInt_inj.mp ?_⟩
  rw [Int32.toInt_ofNat_of_lt hm, h]

/-- A negative integer is the opposite of that of its digits, apart from the least. -/
theorem neg_ofNat_of_toInt_eq {n : Int32} {m : Nat} (h : n.toInt = Int.negSucc m)
    (hmin : n ≠ Int32.minValue) : m + 1 < 2147483648 ∧ -Int32.ofNat (m + 1) = n := by
  have hle := n.le_toInt
  have hne : n.toInt ≠ -2147483648 := fun heq => hmin (Int32.toInt_inj.mp heq)
  have hm : m + 1 < 2147483648 := by omega
  refine ⟨hm, Int32.toInt_inj.mp ?_⟩
  rw [Int32.toInt_neg, Int32.toInt_ofNat_of_lt hm, h]
  exact Int.bmod_eq_of_le (by omega) (by omega)

end Literal

/-! ## Data in tokens -/

/-- The expression spells out the datum. -/
inductive Expr.Spells : Expr → Datum → Prop where
  | bool (p : Position) (b : Bool) : Spells (.literal p (.bool b)) (.bool b)
  | int (p : Position) (n : Int32) : Spells (.literal p (.int n)) (.int n)
  | negative (p q : Position) {n k : Int32} (h : -k = n) :
      Spells (.unary p .negate (.literal q (.int k))) (.int n)
  | list (p : Position) {es : List Expr} {items : List Datum} (h : List.Forall₂ Spells es items) :
      Spells (.list p es) (.list items)

/-- Whether a written datum can begin with a token. -/
def Lexeme.startsDatum : Lexeme → Bool
  | .boolean _ => true
  | .integer _ => true
  | .symbol mark => [.openBracket, .minus].contains mark
  | _ => false

namespace Datum

variable {d d' : Datum} {items ds : List Datum} {ts : List Token}

/-- The tokens say what the data do with commas between them. -/
def AllWrittenAs (ds : List Datum) (ts : List Token) : Prop :=
  ts.map Token.lexeme = Cut.lexemesOf (piecesBetween ds)

/-- A truth value is written as one token. -/
theorem WrittenAs.bool {b : Bool} (h : (Datum.bool b).WrittenAs ts) :
    ∃ p, ts = [⟨.boolean b, p⟩] := by
  obtain ⟨⟨_, p⟩, rfl, rfl⟩ := List.map_eq_singleton_iff.mp h
  exact ⟨p, rfl⟩

/-- An integer that is not negative is written as the token of its digits. -/
theorem WrittenAs.natural {n : Int32} {m : Nat} (h : (Datum.int n).WrittenAs ts)
    (hn : n.toInt = m) : ∃ p, ts = [⟨.integer (String.ofList (Nat.toDigits 10 m)), p⟩] := by
  rw [WrittenAs, pieces, hn] at h
  obtain ⟨⟨_, p⟩, rfl, rfl⟩ := List.map_eq_singleton_iff.mp h
  exact ⟨p, rfl⟩

/-- A negative integer is written as a minus sign and the digits of its opposite. -/
theorem WrittenAs.negative {n : Int32} {m : Nat} (h : (Datum.int n).WrittenAs ts)
    (hn : n.toInt = Int.negSucc m) :
    ∃ p q, ts = [⟨.symbol .minus, p⟩, ⟨.integer (String.ofList (Nat.toDigits 10 (m + 1))), q⟩] := by
  rw [WrittenAs, pieces, hn] at h
  obtain ⟨⟨_, p⟩, us, rfl, rfl, hus⟩ := List.map_eq_cons_iff.mp h
  obtain ⟨⟨_, q⟩, rfl, rfl⟩ := List.map_eq_singleton_iff.mp hus
  exact ⟨p, q, rfl⟩

/-- A list is written as its elements between brackets. -/
theorem WrittenAs.list (h : (Datum.list items).WrittenAs ts) :
    ∃ p us q, ts = ⟨.symbol .openBracket, p⟩ :: (us ++ [⟨.symbol .closeBracket, q⟩]) ∧
      AllWrittenAs items us := by
  have hlexemes : Cut.lexemesOf (Datum.list items).pieces =
      .symbol .openBracket :: (Cut.lexemesOf (piecesBetween items) ++ [.symbol .closeBracket]) := by
    simp [pieces, Cut.lexemesOf, Rule.lexeme?, mark]
  rw [WrittenAs, hlexemes] at h
  obtain ⟨⟨_, p⟩, us, rfl, rfl, hus⟩ := List.map_eq_cons_iff.mp h
  obtain ⟨us, vs, rfl, hitems, hvs⟩ := List.map_eq_append_iff.mp hus
  obtain ⟨⟨_, q⟩, rfl, rfl⟩ := List.map_eq_singleton_iff.mp hvs
  exact ⟨p, us, q, rfl, hitems⟩

/-- Two data or more are written as the first, a comma and the others. -/
theorem AllWrittenAs.more (h : AllWrittenAs (d :: d' :: ds) ts) :
    ∃ us q vs, ts = us ++ ⟨.symbol .comma, q⟩ :: vs ∧ d.WrittenAs us ∧
      AllWrittenAs (d' :: ds) vs := by
  have hlexemes : Cut.lexemesOf (piecesBetween (d :: d' :: ds)) =
      Cut.lexemesOf d.pieces ++ .symbol .comma :: Cut.lexemesOf (piecesBetween (d' :: ds)) := by
    simp [piecesBetween, Cut.lexemesOf, Rule.lexeme?, mark]
  rw [AllWrittenAs, hlexemes] at h
  obtain ⟨us, vs, rfl, hus, hvs⟩ := List.map_eq_append_iff.mp h
  obtain ⟨⟨_, q⟩, vs, rfl, rfl, hmore⟩ := List.map_eq_cons_iff.mp hvs
  exact ⟨us, q, vs, rfl, hus, hmore⟩

/-- A written datum begins with a truth value, a number, a minus sign or a bracket. -/
theorem WrittenAs.startsWith (h : d.WrittenAs ts) : StartsWith Lexeme.startsDatum ts := by
  cases d with
  | bool b =>
      obtain ⟨p, rfl⟩ := h.bool
      exact .cons rfl _
  | int n =>
      cases hn : n.toInt with
      | ofNat m =>
          obtain ⟨p, rfl⟩ := h.natural hn
          exact .cons rfl _
      | negSucc m =>
          obtain ⟨p, q, rfl⟩ := h.negative hn
          exact .cons rfl _
  | list items =>
      obtain ⟨p, us, q, rfl, -⟩ := h.list
      exact .cons rfl _

/-- Written data begin with a truth value, a number, a minus sign or a bracket, unless there
are none. -/
theorem AllWrittenAs.startsWith (h : AllWrittenAs (d :: ds) ts) :
    StartsWith Lexeme.startsDatum ts := by
  cases ds with
  | nil => exact WrittenAs.startsWith h
  | cons d' ds =>
      obtain ⟨us, q, vs, rfl, hus, -⟩ := h.more
      exact hus.startsWith.append _

/-! ## Data that are read -/

/-- Every integer but the least is derived, a negative one as a sign before its digits. -/
theorem exists_derives_int {n : Int32} (h : (Datum.int n).WrittenAs ts)
    (hmin : n ≠ Int32.minValue) :
    ∃ e, (Phrase.unary e).Derives ts ∧ e.Spells (.int n) := by
  cases hn : n.toInt with
  | ofNat m =>
      obtain ⟨hlt, heq⟩ := Literal.ofNat_of_toInt_eq hn
      obtain ⟨p, rfl⟩ := h.natural hn
      refine ⟨_, .ofPrimary (.literal (Literal.read?_toDigits_of_lt hlt)), ?_⟩
      rw [heq]
      exact .int p n
  | negSucc m =>
      obtain ⟨hlt, heq⟩ := Literal.neg_ofNat_of_toInt_eq hn hmin
      obtain ⟨p, q, rfl⟩ := h.negative hn
      have hliteral := Literal.read?_toDigits_of_lt hlt
      refine ⟨.unary p .negate (.literal q (.int (Int32.ofNat (m + 1)))), ?_, .negative p q heq⟩
      exact .operator (.ofPrimary (.literal hliteral))

/-- An operand with its sign is an expression. -/
theorem derives_expression {e : Expr} (h : (Phrase.unary e).Derives ts) :
    (Phrase.expression e).Derives ts := by
  have hunary : (Phrase.ofRank 12 e).Derives ts := h
  exact Phrase.derives_ofRank_of_le (Nat.zero_le 12) (by decide) hunary

/-- The tokens of the datum derive an expression that spells it out. -/
def Readable (d : Datum) : Prop :=
  ∀ ts, d.WrittenAs ts → ∃ e, (Phrase.unary e).Derives ts ∧ e.Spells d

/-- Elements are derived if each of them is.  By induction on the data. -/
theorem exists_derives_elements (ih : ∀ item ∈ d :: ds, item.Readable)
    (h : AllWrittenAs (d :: ds) ts) :
    ∃ es, (Phrase.elements1 es).Derives ts ∧ List.Forall₂ Expr.Spells es (d :: ds) := by
  induction ds generalizing d ts with
  | nil =>
      obtain ⟨e, hderives, hspells⟩ := ih d List.mem_cons_self ts h
      exact ⟨[e], .lastElement (derives_expression hderives), .cons hspells .nil⟩
  | cons d' ds ihmore =>
      obtain ⟨us, q, vs, rfl, hus, hvs⟩ := h.more
      obtain ⟨hfirst, hmore⟩ := List.forall_mem_cons.mp ih
      obtain ⟨e, hderives, hspells⟩ := hfirst us hus
      obtain ⟨es, hderives', hspells'⟩ := ihmore hmore hvs
      exact ⟨e :: es, .moreElements (derives_expression hderives) hderives',
        .cons hspells hspells'⟩

/-- **A datum is read**, unless the least integer is in it. -/
theorem readable (hmin : ¬ d.Mentions Int32.minValue) : d.Readable := by
  induction d with
  | bool b =>
      intro ts h
      obtain ⟨p, rfl⟩ := h.bool
      exact ⟨_, .ofPrimary (.literal rfl), .bool p b⟩
  | int n =>
      intro ts h
      refine exists_derives_int h ?_
      rintro rfl
      exact hmin .here
  | list items ih =>
      intro ts h
      obtain ⟨p, us, q, rfl, hus⟩ := h.list
      have hitems : ∀ item ∈ items, item.Readable :=
        fun item hitem => ih item hitem fun hin => hmin (.inside hitem hin)
      cases items with
      | nil =>
          obtain rfl : us = [] := List.map_eq_nil_iff.mp hus
          exact ⟨_, .ofPrimary (.list .noElements), .list p .nil⟩
      | cons d ds =>
          obtain ⟨es, hderives, hspells⟩ := exists_derives_elements hitems hus
          exact ⟨_, .ofPrimary (.list (.ofElements1 hderives)), .list p hspells⟩

/-! ## Data that are refused -/

/-- The error that the least integer causes: its digits stand for a number that is
out of range. -/
def leastInteger (p : Position) : ParseError :=
  ⟨.literalOutOfRange "2147483648", some p⟩

/-- The tokens of the datum are refused for the digits of the least integer. -/
def Refused (d : Datum) : Prop :=
  ∀ ts, d.WrittenAs ts → ∃ p, Parser.Refuses Parser.unary 2 ts (leastInteger p)

/-- The digits of the least integer are refused, since its opposite is out of range. -/
theorem refused_int : (Datum.int Int32.minValue).Refused := by
  intro ts h
  obtain ⟨p, q, rfl⟩ := h.negative (m := 2147483647) rfl
  have hdigits : String.ofList (Nat.toDigits 10 (2147483647 + 1)) = "2147483648" := by decide
  have hliteral := Literal.read?_toDigits_of_le (n := 2147483647 + 1) (by decide)
  have hrefused := (Parser.Refuses.literal hliteral q).ofPrimary fun op rest => rfl
  rw [hdigits] at hrefused ⊢
  exact ⟨q, hrefused.operator .negate p⟩

/-- The digits stop the expression that the tokens of a datum begin. -/
theorem Refused.expression (hd : d.Refused) (h : d.WrittenAs ts) :
    ∃ p, Parser.Refuses Parser.expression 16 ts (leastInteger p) := by
  obtain ⟨p, hrefused⟩ := hd ts h
  obtain ⟨⟨lexeme, q⟩, us, rfl, hstart⟩ := h.startsWith
  refine ⟨p, hrefused.expression ?_⟩
  cases hname : lexeme.lvalueName? with
  | none => rfl
  | some name =>
      rcases Lexeme.lvalueName?_eq_some_iff.mp hname with rfl | ⟨rfl, -⟩ <;> cases hstart

/-- Elements are refused at the first of them that the least integer stands in; those before
it are read. -/
theorem exists_refuses_elements (ih : ∀ item ∈ d :: ds, item.Mentions Int32.minValue → item.Refused)
    (hmin : ∃ item ∈ d :: ds, item.Mentions Int32.minValue) (h : AllWrittenAs (d :: ds) ts) :
    ∃ p, Parser.Refuses (fun n => Parser.separated1 n .closeBracket) 17 ts (leastInteger p) := by
  induction ds generalizing d ts with
  | nil =>
      obtain ⟨item, hitem, hin⟩ := hmin
      obtain ⟨p, hrefused⟩ := (ih item hitem hin).expression (List.mem_singleton.mp hitem ▸ h)
      exact ⟨p, hrefused.firstElement _⟩
  | cons d' ds ihmore =>
      obtain ⟨us, q, vs, rfl, hus, hvs⟩ := h.more
      obtain ⟨hfirst, hmore⟩ := List.forall_mem_cons.mp ih
      by_cases hd : d.Mentions Int32.minValue
      · obtain ⟨p, hrefused⟩ := (hfirst hd).expression hus
        exact ⟨p, (hrefused.firstElement _).append _⟩
      · -- the first element is read, so the error is in a later one
        obtain ⟨e, hderives, -⟩ := readable hd us hus
        have hlater : ∃ item ∈ d' :: ds, item.Mentions Int32.minValue := by
          obtain ⟨item, hitem, hin⟩ := hmin
          rcases List.mem_cons.mp hitem with rfl | hlater
          · exact absurd hin hd
          · exact ⟨item, hlater, hin⟩
        obtain ⟨p, hrefused⟩ := ihmore hmore hlater hvs
        exact ⟨p, .laterElement (derives_expression hderives) hrefused q⟩

/-- **A datum is refused if the least integer is in it.** -/
theorem refused (hmin : d.Mentions Int32.minValue) : d.Refused := by
  induction d with
  | bool b => cases hmin
  | int n =>
      cases hmin
      exact refused_int
  | list items ih =>
      intro ts h
      obtain ⟨p, us, q, rfl, hus⟩ := h.list
      cases hmin with
      | @inside item _ hitem hin =>
          cases items with
          | nil => cases hitem
          | cons d ds =>
              obtain ⟨r, hrefused⟩ := exists_refuses_elements ih ⟨item, hitem, hin⟩ hus
              have hlist : Parser.Refuses Parser.primary 1 (⟨.symbol .openBracket, p⟩ :: us)
                  (leastInteger r) :=
                hrefused.list (fun rest => (hus.startsWith.append rest).nextIs_eq_false rfl) p
              refine ⟨r, (hlist.ofPrimary fun op rest => ?_).append [⟨.symbol .closeBracket, q⟩]⟩
              cases op <;> rfl

/-! ## The statement that returns a datum -/

/-- The text of the statement is read as one, if the datum is readable. -/
theorem Readable.ofText_return (hd : d.Readable) (name : String) :
    ∃ p e, Script.ofText name ("return " ++ d.text ++ ";") = .ok ⟨name, [.returns p (some e)], []⟩ ∧
      e.Spells d := by
  obtain ⟨p, q, ts, hscan, hts⟩ := d.exists_scan_return name
  obtain ⟨e, hderives, hspells⟩ := hd ts hts
  refine ⟨p, e, ?_, hspells⟩
  have hreturn : (Passage.statement (.returns p (some e))).Derives
      (⟨.keyword .returnWord, p⟩ :: (ts ++ [⟨.symbol .semicolon, q⟩])) :=
    .returnValue (derives_expression hderives)
  have hscript : (Script.mk name [.returns p (some e)] []).Derives
      (⟨.keyword .returnWord, p⟩ :: (ts ++ [⟨.symbol .semicolon, q⟩])) := by
    have hitems := Items.statement hreturn .nil
    rw [List.append_nil] at hitems
    exact hitems
  rw [Script.ofText, hscan]
  exact hscript.ofTokens

/-- The text of the statement is no script, if the datum is refused. -/
theorem Refused.ofText_return (hd : d.Refused) (name : String) :
    ∃ p, Script.ofText name ("return " ++ d.text ++ ";") = .error (leastInteger p) := by
  obtain ⟨p, q, ts, hscan, hts⟩ := d.exists_scan_return name
  obtain ⟨r, hrefused⟩ := hd.expression hts
  refine ⟨r, ?_⟩
  have hitems := hrefused.returned
    (fun rest => (hts.startsWith.append rest).nextIs_eq_false rfl) p
  rw [Script.ofText, hscan]
  exact hitems.ofTokens (by decide) nofun name [⟨.symbol .semicolon, q⟩]

end Datum

end Scriptlet
