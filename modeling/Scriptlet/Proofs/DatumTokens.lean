import Scriptlet.Proofs.Datum
import Scriptlet.Proofs.MaximalMunch

/-!
# The tokens of written data

The text of a datum is cut into the brackets, commas, words, signs and digits
that it was put together from.  None of these grows into what follows it: a mark
is no beginning of any other token, and a word or a number goes on neither with
a comma nor with a bracket nor with a semicolon.
-/

namespace Scriptlet

/-! ## Where a piece ends -/

namespace Pattern

/-- A repetition matches characters that all pass the test. -/
theorem matches_many_char {test : Char → Bool} {s : List Char} (h : ∀ c ∈ s, test c = true) :
    Matches (.many (.char test)) s := by
  induction s with
  | nil => exact .none
  | cons c s ih =>
      obtain ⟨hhead, htail⟩ := List.forall_mem_cons.mp h
      exact .more (.char hhead) (ih htail)

/-- A given text begins with a character of its own. -/
theorem mem_of_canStart_literal {text : List Char} {c : Char}
    (h : (literal text).canStart c = true) : c ∈ text := by
  cases text with
  | nil => cases h
  | cons first cs =>
      obtain rfl : c = first := by simpa [literal, only, canStart, nullable] using h
      exact List.mem_cons_self

end Pattern

namespace Rule

open Pattern

/-- The marks of written data.  Each is one character, and nothing else begins
with it. -/
def dataMarks : List Symbol :=
  [.openBracket, .closeBracket, .comma, .semicolon, .minus]

/-- The characters that end a word or a number in written data. -/
def dataStops : List Char :=
  [',', ']', ';']

/-- A beginning of a text that is longer than what stands before a character
holds the character. -/
theorem length_le_of_not_mem {piece piece' rest : List Char} {next : Char}
    (h : piece' <+: piece ++ next :: rest) (hnext : next ∉ piece') :
    piece'.length ≤ piece.length := by
  by_contra hlonger
  have hbegins : piece ++ [next] <+: piece' := by
    refine List.prefix_of_prefix_length_le ?_ h ?_
    · exact ⟨rest, by simp⟩
    · simp only [List.length_append, List.length_cons, List.length_nil]
      omega
  exact hnext (hbegins.subset (by simp))

/-- A piece is taken if the text ends after it, or goes on with a character that is in no
text with the same beginning. -/
theorem takes_of_head? {rule : Rule} {first : Char} {cs rest : List Char}
    (happlies : rule.pattern.Matches (first :: cs))
    (hname : rule = .identifier →
      ∀ rule' : Rule, rule'.reserved = true → ¬ rule'.pattern.Matches (first :: cs))
    (hnext : ∀ next ∈ rest.head?, ∀ rule' : Rule, rule'.pattern.canStart first = true →
      rule'.pattern.canHold next = false) :
    rule.Takes (first :: cs) rest := by
  refine ⟨happlies, fun rule' piece' hbegins hmatches => ?_, hname⟩
  cases rest with
  | nil =>
      rw [List.append_nil] at hbegins
      exact hbegins.length_le
  | cons next rest =>
      refine length_le_of_not_mem hbegins fun hmem => ?_
      cases piece' with
      | nil => cases hmem
      | cons c cs' =>
          obtain ⟨rfl, -⟩ := List.cons_prefix_cons.mp hbegins
          have hhold := canHold_of_matches hmatches hmem
          rw [hnext next rfl rule' (canStart_of_matches hmatches)] at hhold
          cases hhold

/-- A piece is taken up to a character that is in no text with the same beginning. -/
theorem takes_before {rule : Rule} {first next : Char} {cs : List Char}
    (happlies : rule.pattern.Matches (first :: cs)) (hname : rule ≠ .identifier)
    (hnext : ∀ rule' : Rule, rule'.pattern.canStart first = true →
      rule'.pattern.canHold next = false) (rest : List Char) :
    rule.Takes (first :: cs) (next :: rest) := by
  refine takes_of_head? happlies (fun heq => absurd heq hname) ?_
  rintro _ ⟨⟩
  exact hnext

/-- A mark of written data is taken whatever follows it. -/
theorem takes_mark {mark : Symbol} (hmark : mark ∈ dataMarks) (rest : List Char) :
    (Rule.symbol mark).Takes mark.text.toList rest := by
  have hall : ∀ mark ∈ dataMarks, mark.text.toList.length = 1 ∧
      ∀ r ∈ all, mark.text.toList.any r.pattern.canStart = true → r = .symbol mark := by
    decide +kernel
  obtain ⟨hlength, honly⟩ := hall mark hmark
  obtain ⟨c, hc⟩ := List.length_eq_one_iff.mp hlength
  refine ⟨matches_literal_iff.mpr rfl, fun rule' piece' hbegins hmatches => ?_, nofun⟩
  cases piece' with
  | nil => exact Nat.zero_le _
  | cons c' cs =>
      rw [hc] at hbegins
      obtain ⟨rfl, -⟩ := List.cons_prefix_cons.mp hbegins
      have hstart := canStart_of_matches hmatches
      rw [honly rule' (mem_all rule') (by simp [hc, hstart])] at hmatches
      exact Nat.le_of_eq (congrArg List.length (matches_literal_iff.mp hmatches))

/-- A stop is in no text of a rule that can hold none of the stops. -/
theorem canHold_eq_false_of_any {rule : Rule} (h : dataStops.any rule.pattern.canHold = false)
    {next : Char} (hnext : next ∈ dataStops) : rule.pattern.canHold next = false := by
  simpa using List.any_eq_false.mp h next hnext

/-- A truth value is taken up to a stop. -/
theorem takes_boolean (b : Bool) {next : Char} (hnext : next ∈ dataStops) (rest : List Char) :
    (Rule.boolean b).Takes (Lexeme.booleanText b).toList (next :: rest) := by
  have hall : ∀ r ∈ all, r.pattern.canStart 't' = true ∨ r.pattern.canStart 'f' = true →
      dataStops.any r.pattern.canHold = false := by
    decide +kernel
  have happlies : (Rule.boolean b).pattern.Matches (Lexeme.booleanText b).toList :=
    matches_literal_iff.mpr rfl
  cases b with
  | true =>
      exact takes_before happlies nofun
        (fun r hr => canHold_eq_false_of_any (hall r (mem_all r) (.inl hr)) hnext) rest
  | false =>
      exact takes_before happlies nofun
        (fun r hr => canHold_eq_false_of_any (hall r (mem_all r) (.inr hr)) hnext) rest

/-- Only numbers begin with a digit. -/
theorem mem_numbers_of_canStart {rule : Rule} {c : Char} (hc : Digits.isDigit c = true)
    (h : rule.pattern.canStart c = true) : rule ∈ [Rule.hexInteger, .double, .integer] := by
  cases hfixed : rule.fixedText? with
  | some text =>
      have hall : ∀ r ∈ all, ∀ text ∈ r.fixedText?, text.any Digits.isDigit = false := by
        decide +kernel
      rw [pattern_of_fixedText? hfixed] at h
      have hmem := mem_of_canStart_literal h
      exact absurd hc (List.any_eq_false.mp (hall rule (mem_all rule) text hfixed) c hmem)
  | none =>
      obtain ⟨hblank, hquote, hslash⟩ := not_isBlank (.inr (.inl hc))
      have hfamily := family_eq_of_canStart hfixed h
      simp only [startingWith, hblank, beq_eq_false_iff_ne.mpr hquote,
        beq_eq_false_iff_ne.mpr hslash, isNameStart_eq_false_of_isDigit hc, Bool.false_eq_true,
        if_false] at hfamily
      cases rule with
      | hexInteger | double | integer => decide
      | _ => cases hfamily

/-- A run of digits is taken up to a stop. -/
theorem takes_digits {digits : List Char} (hne : digits ≠ [])
    (hdigits : ∀ c ∈ digits, Digits.isDigit c = true) {next : Char} (hnext : next ∈ dataStops)
    (rest : List Char) : Rule.integer.Takes digits (next :: rest) := by
  have hall : ∀ r ∈ [Rule.hexInteger, .double, .integer],
      dataStops.any r.pattern.canHold = false := by
    decide +kernel
  obtain ⟨c, cs, rfl⟩ := List.exists_cons_of_ne_nil hne
  obtain ⟨hhead, htail⟩ := List.forall_mem_cons.mp hdigits
  have happlies : Rule.integer.pattern.Matches (c :: cs) :=
    .andThen (.char hhead) (matches_many_char htail)
  exact takes_before happlies nofun
    (fun r hr => canHold_eq_false_of_any (hall r (mem_numbers_of_canStart hhead hr)) hnext) rest

end Rule

/-! ## Pieces in a row -/

namespace Cut

/-- The text of pieces in a row. -/
def textOf (pieces : List (Rule × List Char)) : List Char :=
  pieces.flatMap Prod.snd

/-- The lexemes of pieces in a row. -/
def lexemesOf (pieces : List (Rule × List Char)) : List Lexeme :=
  pieces.filterMap fun (rule, piece) => rule.lexeme? piece

/-- The pieces are taken one after the other off a text, of which the rest remains. -/
def Taken : List (Rule × List Char) → (rest : List Char) → Prop
  | [], _ => True
  | (rule, piece) :: pieces, rest => rule.Takes piece (textOf pieces ++ rest) ∧ Taken pieces rest

variable {pieces pieces' : List (Rule × List Char)} {rest : List Char}

/-- The text of pieces begins with the first piece. -/
@[simp]
theorem textOf_cons (rule : Rule) (piece : List Char) :
    textOf ((rule, piece) :: pieces) = piece ++ textOf pieces :=
  List.flatMap_cons

/-- The text of pieces in a row is that of the first ones and of the others. -/
@[simp]
theorem textOf_append : textOf (pieces ++ pieces') = textOf pieces ++ textOf pieces' :=
  List.flatMap_append

/-- Pieces are taken off in a row if the others follow where the first ones end. -/
theorem Taken.append (h : Taken pieces (textOf pieces' ++ rest)) (h' : Taken pieces' rest) :
    Taken (pieces ++ pieces') rest := by
  induction pieces with
  | nil => exact h'
  | cons piece pieces ih =>
      obtain ⟨hfirst, hmore⟩ := h
      rw [List.cons_append]
      refine ⟨?_, ih hmore⟩
      rw [textOf_append, List.append_assoc]
      exact hfirst

/-- Pieces that are taken up to the end of a text are its maximal cut. -/
theorem Taken.maximal (h : Taken pieces []) : Maximal (textOf pieces) ⟨pieces, []⟩ := by
  induction pieces with
  | nil =>
      refine .stuck fun rule piece hbegins hmatches => ?_
      rw [List.prefix_nil.mp hbegins] at hmatches
      exact Rule.not_matches_nil rule hmatches
  | cons piece pieces ih =>
      obtain ⟨hfirst, hmore⟩ := h
      rw [List.append_nil] at hfirst
      exact .piece rfl hfirst (ih hmore)

/-- The tokens of pieces have the lexemes of the pieces, wherever they begin. -/
theorem map_lexeme_tokensOf (here : Position) (pieces : List (Rule × List Char)) :
    (tokensOf here pieces).map Token.lexeme = lexemesOf pieces := by
  induction pieces generalizing here with
  | nil => rfl
  | cons piece pieces ih =>
      obtain ⟨rule, piece⟩ := piece
      rw [tokensOf, List.map_append, ih]
      cases hlexeme : rule.lexeme? piece <;> simp [lexemesOf, hlexeme]

end Cut

namespace Token

/-- A text without a line end is one line. -/
theorem linesOf_unifyLineEnds {text : List Char} (h : ∀ c ∈ text, Rule.isLineEnd c = false) :
    linesOf (unifyLineEnds text) = [text] := by
  induction text with
  | nil => rfl
  | cons c cs ih =>
      obtain ⟨hhead, htail⟩ := List.forall_mem_cons.mp h
      simp only [Rule.isLineEnd, Bool.or_eq_false_iff, beq_eq_false_iff_ne] at hhead
      have hunify : unifyLineEnds (c :: cs) = c :: unifyLineEnds cs := by
        rw [unifyLineEnds]
        intro _ hreturn
        exact absurd hreturn hhead.1
      rw [hunify, linesOf, ih htail]
      simp [hhead.2]

/-- The scan of a line finds the pieces that are taken off it. -/
theorem exists_scan_of_taken (script : String) {pieces : List (Rule × List Char)}
    (h : Cut.Taken pieces []) (hline : ∀ c ∈ Cut.textOf pieces, Rule.isLineEnd c = false)
    {text : String} (htext : text.toList = Cut.textOf pieces) :
    ∃ ts, scan script text = .ok ts ∧ ts.map Token.lexeme = Cut.lexemesOf pieces := by
  refine ⟨Cut.tokensOf ⟨script, 1, 1⟩ pieces, ?_, Cut.map_lexeme_tokensOf _ pieces⟩
  have hcuts : List.Forall₂ Cut.Maximal [Cut.textOf pieces] [⟨pieces, []⟩] :=
    .cons h.maximal .nil
  rw [scan, htext, linesOf_unifyLineEnds hline, scanLinesFrom_of_rest_nil script hcuts (by simp)]
  simp [Cut.allTokens, Cut.tokens]

end Token

/-! ## The pieces of a datum -/

namespace Datum

/-- A mark as a piece. -/
def mark (s : Symbol) : Rule × List Char :=
  (.symbol s, s.text.toList)

/-- The pieces of an integer: its digits, after a minus sign if it is negative. -/
def integerPieces : Int → List (Rule × List Char)
  | .ofNat n => [(.integer, Nat.toDigits 10 n)]
  | .negSucc n => [mark .minus, (.integer, Nat.toDigits 10 (n + 1))]

mutual

/-- The pieces of a written datum. -/
def pieces : Datum → List (Rule × List Char)
  | .bool b => [(.boolean b, (Lexeme.booleanText b).toList)]
  | .int n => integerPieces n.toInt
  | .list items => mark .openBracket :: (piecesBetween items ++ [mark .closeBracket])

/-- The pieces of data with commas between them. -/
def piecesBetween : List Datum → List (Rule × List Char)
  | [] => []
  | [d] => d.pieces
  | d :: d' :: ds => d.pieces ++ mark .comma :: piecesBetween (d' :: ds)

end

/-- The tokens say what the datum does when it is written. -/
def WrittenAs (d : Datum) (ts : List Token) : Prop :=
  ts.map Token.lexeme = Cut.lexemesOf d.pieces

/-- The pieces of an integer are its text. -/
theorem text_integerPieces (n : Int) : n.repr.toList = Cut.textOf (integerPieces n) := by
  cases n with
  | ofNat n => simp [Int.repr, integerPieces, Cut.textOf, Nat.repr_eq_ofList_toDigits]
  | negSucc n =>
      simp [Int.repr, integerPieces, Cut.textOf, Nat.repr_eq_ofList_toDigits, mark, Symbol.text]

/-- What the text of elements is put together from, if this is known of each. -/
theorem text_piecesBetween {items : List Datum}
    (h : ∀ d ∈ items, d.text.toList = Cut.textOf d.pieces) :
    [','].intercalate ((texts items).map String.toList) = Cut.textOf (piecesBetween items) := by
  induction items with
  | nil => rfl
  | cons d ds ih =>
      obtain ⟨hhead, htail⟩ := List.forall_mem_cons.mp h
      cases ds with
      | nil => simp [texts, piecesBetween, hhead]
      | cons d' ds =>
          have hmore := ih htail
          simp only [texts, List.map_cons] at hmore
          simp only [texts, List.map_cons, piecesBetween, List.intercalate_cons_cons, hmore, hhead,
            Cut.textOf_append, List.append_assoc]
          rfl

/-- The text of a datum is that of its pieces. -/
theorem text_eq_textOf_pieces (d : Datum) : d.text.toList = Cut.textOf d.pieces := by
  induction d with
  | bool b => simp [text, pieces, Cut.textOf]
  | int n => exact text_integerPieces n.toInt
  | list items ih =>
      have hcomma : ",".toList = [','] := rfl
      simp only [text, pieces, String.toList_append, String.toList_intercalate, hcomma,
        text_piecesBetween ih, mark, Cut.textOf_cons, Cut.textOf_append, List.append_assoc]
      rfl

/-! ## The cut of a written datum -/

/-- The digits of a number are digits. -/
theorem isDigit_of_mem_toDigits {n : Nat} {c : Char} (h : c ∈ Nat.toDigits 10 n) :
    Digits.isDigit c = true :=
  Nat.isDigit_of_mem_toDigits (by decide) (by decide) h

/-- An integer is taken off as its pieces before a character that ends a number. -/
theorem taken_integerPieces (n : Int) {next : Char} (hnext : next ∈ Rule.dataStops)
    (rest : List Char) : Cut.Taken (integerPieces n) (next :: rest) := by
  have hdigits : ∀ n, Rule.integer.Takes (Nat.toDigits 10 n) (next :: rest) := by
    intro n
    exact Rule.takes_digits Nat.toDigits_ne_nil (fun c hc => isDigit_of_mem_toDigits hc) hnext rest
  cases n with
  | ofNat n => exact ⟨hdigits n, trivial⟩
  | negSucc n => exact ⟨Rule.takes_mark (by decide) _, hdigits (n + 1), trivial⟩

/-- Data with commas between them are taken off as their pieces if each of them is. -/
theorem taken_piecesBetween {items : List Datum}
    (h : ∀ d ∈ items, ∀ next ∈ Rule.dataStops, ∀ rest, Cut.Taken d.pieces (next :: rest))
    {next : Char} (hnext : next ∈ Rule.dataStops) (rest : List Char) :
    Cut.Taken (piecesBetween items) (next :: rest) := by
  induction items with
  | nil => trivial
  | cons d ds ih =>
      obtain ⟨hhead, htail⟩ := List.forall_mem_cons.mp h
      cases ds with
      | nil => exact hhead next hnext rest
      | cons d' ds =>
          have hcomma : Rule.Takes (.symbol .comma) Symbol.comma.text.toList
              (Cut.textOf (piecesBetween (d' :: ds)) ++ next :: rest) :=
            Rule.takes_mark (by decide) _
          rw [piecesBetween]
          exact Cut.Taken.append (hhead ',' (by decide) _) ⟨hcomma, ih htail⟩

/-- **A written datum is cut into its pieces** in front of every stop. -/
theorem taken_pieces (d : Datum) {next : Char} (hnext : next ∈ Rule.dataStops)
    (rest : List Char) : Cut.Taken d.pieces (next :: rest) := by
  induction d generalizing next rest with
  | bool b => exact ⟨Rule.takes_boolean b hnext rest, trivial⟩
  | int n => exact taken_integerPieces n.toInt hnext rest
  | list items ih =>
      have hclose : Rule.Takes (.symbol .closeBracket) Symbol.closeBracket.text.toList
          (next :: rest) :=
        Rule.takes_mark (by decide) _
      have hitems : Cut.Taken (piecesBetween items) (']' :: next :: rest) :=
        taken_piecesBetween (fun d hd next hnext rest => ih d hd hnext rest) (by decide) _
      exact ⟨Rule.takes_mark (by decide) _, hitems.append ⟨hclose, trivial⟩⟩

/-! ## The line on which a datum is returned -/

/-- There is no blank in the text, nor a line end. -/
def solid (text : List Char) : Bool :=
  text.all fun c => !Rule.isBlank c

/-- Texts without blanks make up one without blanks. -/
theorem solid_append {s t : List Char} (hs : solid s = true) (ht : solid t = true) :
    solid (s ++ t) = true := by
  rw [solid, List.all_append, Bool.and_eq_true]
  exact ⟨hs, ht⟩

/-- There is no blank in an integer. -/
theorem solid_integerPieces (n : Int) : solid (Cut.textOf (integerPieces n)) = true := by
  have hdigits : ∀ n, solid (Nat.toDigits 10 n) = true := by
    intro n
    rw [solid, List.all_eq_true]
    intro c hc
    rw [(Rule.not_isBlank (.inr (.inl (isDigit_of_mem_toDigits hc)))).1]
    rfl
  cases n with
  | ofNat n => exact solid_append (hdigits n) rfl
  | negSucc n => exact solid_append rfl (solid_append (hdigits (n + 1)) rfl)

/-- There is no blank in data with commas between them if there is none in the data. -/
theorem solid_piecesBetween {items : List Datum}
    (h : ∀ d ∈ items, solid (Cut.textOf d.pieces) = true) :
    solid (Cut.textOf (piecesBetween items)) = true := by
  induction items with
  | nil => rfl
  | cons d ds ih =>
      obtain ⟨hhead, htail⟩ := List.forall_mem_cons.mp h
      cases ds with
      | nil => exact hhead
      | cons d' ds =>
          rw [piecesBetween, Cut.textOf_append]
          exact solid_append hhead (solid_append rfl (ih htail))

/-- There is no blank in a written datum. -/
theorem solid_pieces (d : Datum) : solid (Cut.textOf d.pieces) = true := by
  induction d with
  | bool b => cases b <;> rfl
  | int n => exact solid_integerPieces n.toInt
  | list items ih =>
      rw [pieces, mark, Cut.textOf_cons, Cut.textOf_append]
      exact solid_append rfl (solid_append (solid_piecesBetween ih) rfl)

/-- The pieces of the statement that returns a datum. -/
def returnPieces (d : Datum) : List (Rule × List Char) :=
  (.keyword .returnWord, Keyword.returnWord.text.toList) :: (.blank, [' ']) ::
    (d.pieces ++ [mark .semicolon])

/-- Behind the keyword and the blank no blank follows. -/
theorem solid_return (d : Datum) :
    solid (Cut.textOf (d.pieces ++ [mark .semicolon])) = true := by
  rw [Cut.textOf_append]
  exact solid_append d.solid_pieces rfl

/-- The statement that returns a datum is taken off as its pieces. -/
theorem taken_returnPieces (d : Datum) : Cut.Taken d.returnPieces [] := by
  have hkeyword : ∀ r ∈ Rule.all, r.pattern.canStart 'r' = true →
      r.pattern.canHold ' ' = false := by
    decide +kernel
  have hblank : ∀ r ∈ Rule.all, r.pattern.canStart ' ' = true → r = .blank := by decide +kernel
  have happlies : (Rule.keyword .returnWord).pattern.Matches Keyword.returnWord.text.toList :=
    Pattern.matches_literal_iff.mpr rfl
  have hreturn : Rule.Takes (.keyword .returnWord) Keyword.returnWord.text.toList
      (' ' :: (Cut.textOf (d.pieces ++ [mark .semicolon]) ++ [])) :=
    Rule.takes_before happlies nofun (fun r hr => hkeyword r (Rule.mem_all r) hr) _
  have hsemicolon : Cut.Taken [mark .semicolon] [] := ⟨Rule.takes_mark (by decide) _, trivial⟩
  refine ⟨hreturn, ?_, (d.taken_pieces (by decide) _).append hsemicolon⟩
  -- what follows the blank begins with no other
  have hsolid := d.solid_return
  rw [List.append_nil]
  cases htext : Cut.textOf (d.pieces ++ [mark .semicolon]) with
  | nil => simp [mark, Symbol.text] at htext
  | cons next rest =>
      rw [htext, solid, List.all_cons, Bool.and_eq_true, Bool.not_eq_true'] at hsolid
      have hnext : Rule.isBlank next = false := hsolid.1
      have happlies : Rule.blank.pattern.Matches [' '] := .andThen (.char rfl) .none
      refine Rule.takes_before happlies nofun (fun r hr => ?_) rest
      rw [hblank r (Rule.mem_all r) hr]
      simp [Rule.pattern, Pattern.many1, Pattern.canHold, hnext]

/-- The text of the statement is one line. -/
theorem not_isLineEnd_returnPieces (d : Datum) :
    ∀ c ∈ Cut.textOf d.returnPieces, Rule.isLineEnd c = false := by
  have hkeyword : (Keyword.returnWord.text.toList ++ [' ']).all (fun c => !Rule.isLineEnd c) =
      true := rfl
  rw [returnPieces, Cut.textOf_cons, Cut.textOf_cons, ← List.append_assoc]
  refine List.forall_mem_append.mpr ⟨fun c hc => ?_, fun c hc => ?_⟩
  · simpa using List.all_eq_true.mp hkeyword c hc
  · have hblank := List.all_eq_true.mp d.solid_return c hc
    rw [Rule.isBlank, Bool.not_eq_true', Bool.or_eq_false_iff] at hblank
    exact hblank.2

/-- **The tokens of a datum that is returned** are those of the datum, between the
keyword and the semicolon. -/
theorem exists_scan_return (script : String) (d : Datum) :
    ∃ p q ts, Token.scan script ("return " ++ d.text ++ ";") =
        .ok (⟨.keyword .returnWord, p⟩ :: (ts ++ [⟨.symbol .semicolon, q⟩])) ∧
      d.WrittenAs ts := by
  have htext : ("return " ++ d.text ++ ";").toList = Cut.textOf d.returnPieces := by
    simp only [String.toList_append, text_eq_textOf_pieces, returnPieces, Cut.textOf_cons,
      Cut.textOf_append]
    rfl
  obtain ⟨ts, hscan, hlexemes⟩ :=
    Token.exists_scan_of_taken script d.taken_returnPieces d.not_isLineEnd_returnPieces htext
  have hreturn : Cut.lexemesOf d.returnPieces =
      .keyword .returnWord :: (Cut.lexemesOf d.pieces ++ [.symbol .semicolon]) := by
    simp [returnPieces, Cut.lexemesOf, Rule.lexeme?, mark]
  rw [hreturn] at hlexemes
  obtain ⟨⟨_, p⟩, us, rfl, rfl, hus⟩ := List.map_eq_cons_iff.mp hlexemes
  obtain ⟨ts, vs, rfl, hts, hvs⟩ := List.map_eq_append_iff.mp hus
  obtain ⟨⟨_, q⟩, rfl, rfl⟩ := List.map_eq_singleton_iff.mp hvs
  exact ⟨p, q, ts, hscan, hts⟩

end Datum

end Scriptlet
