import Mathlib.Data.Nat.Digits.Lemmas
import Scriptlet.Proofs.Spelling

/-!
# Strings piece by piece

The body of a string is made of pieces: characters that mean themselves, and escapes
(`Escape.Piece`).  The decoding goes from left to right and takes as many digits for an
escape as it can, so what a piece means depends on what follows it only if it has room
for another digit and a digit follows.  Where this never happens the pieces are
**separated**, and the text of the pieces is decoded to their meanings
(`Escape.decode_spelled`).

Every text is made of separated pieces, up to a backslash at its very end
(`Escape.exists_pieces`).  A string cannot end in such a backslash, since this would
take the closing quote for itself.
-/

namespace Scriptlet.Escape

/-! ## Pieces -/

/-- The letters that stand for control characters, and these. -/
def controls : List (Char × Char) :=
  [('a', '\x07'), ('b', '\x08'), ('t', '\t'), ('v', '\x0b'), ('n', '\n'), ('r', '\r'),
    ('f', '\x0c')]

/-- The kinds of codes. -/
inductive Radix where
  | hex
  | octal

namespace Radix

/-- The letter that marks a code. -/
def mark : Radix → Char
  | .hex => 'x'
  | .octal => 'o'

def base : Radix → Nat
  | .hex => 16
  | .octal => 8

/-- How many digits there are to choose from; octal codes go without the seven. -/
def choices : Radix → Nat
  | .hex => 16
  | .octal => 7

/-- How many digits a code has at most. -/
def limit : Radix → Nat
  | .hex => 4
  | .octal => 3

/-- A digit of a code. -/
abbrev Digit (r : Radix) : Type := Fin r.choices

/-- Digits as they are written; letters among them are small. -/
def written {r : Radix} (ds : List r.Digit) : List Char :=
  ds.map fun d => Nat.digitChar d.val

/-- The number that digits stand for, the first of them being the highest. -/
def value {r : Radix} (ds : List r.Digit) : Nat :=
  Nat.ofDigits r.base (ds.map Fin.val).reverse

/-- The character is a digit. -/
def IsDigit (r : Radix) (c : Char) : Prop :=
  ∃ d : r.Digit, Nat.digitChar d.val = c

end Radix

/-- The character of a code.  The codes of surrogates have none and give U+FFFD. -/
def codePoint (code : Nat) : Char :=
  if 0xD800 ≤ code ∧ code ≤ 0xDFFF then '\uFFFD' else Char.ofNat code

/-- A piece of the body of a string. -/
inductive Piece where
  /-- A character that means itself. -/
  | plain (c : Char) (h : c ≠ '\\')
  /-- A backslash and a letter that stands for a control character. -/
  | control (letter c : Char) (h : (letter, c) ∈ controls)
  /-- A backslash and any other character, which means itself. -/
  | literal (c : Char) (hcontrol : c ∉ controls.map Prod.fst) (hmark : ∀ r : Radix, c ≠ r.mark)
      (hdigit : ¬ Radix.octal.IsDigit c)
  /-- A backslash, the mark of a code and its digits.  Without digits the mark means itself. -/
  | marked (r : Radix) (ds : List r.Digit) (h : ds.length ≤ r.limit)
  /-- A backslash and the digits of an octal code. -/
  | digits (ds : List Radix.octal.Digit) (hne : ds ≠ []) (h : ds.length ≤ Radix.octal.limit)

namespace Piece

/-- A piece as it is written. -/
def spelling : Piece → List Char
  | .plain c _ => [c]
  | .control letter _ _ => ['\\', letter]
  | .literal c _ _ _ => ['\\', c]
  | .marked r ds _ => '\\' :: r.mark :: Radix.written ds
  | .digits ds _ _ => '\\' :: Radix.written ds

/-- The character that a piece means. -/
def meaning : Piece → Char
  | .plain c _ => c
  | .control _ c _ => c
  | .literal c _ _ _ => c
  | .marked r ds _ => if ds.isEmpty then r.mark else codePoint (Radix.value ds)
  | .digits ds _ _ => codePoint (Radix.value ds)

/-- The piece would take the character as one more digit. -/
def Wants (c : Char) : Piece → Prop
  | .marked r ds _ => ds.length < r.limit ∧ r.IsDigit c
  | .digits ds _ _ => ds.length < Radix.octal.limit ∧ Radix.octal.IsDigit c
  | _ => False

/-- Every piece is made of one character at least. -/
theorem spelling_ne_nil (p : Piece) : p.spelling ≠ [] := by
  cases p <;> exact List.cons_ne_nil _ _

end Piece

/-- The text of pieces. -/
def spelled (ps : List Piece) : List Char :=
  ps.flatMap Piece.spelling

/-- No piece is followed by one that begins with a digit which it would take. -/
def Separated (ps : List Piece) : Prop :=
  ps.IsChain fun p q => ∀ c ∈ q.spelling.head?, ¬ p.Wants c

/-- The text of pieces begins as the first piece does. -/
theorem head?_spelled_cons (p : Piece) (ps : List Piece) :
    (spelled (p :: ps)).head? = p.spelling.head? := by
  rw [spelled, List.flatMap_cons, List.head?_append_of_ne_nil _ p.spelling_ne_nil]

/-- Pieces are separated if the first does not want what the next begins with, and the
others are separated. -/
theorem separated_cons {p : Piece} {ps : List Piece} :
    Separated (p :: ps) ↔ (∀ c ∈ (spelled ps).head?, ¬ p.Wants c) ∧ Separated ps := by
  rw [Separated, List.isChain_cons]
  cases ps with
  | nil => simp [spelled, Separated]
  | cons q qs => simp [head?_spelled_cons, Separated]

/-! ## Digits -/

namespace Radix

/-- The test by which digits are read. -/
def digit? : Radix → Char → Option Nat
  | .hex => hexDigit?
  | .octal => octalDigit?

/-- The test for digits gives a digit that was written back. -/
theorem digit?_digitChar {r : Radix} (d : r.Digit) :
    r.digit? (Nat.digitChar d.val) = some d.val := by
  cases r with
  | hex => revert d; decide
  | octal => revert d; decide

/-- Digits are among the first 128 characters. -/
theorem toNat_lt_of_digit? {r : Radix} {c : Char} (h : (r.digit? c).isSome = true) :
    c.toNat < 128 := by
  have hle : c ≤ 'f' := by
    cases r with
    | hex =>
        simp only [digit?, hexDigit?] at h
        split at h
        next hc => exact Char.le_trans hc.2 (by decide)
        next =>
          split at h
          next hc => exact hc.2
          next => cases h
    | octal =>
        simp only [digit?, octalDigit?] at h
        split at h
        next hc => exact Char.le_trans hc.2 (by decide)
        next => cases h
  have hnat : c.toNat ≤ 'f'.toNat := hle
  exact Nat.lt_of_le_of_lt hnat (by decide)

/-- A character is a digit if and only if the test for digits lets it pass. -/
theorem isDigit_iff {r : Radix} {c : Char} : r.IsDigit c ↔ (r.digit? c).isSome = true := by
  constructor
  · intro h
    obtain ⟨d, rfl⟩ := h
    rw [digit?_digitChar, Option.isSome_some]
  · intro h
    have hall : ∀ k < 128, ((r.digit? (Char.ofNat k)).all fun n =>
        decide (n < r.choices) && Nat.digitChar n == Char.ofNat k) = true := by
      cases r <;> decide +kernel
    obtain ⟨n, hn⟩ := Option.isSome_iff_exists.mp h
    have hc := hall c.toNat (toNat_lt_of_digit? h)
    rw [Char.ofNat_toNat, hn, Option.all_some, Bool.and_eq_true, decide_eq_true_iff,
      beq_iff_eq] at hc
    exact ⟨⟨n, hc.1⟩, hc.2⟩

instance (r : Radix) (c : Char) : Decidable (r.IsDigit c) :=
  decidable_of_iff ((r.digit? c).isSome = true) isDigit_iff.symm

/-- Digits are read up to the limit or the first character that is none. -/
theorem digits_written {r : Radix} {limit : Nat} {ds : List r.Digit} {rest : List Char}
    (hlength : ds.length ≤ limit)
    (hrest : ∀ c ∈ rest.head?, ¬ (ds.length < limit ∧ r.IsDigit c)) :
    Escape.digits r.digit? limit (written ds ++ rest) = ds.map Fin.val := by
  induction ds generalizing limit with
  | nil =>
      cases limit with
      | zero => rfl
      | succ limit =>
          cases rest with
          | nil => rfl
          | cons c cs =>
              have hc : ¬ r.IsDigit c := fun h => hrest c rfl ⟨Nat.succ_pos _, h⟩
              rw [isDigit_iff, Bool.not_eq_true, Option.isSome_eq_false_iff,
                Option.isNone_iff_eq_none] at hc
              simp [written, Escape.digits, hc]
  | cons d ds ih =>
      cases limit with
      | zero => cases hlength
      | succ limit =>
          have hmore := ih (Nat.le_of_succ_le_succ hlength) fun c hc hlt =>
            hrest c hc ⟨Nat.succ_lt_succ hlt.1, hlt.2⟩
          simp only [written, List.map_cons, List.cons_append, Escape.digits, digit?_digitChar]
          rw [← hmore, written]

/-- Reading digits one by one gives the number that they stand for. -/
theorem number_eq_value {r : Radix} (ds : List r.Digit) :
    number r.base (ds.map Fin.val) = value ds := by
  rw [number, value, Nat.ofDigits_eq_foldr, List.foldr_reverse]
  simp only [Nat.add_comm, Nat.cast_id]

/-- No code is too large for a character. -/
theorem value_lt {r : Radix} {ds : List r.Digit} (h : ds.length ≤ r.limit) :
    value ds < 0x110000 := by
  have hbase : 1 < r.base ∧ r.choices ≤ r.base ∧ r.base ^ r.limit ≤ 0x110000 := by
    cases r <;> decide
  have hdigits : ∀ n ∈ (ds.map Fin.val).reverse, n < r.base := by
    intro n hn
    obtain ⟨d, -, rfl⟩ := List.mem_map.mp (List.mem_reverse.mp hn)
    exact Nat.lt_of_lt_of_le d.isLt hbase.2.1
  have hlt := Nat.ofDigits_lt_base_pow_length hbase.1 hdigits
  rw [List.length_reverse, List.length_map] at hlt
  calc value ds < r.base ^ ds.length := hlt
    _ ≤ r.base ^ r.limit := Nat.pow_le_pow_right (Nat.lt_of_succ_lt hbase.1) h
    _ ≤ 0x110000 := hbase.2.2

/-- The code of so few digits is that of a character or of a surrogate. -/
theorem charOfCode_number {r : Radix} {ds : List r.Digit} (h : ds.length ≤ r.limit) :
    charOfCode (number r.base (ds.map Fin.val)) = codePoint (value ds) := by
  have hlt := value_lt h
  rw [number_eq_value, charOfCode, codePoint]
  by_cases hsurrogate : 0xD800 ≤ value ds ∧ value ds ≤ 0xDFFF
  · rw [if_pos hsurrogate, if_neg]
    intro hvalid
    rcases hvalid with hlow | hhigh <;> omega
  · rw [if_neg hsurrogate, if_pos]
    unfold Nat.isValidChar
    omega

/-- As many digits as possible, up to a limit, stand at the beginning of every text. -/
theorem exists_written (r : Radix) (limit : Nat) (text : List Char) :
    ∃ (ds : List r.Digit) (rest : List Char), text = written ds ++ rest ∧ ds.length ≤ limit ∧
      ∀ c ∈ rest.head?, ¬ (ds.length < limit ∧ r.IsDigit c) := by
  induction limit generalizing text with
  | zero => exact ⟨[], text, rfl, Nat.le_refl 0, fun c _ h => Nat.not_lt_zero _ h.1⟩
  | succ limit ih =>
      cases text with
      | nil => exact ⟨[], [], rfl, Nat.zero_le _, by simp⟩
      | cons c cs =>
          by_cases hc : r.IsDigit c
          · obtain ⟨d, rfl⟩ := hc
            obtain ⟨ds, rest, rfl, hlength, hrest⟩ := ih cs
            exact ⟨d :: ds, rest, rfl, Nat.succ_le_succ hlength, fun c hc h =>
              hrest c hc ⟨Nat.lt_of_succ_lt_succ h.1, h.2⟩⟩
          · refine ⟨[], c :: cs, rfl, Nat.zero_le _, fun c' hc' h => hc ?_⟩
            obtain rfl : c = c' := Option.some.inj hc'
            exact h.2

end Radix

/-! ## Decoding -/

/-- An escape that is no code takes one character: a letter for a control character, or the
character itself. -/
theorem read_single {c : Char} (hmark : ∀ r : Radix, c ≠ r.mark)
    (hdigit : ¬ Radix.octal.IsDigit c) (rest : List Char) :
    read (c :: rest) = ((control? c).getD c, 1) := by
  have hnone : octalDigit? c = none := by simpa [Radix.isDigit_iff, Radix.digit?] using hdigit
  rw [read, hnone]
  · exact hmark .hex
  · exact hmark .octal

/-- The letters of control characters are neither marks nor digits, and stand for what the
table says. -/
theorem control?_of_mem {letter c : Char} (h : (letter, c) ∈ controls) :
    (∀ r : Radix, letter ≠ r.mark) ∧ ¬ Radix.octal.IsDigit letter ∧
      control? letter = some c := by
  have hall : ∀ entry ∈ controls, entry.1 ≠ Radix.hex.mark ∧ entry.1 ≠ Radix.octal.mark ∧
      ¬ Radix.octal.IsDigit entry.1 ∧ control? entry.1 = some entry.2 := by
    decide
  obtain ⟨hhex, hoctal, hdigit, hcontrol⟩ := hall _ h
  exact ⟨fun r => by cases r <;> assumption, hdigit, hcontrol⟩

/-- All other characters stand for themselves. -/
theorem control?_eq_none {c : Char} (h : c ∉ controls.map Prod.fst) : control? c = none := by
  unfold control?
  split
  all_goals first | rfl | exact absurd (by decide) h

/-- A marked code takes all its digits; without digits its mark is meant. -/
theorem read_marked {r : Radix} {ds : List r.Digit} (h : ds.length ≤ r.limit) {rest : List Char}
    (hrest : ∀ c ∈ rest.head?, ¬ (ds.length < r.limit ∧ r.IsDigit c)) :
    read (r.mark :: (Radix.written ds ++ rest)) =
      (if ds.isEmpty then r.mark else codePoint (Radix.value ds), 1 + ds.length) := by
  have hread : ∀ cs, read (r.mark :: cs) =
      coded r.mark r.base (digits r.digit? r.limit cs) := by
    intro cs
    cases r <;> rfl
  rw [hread, Radix.digits_written h hrest, ← Radix.charOfCode_number h]
  cases ds with
  | nil => rfl
  | cons d ds => simp [coded]

/-- An octal code without a mark takes all its digits. -/
theorem read_digits {ds : List Radix.octal.Digit} (hne : ds ≠ [])
    (h : ds.length ≤ Radix.octal.limit) {rest : List Char}
    (hrest : ∀ c ∈ rest.head?, ¬ (ds.length < Radix.octal.limit ∧ Radix.octal.IsDigit c)) :
    read (Radix.written ds ++ rest) = (codePoint (Radix.value ds), ds.length) := by
  have hdigits : digits octalDigit? 3 (Radix.written ds ++ rest) = ds.map Fin.val :=
    Radix.digits_written h hrest
  have hmarks : ∀ d : Radix.octal.Digit,
      Nat.digitChar d.val ≠ Radix.hex.mark ∧ Nat.digitChar d.val ≠ Radix.octal.mark := by
    decide
  rw [← Radix.charOfCode_number h]
  obtain ⟨d, more, rfl⟩ := List.exists_cons_of_ne_nil hne
  have hd : octalDigit? (Nat.digitChar d.val) = some d.val := Radix.digit?_digitChar d
  rw [Radix.written, List.map_cons, List.cons_append] at hdigits ⊢
  rw [read, hd]
  · simp only [hdigits]
    simp [Radix.base]
  · exact (hmarks d).1
  · exact (hmarks d).2

/-- A piece is a character that means itself, or a backslash and what is read as its
meaning, whatever else follows. -/
theorem Piece.spelling_cases (p : Piece) {rest : List Char}
    (hrest : ∀ c ∈ rest.head?, ¬ p.Wants c) :
    (p.spelling = [p.meaning] ∧ p.meaning ≠ '\\') ∨
      ∃ taken, p.spelling = '\\' :: taken ∧ taken ≠ [] ∧
        read (taken ++ rest) = (p.meaning, taken.length) := by
  cases p with
  | plain c h => exact .inl ⟨rfl, h⟩
  | control letter c h =>
      obtain ⟨hmark, hdigit, hcontrol⟩ := control?_of_mem h
      refine .inr ⟨[letter], rfl, List.cons_ne_nil _ _, ?_⟩
      rw [List.singleton_append, read_single hmark hdigit, hcontrol]
      rfl
  | literal c hcontrol hmark hdigit =>
      refine .inr ⟨[c], rfl, List.cons_ne_nil _ _, ?_⟩
      rw [List.singleton_append, read_single hmark hdigit, control?_eq_none hcontrol]
      rfl
  | marked r ds h =>
      refine .inr ⟨r.mark :: Radix.written ds, rfl, List.cons_ne_nil _ _, ?_⟩
      rw [List.cons_append, read_marked h hrest, List.length_cons, Radix.written,
        List.length_map, Nat.add_comm]
      rfl
  | digits ds hne h =>
      refine .inr ⟨Radix.written ds, rfl, by simpa [Radix.written] using hne, ?_⟩
      rw [read_digits hne h hrest, Radix.written, List.length_map]
      rfl

/-- Passing over what an escape has taken, decoding goes on behind it. -/
theorem decodeFrom_append (taken rest : List Char) :
    decodeFrom taken.length (taken ++ rest) = decode rest := by
  induction taken with
  | nil => rfl
  | cons c cs ih => exact ih

/-- Decoding gives the meaning of the first piece, and goes on after it. -/
theorem decode_spelling_append (p : Piece) {rest : List Char}
    (hrest : ∀ c ∈ rest.head?, ¬ p.Wants c) :
    decode (p.spelling ++ rest) = p.meaning :: decode rest := by
  rcases p.spelling_cases hrest with ⟨hp, hplain⟩ | ⟨taken, hp, -, hread⟩
  · simp [hp, decode, decodeFrom, hplain]
  · rw [hp, List.cons_append, decode, decodeFrom, hread]
    simp [decodeFrom_append]

/-- **The text of separated pieces is decoded to their meanings.** -/
theorem decode_spelled {ps : List Piece} (h : Separated ps) :
    decode (spelled ps) = ps.map Piece.meaning := by
  induction ps with
  | nil => rfl
  | cons p ps ih =>
      obtain ⟨hp, hps⟩ := separated_cons.mp h
      calc decode (spelled (p :: ps)) = p.meaning :: decode (spelled ps) :=
            decode_spelling_append p hp
        _ = (p :: ps).map Piece.meaning := by rw [ih hps, List.map_cons]

/-- What decoding reads escapes from: the text behind each backslash that begins one.  The
first `skip` characters are passed over. -/
def readsFrom : (skip : Nat) → List Char → List (List Char)
  | _, [] => []
  | skip + 1, _ :: cs => readsFrom skip cs
  | 0, c :: cs => if c == '\\' then cs :: readsFrom (read cs).2 cs else readsFrom 0 cs

def reads (raw : List Char) : List (List Char) :=
  readsFrom 0 raw

/-- Passing over what an escape has taken, the list of escapes goes on behind it. -/
theorem readsFrom_append (taken rest : List Char) :
    readsFrom taken.length (taken ++ rest) = reads rest := by
  induction taken with
  | nil => rfl
  | cons c cs ih => exact ih

/-- No escape of separated pieces is read from nothing. -/
theorem nil_not_mem_reads_spelled {ps : List Piece} (h : Separated ps) :
    [] ∉ reads (spelled ps) := by
  induction ps with
  | nil => exact List.not_mem_nil
  | cons p ps ih =>
      obtain ⟨hp, hps⟩ := separated_cons.mp h
      have hmore := ih hps
      rw [spelled, List.flatMap_cons, ← spelled]
      rcases p.spelling_cases hp with ⟨hspelling, hplain⟩ | ⟨taken, hspelling, hne, hread⟩
      · simpa [hspelling, reads, readsFrom, hplain] using hmore
      · rw [hspelling, List.cons_append, reads, readsFrom, hread]
        simpa [readsFrom_append, hne] using hmore

/-! ## Every text has pieces -/

/-- Every text begins with a piece, apart from a backslash at the end. -/
theorem exists_piece {raw : List Char} (hne : raw ≠ []) (hlast : raw ≠ ['\\']) :
    ∃ (p : Piece) (rest : List Char), raw = p.spelling ++ rest ∧
      ∀ c ∈ rest.head?, ¬ p.Wants c := by
  obtain ⟨first, cs, rfl⟩ := List.exists_cons_of_ne_nil hne
  by_cases hfirst : first = '\\'
  · subst hfirst
    have hcs : cs ≠ [] := fun h => hlast (by rw [h])
    obtain ⟨c, cs, rfl⟩ := List.exists_cons_of_ne_nil hcs
    by_cases hmark : ∃ r : Radix, c = r.mark
    · obtain ⟨r, rfl⟩ := hmark
      obtain ⟨ds, rest, rfl, hlength, hrest⟩ := r.exists_written r.limit cs
      exact ⟨.marked r ds hlength, rest, rfl, hrest⟩
    by_cases hdigit : Radix.octal.IsDigit c
    · obtain ⟨ds, rest, hcs, hlength, hrest⟩ :=
        Radix.octal.exists_written Radix.octal.limit (c :: cs)
      have hds : ds ≠ [] := by
        intro hds
        subst hds
        have hhead : c ∈ rest.head? := congrArg List.head? hcs.symm
        exact hrest c hhead ⟨by decide, hdigit⟩
      exact ⟨.digits ds hds hlength, rest, by rw [hcs]; rfl, hrest⟩
    by_cases hcontrol : c ∈ controls.map Prod.fst
    · obtain ⟨⟨letter, meaning⟩, hmem, rfl⟩ := List.mem_map.mp hcontrol
      exact ⟨.control letter meaning hmem, cs, rfl, fun _ _ h => h⟩
    · exact ⟨.literal c hcontrol (not_exists.mp hmark) hdigit, cs, rfl, fun _ _ h => h⟩
  · exact ⟨.plain first hfirst, cs, rfl, fun _ _ h => h⟩

/-- **Every text is made of separated pieces** and maybe a backslash after them. -/
theorem exists_pieces (raw : List Char) :
    ∃ (ps : List Piece) (tail : List Char), Separated ps ∧ raw = spelled ps ++ tail ∧
      (tail = [] ∨ tail = ['\\']) := by
  -- by induction on the length: a piece is taken off the front
  generalize hn : raw.length = n
  induction n using Nat.strong_induction_on generalizing raw with
  | _ n ih =>
      by_cases hnil : raw = []
      · exact ⟨[], [], .nil, hnil, .inl rfl⟩
      by_cases hlast : raw = ['\\']
      · exact ⟨[], ['\\'], .nil, hlast, .inr rfl⟩
      obtain ⟨p, rest, rfl, hp⟩ := exists_piece hnil hlast
      have hpos := List.length_pos_of_ne_nil p.spelling_ne_nil
      rw [List.length_append] at hn
      obtain ⟨ps, tail, hps, rfl, htail⟩ := ih rest.length (by omega) rest rfl
      have hsep : ∀ c ∈ (spelled ps).head?, ¬ p.Wants c := by
        intro c hc
        apply hp c
        rw [List.head?_append, Option.mem_def.mp hc]
        rfl
      refine ⟨p :: ps, tail, separated_cons.mpr ⟨hsep, hps⟩, ?_, htail⟩
      rw [spelled, spelled, List.flatMap_cons, List.append_assoc]

/-! ## Strings -/

/-- Behind a plain character of a string the string goes on. -/
theorem stringTail_of_plain {c : Char} {cs : List Char} (hquote : c ≠ '"') (hbackslash : c ≠ '\\')
    (h : Rule.StringTail (c :: cs)) : Rule.StringTail cs := by
  cases h with
  | quote => exact absurd rfl hquote
  | plain _ _ _ h => exact h
  | escape _ _ => exact absurd rfl hbackslash

/-- Behind an escaped character of a string the string goes on. -/
theorem stringTail_of_escape {c : Char} {cs : List Char}
    (h : Rule.StringTail ('\\' :: c :: cs)) : Rule.StringTail cs := by
  cases h with
  | plain _ hbackslash _ _ => exact absurd rfl hbackslash
  | escape _ h => exact h

/-- What follows digits in a string is again the rest of a string. -/
theorem stringTail_of_written {r : Radix} {ds : List r.Digit} {rest : List Char}
    (h : Rule.StringTail (Radix.written ds ++ rest)) : Rule.StringTail rest := by
  have hall : ∀ d : r.Digit, Nat.digitChar d.val ≠ '"' ∧ Nat.digitChar d.val ≠ '\\' := by
    cases r <;> decide
  induction ds with
  | nil => exact h
  | cons d ds ih =>
      obtain ⟨hquote, hbackslash⟩ := hall d
      exact ih (stringTail_of_plain hquote hbackslash h)

/-- What follows a piece in a string is again the rest of a string. -/
theorem stringTail_of_spelling (p : Piece) {rest : List Char} (hne : rest ≠ [])
    (h : Rule.StringTail (p.spelling ++ rest)) : Rule.StringTail rest := by
  cases p with
  | plain c hc =>
      by_cases hquote : c = '"'
      · -- the quote would have ended the string
        subst hquote
        cases h with
        | quote => exact absurd rfl hne
        | plain hquote _ _ _ => exact absurd rfl hquote
      · exact stringTail_of_plain hquote hc h
  | control letter c _ => exact stringTail_of_escape h
  | literal c _ _ _ => exact stringTail_of_escape h
  | marked r ds _ => exact stringTail_of_written (stringTail_of_escape h)
  | digits ds hds _ =>
      obtain ⟨d, more, rfl⟩ := List.exists_cons_of_ne_nil hds
      have hmore : Rule.StringTail (Radix.written more ++ rest) := stringTail_of_escape h
      exact stringTail_of_written hmore

/-- Behind whole pieces of a string the string goes on. -/
theorem stringTail_of_spelled {ps : List Piece} {rest : List Char} (hne : rest ≠ [])
    (h : Rule.StringTail (spelled ps ++ rest)) : Rule.StringTail rest := by
  induction ps with
  | nil => exact h
  | cons p ps ih =>
      rw [spelled, List.flatMap_cons, List.append_assoc] at h
      exact ih (stringTail_of_spelling p (List.append_ne_nil_of_right_ne_nil _ hne) h)

/-- **What stands between the quotes of a string is made of separated pieces.** -/
theorem exists_pieces_of_stringTail {body : List Char} (h : Rule.StringTail (body ++ ['"'])) :
    ∃ ps, Separated ps ∧ body = spelled ps := by
  obtain ⟨ps, tail, hps, rfl, htail⟩ := exists_pieces body
  rw [List.append_assoc] at h
  have hrest := stringTail_of_spelled (List.append_ne_nil_of_right_ne_nil _ (by simp)) h
  rcases htail with rfl | rfl
  · exact ⟨ps, hps, List.append_nil _⟩
  · -- the backslash would take the closing quote
    cases hrest with
    | plain _ hbackslash _ _ => exact absurd rfl hbackslash
    | escape _ hnothing => cases hnothing

/-- **Strings are decoded piece by piece.**  Separated pieces are decoded to their meanings;
every text is what some string is decoded to; and every string is made of separated pieces,
so that none of its escapes is read from nothing. -/
theorem decode_piecewise :
    (∀ ps : List Piece, Separated ps → decode (spelled ps) = ps.map Piece.meaning) ∧
      (∀ text : String, ∃ piece : List Char,
        (∀ rest, Rule.string.Takes piece rest) ∧
          Rule.string.lexeme? piece = some (.string text)) ∧
      ∀ piece rest : List Char, Rule.string.Takes piece rest →
        ∃ ps : List Piece, Separated ps ∧ piece = '"' :: (spelled ps ++ ['"']) ∧
          Rule.string.lexeme? piece =
            some (.string (String.ofList (ps.map Piece.meaning))) ∧
          [] ∉ reads (spelled ps) := by
  refine ⟨fun ps h => decode_spelled h, fun text => ?_, fun piece rest h => ?_⟩
  · have hmatches := Lexeme.matches_spelling (l := .string text) trivial
    exact ⟨_, Rule.takes_string hmatches, Lexeme.lexeme?_spelling (.string text)⟩
  · obtain ⟨tail, rfl, htail⟩ := Rule.matches_string_iff.mp h.applies
    obtain ⟨body, rfl⟩ := htail.exists_body
    obtain ⟨ps, hps, rfl⟩ := exists_pieces_of_stringTail htail
    refine ⟨ps, hps, rfl, ?_, nil_not_mem_reads_spelled hps⟩
    rw [← decode_spelled hps]
    simp [Rule.lexeme?]

/-- Codes with and without room for another digit, a mark without digits, the code of a
surrogate, and other escapes. -/
def mixedPieces : List Piece :=
  [.marked .hex [⟨0, by decide⟩, ⟨0, by decide⟩, ⟨4, by decide⟩, ⟨1, by decide⟩] (by decide),
    .plain '7' (by decide),
    .digits [⟨1, by decide⟩, ⟨2, by decide⟩] (by decide) (by decide),
    .plain '7' (by decide),
    .marked .hex [] (by decide),
    .plain 'g' (by decide),
    .marked .hex [⟨13, by decide⟩, ⟨8, by decide⟩, ⟨0, by decide⟩, ⟨0, by decide⟩] (by decide),
    .literal '"' (by decide) (fun r => by cases r <;> decide) (by decide),
    .control 'n' '\n' (by decide)]

/-- Codes take as many digits as they may and no more, a mark without digits means itself,
and a surrogate has no character. -/
theorem decode_piecewise_mixedPieces :
    (Separated mixedPieces ∧
      decode "\\x00417\\127\\xg\\xd800\\\"\\n".toList = "A7\n7xg\uFFFD\"\n".toList) ∧
      Rule.string.Takes (Lexeme.string "\"\\x41\"").spelling ['.'] ∧
      ∃ ps : List Piece, Separated ps ∧
        (Lexeme.string "\"\\x41\"").spelling = '"' :: (spelled ps ++ ['"']) ∧
        [] ∉ reads (spelled ps) := by
  have hseparated : Separated mixedPieces := by
    simp [Separated, mixedPieces, Piece.spelling, Piece.Wants, Radix.isDigit_iff, Radix.limit,
      Radix.digit?, hexDigit?, octalDigit?]
  have htakes : Rule.string.Takes (Lexeme.string "\"\\x41\"").spelling ['.'] :=
    Rule.takes_string (Lexeme.matches_spelling (l := .string _) trivial) _
  obtain ⟨hdecode, -, hstring⟩ := decode_piecewise
  obtain ⟨ps, hps, hpiece, -, hreads⟩ := hstring _ _ htakes
  exact ⟨⟨hseparated, hdecode mixedPieces hseparated⟩, htakes, ps, hps, hpiece, hreads⟩

end Scriptlet.Escape
