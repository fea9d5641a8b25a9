import Scriptlet.Proofs.DatumTokens

/-!
# How tokens are written

Every lexeme has a spelling: a string stands between quotes with its quotes,
backslashes and line ends escaped, a hexadecimal number has `0x` in front, and
all others are their own text.

A spelling is taken as one piece wherever the line ends after it or goes on with
a blank (`Lexeme.takes_spelling`).  For most kinds this is so because no rule
that can begin like them can hold a blank.  Strings can hold blanks, but no
string is the beginning of another (`Rule.StringTail.length_le`), and a slash
begins a comment only before another slash.
-/

namespace Scriptlet

/-! ## Escapes -/

namespace Escape

/-- A character as it is written in a string. -/
def encodeChar (c : Char) : List Char :=
  if c == '\n' then ['\\', 'n']
  else if c == '\r' then ['\\', 'r']
  else if c == '"' || c == '\\' then ['\\', c]
  else [c]

/-- A text as it is written in a string. -/
def encode (text : List Char) : List Char :=
  text.flatMap encodeChar

/-- The forms that a written character can have. -/
theorem encodeChar_cases (c : Char) :
    (∃ d, encodeChar c = ['\\', d] ∧ Rule.isLineEnd d = false ∧
      ∀ rest, read (d :: rest) = (c, 1)) ∨
      (encodeChar c = [c] ∧ c ≠ '"' ∧ c ≠ '\\' ∧ Rule.isLineEnd c = false) := by
  unfold encodeChar
  split
  next hc =>
    rw [beq_iff_eq.mp hc]
    exact .inl ⟨'n', rfl, rfl, fun _ => rfl⟩
  next hfeed =>
    split
    next hc =>
      rw [beq_iff_eq.mp hc]
      exact .inl ⟨'r', rfl, rfl, fun _ => rfl⟩
    next hreturn =>
      split
      next hc =>
        rw [Bool.or_eq_true, beq_iff_eq, beq_iff_eq] at hc
        rcases hc with rfl | rfl <;> exact .inl ⟨_, rfl, rfl, fun _ => rfl⟩
      next hc =>
        simp only [Bool.or_eq_true, beq_iff_eq, not_or] at hfeed hreturn hc
        exact .inr ⟨rfl, hc.1, hc.2, by simp [Rule.isLineEnd, hfeed, hreturn]⟩

/-- A written character is decoded to itself. -/
theorem decode_encodeChar_append (c : Char) (rest : List Char) :
    decode (encodeChar c ++ rest) = c :: decode rest := by
  rcases encodeChar_cases c with ⟨d, hc, -, hread⟩ | ⟨hc, -, hbackslash, -⟩
  · rw [hc]
    simp [decode, decodeFrom, hread]
  · rw [hc]
    simp [decode, decodeFrom, hbackslash]

/-- **A written text is decoded to itself.** -/
theorem decode_encode (text : List Char) : decode (encode text) = text := by
  induction text with
  | nil => rfl
  | cons c cs ih =>
      rw [encode, List.flatMap_cons, decode_encodeChar_append]
      exact congrArg (c :: ·) ih

end Escape

/-! ## Strings -/

namespace Rule

open Pattern

/-- What follows the first quote of a string: plain characters and escapes up to the
next quote. -/
inductive StringTail : List Char → Prop where
  | quote : StringTail ['"']
  | plain {c : Char} {cs : List Char} (hquote : c ≠ '"') (hbackslash : c ≠ '\\')
      (hline : isLineEnd c = false) (h : StringTail cs) : StringTail (c :: cs)
  | escape {c : Char} {cs : List Char} (hline : isLineEnd c = false) (h : StringTail cs) :
      StringTail ('\\' :: c :: cs)

/-- A character of a string: one that stands for itself, or an escape. -/
def stringItem : Pattern :=
  .either (.char fun c => !(c == '"' || c == '\\' || isLineEnd c))
    (.andThen (only '\\') (.char fun c => !isLineEnd c))

/-- Characters and escapes of a string may stand before what remains of it. -/
theorem StringTail.of_matches {s t : List Char} (h : Matches (.many stringItem) s)
    (ht : StringTail t) : StringTail (s ++ t) := by
  generalize hpattern : Pattern.many stringItem = pattern at h
  induction h with
  | none => exact ht
  | more hitem _ _ ih =>
      cases hpattern
      have hmore := ih rfl
      rw [List.append_assoc]
      rcases matches_either_iff.mp hitem with hplain | hescape
      · obtain ⟨c, hc, rfl⟩ := matches_char_iff.mp hplain
        simp only [Bool.not_eq_true', Bool.or_eq_false_iff, beq_eq_false_iff_ne] at hc
        exact .plain hc.1.1 hc.1.2 hc.2 hmore
      · obtain ⟨_, _, rfl, hbackslash, hc⟩ := matches_andThen_iff.mp hescape
        obtain ⟨_, hd, rfl⟩ := matches_char_iff.mp hbackslash
        obtain ⟨c, hline, rfl⟩ := matches_char_iff.mp hc
        rw [beq_iff_eq] at hd
        subst hd
        exact .escape (by simpa using hline) hmore
  | _ => cases hpattern

/-- What remains of a string matches the rest of its pattern. -/
theorem StringTail.matches {s : List Char} (h : StringTail s) :
    Matches (.andThen (.many stringItem) (only '"')) s := by
  induction h with
  | quote => exact .andThen .none (.char rfl)
  | @plain c _ hquote hbackslash hline _ ih =>
      obtain ⟨u, v, rfl, hu, hv⟩ := matches_andThen_iff.mp ih
      have hc : Matches stringItem [c] := .left (.char (by simp [hquote, hbackslash, hline]))
      exact .andThen (.more hc hu) hv
  | @escape c _ hline _ ih =>
      obtain ⟨u, v, rfl, hu, hv⟩ := matches_andThen_iff.mp ih
      have hc : Matches stringItem ['\\', c] :=
        .right (.andThen (.char rfl) (.char (by simp [hline])))
      exact .andThen (.more hc hu) hv

/-- The rule for strings applies to a quote and what may follow it. -/
theorem matches_string_iff {s : List Char} :
    Rule.string.pattern.Matches s ↔ ∃ cs, s = '"' :: cs ∧ StringTail cs := by
  show Matches (.andThen (only '"') (.andThen (.many stringItem) (only '"'))) s ↔ _
  constructor
  · intro h
    obtain ⟨_, _, rfl, hopen, hrest⟩ := matches_andThen_iff.mp h
    obtain ⟨body, _, rfl, hbody, hclose⟩ := matches_andThen_iff.mp hrest
    obtain ⟨c, hc, rfl⟩ := matches_char_iff.mp hopen
    obtain ⟨d, hd, rfl⟩ := matches_char_iff.mp hclose
    rw [beq_iff_eq] at hc hd
    subst hc hd
    exact ⟨body ++ ['"'], rfl, .of_matches hbody .quote⟩
  · rintro ⟨cs, rfl, htail⟩
    exact .andThen (.char rfl) htail.matches

/-- No string is the beginning of another. -/
theorem StringTail.length_le {s s' rest : List Char} (h : StringTail s) (h' : StringTail s')
    (hbegins : s' <+: s ++ rest) : s'.length ≤ s.length := by
  induction h generalizing s' with
  | quote =>
      cases h' with
      | quote => exact Nat.le_refl _
      | plain hquote _ _ _ => exact absurd (List.cons_prefix_cons.mp hbegins).1 hquote
      | escape _ _ => exact absurd (List.cons_prefix_cons.mp hbegins).1 (by decide)
  | plain hquote hbackslash _ _ ih =>
      cases h' with
      | quote => exact absurd (List.cons_prefix_cons.mp hbegins).1.symm hquote
      | plain _ _ _ h' => exact Nat.succ_le_succ (ih h' (List.cons_prefix_cons.mp hbegins).2)
      | escape _ _ => exact absurd (List.cons_prefix_cons.mp hbegins).1.symm hbackslash
  | escape _ _ ih =>
      cases h' with
      | quote => exact absurd (List.cons_prefix_cons.mp hbegins).1 (by decide)
      | plain _ hbackslash _ _ => exact absurd (List.cons_prefix_cons.mp hbegins).1 hbackslash
      | escape _ h' =>
          have hmore := (List.cons_prefix_cons.mp (List.cons_prefix_cons.mp hbegins).2).2
          exact Nat.succ_le_succ (Nat.succ_le_succ (ih h' hmore))

/-- What follows the first quote of a string ends in a quote. -/
theorem StringTail.exists_body {tail : List Char} (h : StringTail tail) :
    ∃ body, tail = body ++ ['"'] := by
  induction h with
  | quote => exact ⟨[], rfl⟩
  | @plain c _ _ _ _ _ ih =>
      obtain ⟨body, rfl⟩ := ih
      exact ⟨c :: body, rfl⟩
  | @escape c _ _ _ ih =>
      obtain ⟨body, rfl⟩ := ih
      exact ⟨'\\' :: c :: body, rfl⟩

/-- An encoded text with a quote behind it is what remains of a string. -/
theorem stringTail_encode (text : List Char) : StringTail (Escape.encode text ++ ['"']) := by
  induction text with
  | nil => exact .quote
  | cons c cs ih =>
      rw [Escape.encode, List.flatMap_cons, List.append_assoc]
      rcases Escape.encodeChar_cases c with ⟨d, hc, hline, -⟩ | ⟨hc, hquote, hbackslash, hline⟩
      · rw [hc]
        exact .escape hline ih
      · rw [hc]
        exact .plain hquote hbackslash hline ih

/-! ## Pieces before a blank -/

/-- The characters that only separate tokens. -/
def blanks : List Char := [' ', '\t', '\x0c', '\x0b', '\r', '\n']

/-- A blank is one of the listed blanks. -/
theorem mem_blanks {c : Char} (h : isBlank c = true) : c ∈ blanks := by
  simpa [isBlank, isLineEnd, blanks, or_assoc] using h

/-- Only blanks hold line ends. -/
theorem eq_blank_of_canHold {rule : Rule} {c : Char} (hc : isLineEnd c = true)
    (h : rule.pattern.canHold c = true) : rule = .blank := by
  have hall : ∀ r ∈ all, ['\r', '\n'].any r.pattern.canHold = true → r = .blank := by
    decide +kernel
  have hmem : c ∈ ['\r', '\n'] := by simpa [isLineEnd] using hc
  exact hall rule (mem_all rule) (List.any_eq_true.mpr ⟨c, hmem, h⟩)

/-- Where a piece begins neither with a blank nor with a quote nor with a slash, no rule
goes on over a blank. -/
theorem canHold_blank_eq_false {rule : Rule} {first : Char}
    (hfirst : isBlank first = false ∧ first ≠ '"' ∧ first ≠ '/')
    (hstart : rule.pattern.canStart first = true) {next : Char} (hnext : isBlank next = true) :
    rule.pattern.canHold next = false := by
  have hall : ∀ r ∈ all, r ∉ [Rule.blank, .string, .comment] →
      blanks.any r.pattern.canHold = false := by
    decide +kernel
  have hrule : rule ∉ [Rule.blank, .string, .comment] := by
    intro hmem
    simp only [List.mem_cons, List.not_mem_nil, or_false] at hmem
    obtain ⟨hblank, hquote, hslash⟩ := hfirst
    rcases hmem with rfl | rfl | rfl
    · simp [pattern, many1, canStart, nullable, hblank] at hstart
    · simp [pattern, only, canStart, nullable, hquote] at hstart
    · simp [pattern, literal, only, canStart, nullable, hslash] at hstart
  simpa using List.any_eq_false.mp (hall rule (mem_all rule) hrule) next (mem_blanks hnext)

/-- Only blanks, strings, comments and the slash begin with a blank, a quote or a slash. -/
theorem first_of_matches {rule : Rule} {first : Char} {cs : List Char}
    (hrule : rule ∉ [Rule.blank, .string, .comment, .symbol .slash])
    (h : rule.pattern.Matches (first :: cs)) :
    isBlank first = false ∧ first ≠ '"' ∧ first ≠ '/' := by
  cases hfixed : rule.fixedText? with
  | some text =>
      have hall : ∀ r ∈ all, r ≠ .symbol .slash → ∀ text ∈ r.fixedText?,
          text.head?.any (fun c => isBlank c || c == '"' || c == '/') = false := by
        decide +kernel
      have hslash : rule ≠ .symbol .slash := by
        rintro rfl
        simp at hrule
      rw [pattern_of_fixedText? hfixed, matches_literal_iff] at h
      subst h
      simpa [and_assoc] using hall rule (mem_all rule) hslash _ hfixed
  | none =>
      have hfamily := family_eq_of_canStart hfixed (canStart_of_matches h)
      unfold startingWith at hfamily
      split at hfamily
      next => cases rule <;> cases hfamily; simp at hrule
      next hblank =>
        split at hfamily
        next => cases rule <;> cases hfamily; simp at hrule
        next hquote =>
          split at hfamily
          next => cases rule <;> cases hfamily; simp at hrule
          next hslash =>
            exact ⟨by simpa using hblank, by simpa using hquote, by simpa using hslash⟩

/-- A string is taken whatever follows it. -/
theorem takes_string {s : List Char} (h : Rule.string.pattern.Matches s) (rest : List Char) :
    Rule.string.Takes s rest := by
  have honly : ∀ r ∈ all, r.pattern.canStart '"' = true → r = .string := by decide +kernel
  obtain ⟨tail, rfl, htail⟩ := matches_string_iff.mp h
  refine ⟨h, fun rule' piece' hbegins hmatches => ?_, fun heq => by cases heq⟩
  cases piece' with
  | nil => exact Nat.zero_le _
  | cons c cs =>
      obtain ⟨rfl, hmore⟩ := List.cons_prefix_cons.mp hbegins
      rw [honly rule' (mem_all rule') (canStart_of_matches hmatches)] at hmatches
      obtain ⟨tail', heq, htail'⟩ := matches_string_iff.mp hmatches
      cases heq
      exact Nat.succ_le_succ (htail.length_le htail' hmore)

/-- A slash is taken if no other slash follows it. -/
theorem takes_slash {rest : List Char} (hrest : '/' ∉ rest.head?) :
    (Rule.symbol .slash).Takes ['/'] rest := by
  have honly : ∀ r ∈ all, r.pattern.canStart '/' = true → r = .symbol .slash ∨ r = .comment := by
    decide +kernel
  refine ⟨matches_literal_iff.mpr rfl, fun rule' piece' hbegins hmatches => ?_,
    fun heq => by cases heq⟩
  cases piece' with
  | nil => exact Nat.zero_le _
  | cons c cs =>
      obtain ⟨rfl, hmore⟩ := List.cons_prefix_cons.mp hbegins
      rcases honly rule' (mem_all rule') (canStart_of_matches hmatches) with rfl | rfl
      · exact Nat.le_of_eq (congrArg List.length (matches_literal_iff.mp hmatches))
      · -- a comment has a second slash
        obtain ⟨u, v, heq, hu, -⟩ := matches_andThen_iff.mp hmatches
        rw [matches_literal_iff.mp hu] at heq
        cases heq
        obtain ⟨more, hmore⟩ := hmore
        have hslash : rest = '/' :: (v ++ more) := hmore.symm
        exact absurd (by rw [hslash]; rfl) hrest

end Rule

/-! ## Spellings -/

namespace Lexeme

/-- The rule by which a token is read. -/
def rule : Lexeme → Rule
  | .string _ => .string
  | .double _ => .double
  | .integer _ => .integer
  | .hexInteger _ => .hexInteger
  | .boolean value => .boolean value
  | .identifier _ => .identifier
  | .keyword word => .keyword word
  | .symbol mark => .symbol mark

/-- A token as it is written. -/
def spelling : Lexeme → List Char
  | .string value => '"' :: (Escape.encode value.toList ++ ['"'])
  | .double digits => digits.toList
  | .integer digits => digits.toList
  | .hexInteger digits => '0' :: 'x' :: digits.toList
  | .boolean value => (booleanText value).toList
  | .identifier name => name.toList
  | .keyword word => word.text.toList
  | .symbol mark => mark.text.toList

/-- The text of a token is one that its kind can have: numbers have digits, a name has the
form of one and is not reserved.  A string may have any text. -/
def WellFormed : Lexeme → Prop
  | .string _ => True
  | .double digits => Rule.double.pattern.Matches digits.toList
  | .integer digits => digits.toList ≠ [] ∧ ∀ c ∈ digits.toList, Digits.isDigit c = true
  | .hexInteger digits => digits.toList ≠ [] ∧ ∀ c ∈ digits.toList, Rule.isHexDigit c = true
  | .boolean _ => True
  | .identifier name =>
    Rule.identifier.pattern.Matches name.toList ∧ (∀ word : Keyword, name ≠ word.text) ∧
      ∀ value, name ≠ booleanText value
  | .keyword _ => True
  | .symbol _ => True

/-- A spelling is read as what it spells. -/
theorem lexeme?_spelling (l : Lexeme) : l.rule.lexeme? l.spelling = some l := by
  cases l <;> simp [rule, spelling, Rule.lexeme?, Escape.decode_encode]

/-- The spelling of a lexeme matches the pattern of its rule. -/
theorem matches_spelling {l : Lexeme} (h : l.WellFormed) :
    l.rule.pattern.Matches l.spelling := by
  have hmany1 : ∀ {test : Char → Bool} {s : List Char}, s ≠ [] → (∀ c ∈ s, test c = true) →
      (Pattern.many1 (.char test)).Matches s := by
    intro test s hne hs
    obtain ⟨c, cs, rfl⟩ := List.exists_cons_of_ne_nil hne
    obtain ⟨hhead, htail⟩ := List.forall_mem_cons.mp hs
    exact .andThen (.char hhead) (Pattern.matches_many_char htail)
  cases l with
  | string value => exact Rule.matches_string_iff.mpr ⟨_, rfl, Rule.stringTail_encode _⟩
  | double digits => exact h
  | integer digits => exact hmany1 h.1 h.2
  | hexInteger digits => exact .andThen (.char rfl) (.andThen (.char rfl) (hmany1 h.1 h.2))
  | boolean value => exact Pattern.matches_literal_iff.mpr rfl
  | identifier name => exact h.1
  | keyword word => exact Pattern.matches_literal_iff.mpr rfl
  | symbol mark => exact Pattern.matches_literal_iff.mpr rfl

/-- A name that is well formed is no reserved word. -/
theorem not_matches_of_reserved {name : String} (h : (identifier name).WellFormed) {rule : Rule}
    (hreserved : rule.reserved = true) : ¬ rule.pattern.Matches name.toList := by
  obtain ⟨-, hkeyword, hboolean⟩ := h
  intro hmatches
  cases rule with
  | keyword word =>
      exact hkeyword word (String.toList_inj.mp (Pattern.matches_literal_iff.mp hmatches))
  | boolean value =>
      exact hboolean value (String.toList_inj.mp (Pattern.matches_literal_iff.mp hmatches))
  | _ => cases hreserved

/-- **A spelling is taken as one piece** before a blank and at the end of a line. -/
theorem takes_spelling {l : Lexeme} (h : l.WellFormed) {rest : List Char}
    (hrest : ∀ next ∈ rest.head?, Rule.isBlank next = true) : l.rule.Takes l.spelling rest := by
  have happlies := matches_spelling h
  by_cases hstring : l.rule = .string
  · rw [hstring] at happlies ⊢
    exact Rule.takes_string happlies rest
  by_cases hslash : l.rule = .symbol .slash
  · obtain rfl : l = .symbol .slash := by cases l <;> cases hslash; rfl
    apply Rule.takes_slash
    intro hnext
    cases hrest '/' hnext
  have hrule : l.rule ∉ [Rule.blank, .string, .comment, .symbol .slash] := by
    have hlayout : l.rule ≠ .blank ∧ l.rule ≠ .comment := by cases l <;> simp [rule]
    simp [hlayout, hstring, hslash]
  have hname : l.rule = .identifier →
      ∀ rule' : Rule, rule'.reserved = true → ¬ rule'.pattern.Matches l.spelling := by
    intro hidentifier rule' hreserved
    cases l with
    | identifier name => exact not_matches_of_reserved h hreserved
    | _ => cases hidentifier
  generalize l.spelling = piece at happlies hname ⊢
  cases piece with
  | nil => exact absurd happlies (Rule.not_matches_nil _)
  | cons first cs =>
      refine Rule.takes_of_head? happlies hname fun next hnext rule' hstart => ?_
      exact Rule.canHold_blank_eq_false (Rule.first_of_matches hrule happlies) hstart
        (hrest next hnext)

/-- No token has a line end in it. -/
theorem not_isLineEnd_of_mem_spelling {l : Lexeme} (h : l.WellFormed) :
    ∀ c ∈ l.spelling, Rule.isLineEnd c = false := by
  have hlayout : l.rule ≠ .blank := by cases l <;> simp [rule]
  intro c hc
  have hhold := Pattern.canHold_of_matches (matches_spelling h) hc
  by_contra hline
  exact hlayout (Rule.eq_blank_of_canHold (Bool.not_eq_false _ ▸ hline) hhold)

end Lexeme

end Scriptlet
