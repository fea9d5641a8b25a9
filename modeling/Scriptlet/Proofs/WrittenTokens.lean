import Scriptlet.Proofs.Spelling

/-!
# Written tokens are read back

A text is written from tokens by their spellings, with a blank after each and
with further blanks and comments wherever a token may begin (`Lexeme.Written`).
Scanning it gives the tokens again.

The argument goes through the text from its end.  What is added in front is a
spelling, a comment or a blank.  The first two have no line end in them, so they
belong to the first line of what follows, and are taken off it as one piece.  A
blank begins a new line, or is taken together with the blanks that follow it.
-/

namespace Scriptlet

/-! ## Layout as pieces -/

namespace Rule

open Pattern

/-- Only blanks begin with a blank. -/
theorem eq_blank_of_canStart {rule : Rule} {c : Char} (hc : isBlank c = true)
    (h : rule.pattern.canStart c = true) : rule = .blank := by
  have hall : ∀ r ∈ all, blanks.any r.pattern.canStart = true → r = .blank := by decide +kernel
  exact hall rule (mem_all rule) (List.any_eq_true.mpr ⟨c, mem_blanks hc, h⟩)

/-- In blanks stand only blanks. -/
theorem canHold_blank_iff {c : Char} : Rule.blank.pattern.canHold c = isBlank c := by
  simp [pattern, many1, canHold]

/-- Blanks are taken up to a character that is none. -/
theorem takes_blanks {c : Char} {cs rest : List Char} (hc : isBlank c = true)
    (hcs : ∀ d ∈ cs, isBlank d = true) (hrest : ∀ next ∈ rest.head?, isBlank next = false) :
    Rule.blank.Takes (c :: cs) rest := by
  have happlies : Rule.blank.pattern.Matches (c :: cs) :=
    .andThen (.char hc) (matches_many_char hcs)
  refine takes_of_head? happlies (fun heq => by cases heq) fun next hnext rule' hstart => ?_
  rw [eq_blank_of_canStart hc hstart, canHold_blank_iff]
  exact hrest next hnext

/-- Blanks that have been taken are followed by none. -/
theorem Takes.isBlank_eq_false {cs rest : List Char} (h : Rule.blank.Takes cs rest) :
    ∀ next ∈ rest.head?, isBlank next = false := by
  intro next hnext
  obtain ⟨more, rfl⟩ := List.head?_eq_some_iff.mp hnext
  by_contra hblank
  rw [Bool.not_eq_false] at hblank
  have hmatches : Rule.blank.pattern.Matches (cs ++ [next]) := by
    obtain ⟨u, v, rfl, hu, hv⟩ := matches_andThen_iff.mp h.applies
    have hv' : ∀ d ∈ v, isBlank d = true := fun d hd => by
      have hhold := canHold_of_matches hv hd
      simpa [canHold] using hhold
    rw [List.append_assoc]
    exact .andThen hu (matches_many_char (by simpa [or_imp, forall_and, hblank] using hv'))
  have hlonger := h.longest .blank (cs ++ [next]) ⟨more, by simp⟩ hmatches
  exact absurd hlonger (by simp)

/-- A comment is taken up to a line end. -/
theorem takes_comment {body rest : List Char} (hbody : ∀ c ∈ body, isLineEnd c = false)
    (hrest : ∀ next ∈ rest.head?, isLineEnd next = true) :
    Rule.comment.Takes ('/' :: '/' :: body) rest := by
  have hall : ∀ r ∈ all, r.pattern.canStart '/' = true →
      r.pattern.canHold '\r' = false ∧ r.pattern.canHold '\n' = false := by
    decide +kernel
  have happlies : Rule.comment.pattern.Matches ('/' :: '/' :: body) :=
    .andThen (matches_literal_iff.mpr rfl) (matches_many_char (by simpa using hbody))
  refine takes_of_head? happlies (fun heq => by cases heq) fun next hnext rule' hstart => ?_
  obtain ⟨hreturn, hfeed⟩ := hall rule' (mem_all rule') hstart
  have hline := hrest next hnext
  rw [isLineEnd, Bool.or_eq_true, beq_iff_eq, beq_iff_eq] at hline
  rcases hline with rfl | rfl
  · exact hreturn
  · exact hfeed

end Rule

/-! ## Reading a line -/

namespace Cut

/-- The line is cut to its end, and its pieces give these lexemes. -/
def Reads (line : List Char) (ls : List Lexeme) : Prop :=
  ∃ cut : Cut, cut.Maximal line ∧ cut.rest = [] ∧ lexemesOf cut.pieces = ls

/-- An empty line gives no lexemes. -/
theorem reads_nil : Reads [] [] := by
  refine ⟨⟨[], []⟩, .stuck fun rule piece hbegins hmatches => ?_, rfl, rfl⟩
  rw [List.prefix_nil.mp hbegins] at hmatches
  exact Rule.not_matches_nil rule hmatches

variable {line : List Char} {ls : List Lexeme}

/-- A piece in front of a line adds its lexeme. -/
theorem Reads.piece (h : Reads line ls) {rule : Rule} {piece : List Char}
    (htakes : rule.Takes piece line) :
    Reads (piece ++ line) ((rule.lexeme? piece).toList ++ ls) := by
  obtain ⟨cut, hmaximal, hrest, rfl⟩ := h
  refine ⟨_, .piece rfl htakes hmaximal, hrest, ?_⟩
  cases hlexeme : rule.lexeme? piece <;> simp [lexemesOf, hlexeme]

/-- A blank in front of a line adds nothing. -/
theorem Reads.blank (h : Reads line ls) {c : Char} (hc : Rule.isBlank c = true) :
    Reads (c :: line) ls := by
  obtain ⟨cut, hmaximal, hrest, hls⟩ := id h
  cases hmaximal with
  | stuck _ =>
      subst hrest
      exact h.piece (Rule.takes_blanks hc (List.forall_mem_nil _) (by simp))
  | @piece _ rule piece remaining cut htext htakes hcut =>
      subst htext
      by_cases hrule : rule = .blank
      · -- one more blank in front of those that the line begins with
        subst hrule
        have hblanks : ∀ d ∈ piece, Rule.isBlank d = true := fun d hd => by
          rw [← Rule.canHold_blank_iff]
          exact Pattern.canHold_of_matches htakes.applies hd
        have hmore : Reads remaining ls := ⟨cut, hcut, hrest, hls⟩
        exact hmore.piece (Rule.takes_blanks hc hblanks htakes.isBlank_eq_false)
      · refine h.piece (Rule.takes_blanks hc (List.forall_mem_nil _) fun next hnext => ?_)
        by_contra hblank
        rw [Bool.not_eq_false] at hblank
        obtain ⟨d, cs, rfl⟩ := List.exists_cons_of_length_pos htakes.length_pos
        cases hnext
        exact hrule (Rule.eq_blank_of_canStart hblank (Pattern.canStart_of_matches htakes.applies))

/-- The lexemes of all lines are those of their pieces, line by line. -/
theorem map_lexeme_allTokens (script : String) (first : Nat) (cuts : List Cut) :
    (allTokens script first cuts).map Token.lexeme =
      (cuts.map fun cut => lexemesOf cut.pieces).flatten := by
  induction cuts generalizing first with
  | nil => rfl
  | cons cut cuts ih =>
      have hmore := ih (first + 1)
      rw [allTokens] at hmore
      rw [allTokens, List.zipIdx_cons, List.flatMap_cons, List.map_append, hmore]
      exact congrArg (· ++ _) (map_lexeme_tokensOf _ cut.pieces)

end Cut

/-! ## Reading a text -/

namespace Token

/-- Every text has a line, if only an empty one. -/
theorem linesOf_ne_nil (text : List Char) : linesOf text ≠ [] := by
  cases text with
  | nil => exact List.cons_ne_nil _ _
  | cons c cs =>
      rw [linesOf]
      split
      · exact List.cons_ne_nil _ _
      · split <;> exact List.cons_ne_nil _ _

theorem exists_linesOf (text : List Char) :
    ∃ line lines, linesOf (unifyLineEnds text) = line :: lines :=
  List.exists_cons_of_ne_nil (linesOf_ne_nil _)

/-- A character that ends no line stands in front of the first line. -/
theorem linesOf_cons {c : Char} (hc : c ≠ '\n') {text line : List Char} {lines : List (List Char)}
    (h : linesOf text = line :: lines) : linesOf (c :: text) = (c :: line) :: lines := by
  rw [linesOf, h]
  simp [hc]

/-- A character that is no part of a line end stays as it is. -/
theorem unifyLineEnds_cons {c : Char} {text : List Char}
    (h : c = '\r' → '\n' ∉ text.head?) : unifyLineEnds (c :: text) = c :: unifyLineEnds text := by
  rw [unifyLineEnds]
  rintro cs rfl rfl
  exact h rfl rfl

variable {text line : List Char} {lines : List (List Char)}

/-- What is put in front of a text belongs to its first line, unless there is a line end
in it. -/
theorem linesOf_append {piece : List Char} (hpiece : ∀ c ∈ piece, Rule.isLineEnd c = false)
    (h : linesOf (unifyLineEnds text) = line :: lines) :
    linesOf (unifyLineEnds (piece ++ text)) = (piece ++ line) :: lines := by
  induction piece with
  | nil => exact h
  | cons c cs ih =>
      obtain ⟨hhead, htail⟩ := List.forall_mem_cons.mp hpiece
      simp only [Rule.isLineEnd, Bool.or_eq_false_iff, beq_eq_false_iff_ne] at hhead
      rw [List.cons_append, unifyLineEnds_cons (fun hreturn => absurd hreturn hhead.1)]
      exact linesOf_cons hhead.2 (ih htail)

/-- The cases of a character in front of a text: it begins a line of its own, is one line
end with what follows, or belongs to the first line. -/
theorem linesOf_unifyLineEnds_cons (c : Char)
    (h : linesOf (unifyLineEnds text) = line :: lines) :
    (c = '\n' ∧ linesOf (unifyLineEnds (c :: text)) = [] :: line :: lines) ∨
      (line = [] ∧ linesOf (unifyLineEnds (c :: text)) = line :: lines) ∨
      linesOf (unifyLineEnds (c :: text)) = (c :: line) :: lines := by
  by_cases hpair : c = '\r' ∧ '\n' ∈ text.head?
  · obtain ⟨rfl, hfeed⟩ := hpair
    obtain ⟨cs, rfl⟩ := List.head?_eq_some_iff.mp hfeed
    have hunify : unifyLineEnds ('\r' :: '\n' :: cs) = unifyLineEnds ('\n' :: cs) := rfl
    rw [hunify]
    refine .inr (.inl ⟨?_, h⟩)
    have hfirst : linesOf (unifyLineEnds ('\n' :: cs)) = [] :: linesOf (unifyLineEnds cs) := rfl
    rw [hfirst] at h
    exact (List.cons.inj h).1.symm
  · rw [unifyLineEnds_cons (fun hreturn hfeed => hpair ⟨hreturn, hfeed⟩)]
    by_cases hc : c = '\n'
    · subst hc
      exact .inl ⟨rfl, congrArg ([] :: ·) h⟩
    · exact .inr (.inr (linesOf_cons hc h))

/-- The first line begins as the text does, if it is not empty. -/
theorem mem_head?_of_linesOf (h : linesOf (unifyLineEnds text) = line :: lines) :
    ∀ next ∈ line.head?, next ∈ text.head? := by
  intro next hnext
  cases text with
  | nil =>
      obtain ⟨rfl, -⟩ := List.cons.inj h
      exact hnext
  | cons c cs =>
      obtain ⟨line', lines', h'⟩ := exists_linesOf cs
      rcases linesOf_unifyLineEnds_cons c h' with ⟨-, heq⟩ | ⟨rfl, heq⟩ | heq <;>
        rw [h] at heq <;> obtain ⟨rfl, -⟩ := List.cons.inj heq
      · cases hnext
      · cases hnext
      · exact hnext

/-- The lines of the text are cut to their ends, and all pieces give these lexemes. -/
def Reads (text : List Char) (ls : List Lexeme) : Prop :=
  ∃ lss, List.Forall₂ Cut.Reads (linesOf (unifyLineEnds text)) lss ∧ lss.flatten = ls

variable {ls : List Lexeme}

/-- An empty text gives no lexemes. -/
theorem reads_nil : Reads [] [] :=
  ⟨[[]], .cons Cut.reads_nil .nil, rfl⟩

/-- A piece without a line end adds its lexeme. -/
theorem Reads.piece (h : Reads text ls) {rule : Rule} {piece : List Char}
    (hpiece : ∀ c ∈ piece, Rule.isLineEnd c = false)
    (htakes : ∀ line : List Char, (∀ next ∈ line.head?, next ∈ text.head?) →
      rule.Takes piece line) :
    Reads (piece ++ text) ((rule.lexeme? piece).toList ++ ls) := by
  obtain ⟨lss, hlines, rfl⟩ := h
  obtain ⟨line, lines, heq⟩ := exists_linesOf text
  rw [heq] at hlines
  obtain ⟨first, lss, hline, hmore, rfl⟩ := List.forall₂_cons_left_iff.mp hlines
  refine ⟨((rule.lexeme? piece).toList ++ first) :: lss, ?_, List.append_assoc _ _ _⟩
  rw [linesOf_append hpiece heq]
  exact .cons (hline.piece (htakes line (mem_head?_of_linesOf heq))) hmore

/-- A blank adds nothing. -/
theorem Reads.blank (h : Reads text ls) {c : Char} (hc : Rule.isBlank c = true) :
    Reads (c :: text) ls := by
  obtain ⟨lss, hlines, rfl⟩ := h
  obtain ⟨line, lines, heq⟩ := exists_linesOf text
  rw [heq] at hlines
  rcases linesOf_unifyLineEnds_cons c heq with ⟨-, heq'⟩ | ⟨-, heq'⟩ | heq'
  · exact ⟨[] :: lss, heq' ▸ .cons Cut.reads_nil hlines, rfl⟩
  · exact ⟨lss, heq' ▸ hlines, rfl⟩
  · obtain ⟨first, lss, hline, hmore, rfl⟩ := List.forall₂_cons_left_iff.mp hlines
    exact ⟨first :: lss, heq' ▸ .cons (hline.blank hc) hmore, rfl⟩

/-- The scan gives the lexemes that are read. -/
theorem Reads.exists_scan {text : String} (h : Reads text.toList ls) (script : String) :
    ∃ ts, scan script text = .ok ts ∧ ts.map Token.lexeme = ls := by
  obtain ⟨lss, hlines, rfl⟩ := h
  have hcuts : ∃ cuts, List.Forall₂ Cut.Maximal (linesOf (unifyLineEnds text.toList)) cuts ∧
      (∀ cut ∈ cuts, cut.rest = []) ∧ cuts.map (fun cut => Cut.lexemesOf cut.pieces) = lss := by
    generalize linesOf (unifyLineEnds text.toList) = lines at hlines
    induction hlines with
    | nil => exact ⟨[], .nil, by simp, rfl⟩
    | cons hline _ ih =>
        obtain ⟨cut, hmaximal, hrest, rfl⟩ := hline
        obtain ⟨cuts, hmaximals, hrests, rfl⟩ := ih
        exact ⟨cut :: cuts, .cons hmaximal hmaximals, List.forall_mem_cons.mpr ⟨hrest, hrests⟩, rfl⟩
  obtain ⟨cuts, hmaximal, hrest, rfl⟩ := hcuts
  have hscan := scanLinesFrom_of_rest_nil script hmaximal hrest 1
  exact ⟨_, hscan, Cut.map_lexeme_allTokens script 1 cuts⟩

end Token

/-! ## Writing tokens -/

namespace Lexeme

/-- The text has the spellings of the lexemes in it, one after the other.  Each is the last
thing in the text or has a blank behind it.  All else is blanks, and comments up to a line
end. -/
inductive Written : List Lexeme → List Char → Prop where
  | nil : Written [] []
  | blank {ls : List Lexeme} {c : Char} {text : List Char} (hc : Rule.isBlank c = true)
      (h : Written ls text) : Written ls (c :: text)
  | comment {ls : List Lexeme} {body : List Char} {c : Char} {text : List Char}
      (hbody : ∀ d ∈ body, Rule.isLineEnd d = false) (hc : Rule.isLineEnd c = true)
      (h : Written ls text) : Written ls ('/' :: '/' :: body ++ c :: text)
  | token (l : Lexeme) {ls : List Lexeme} {text : List Char}
      (hnext : ∀ next ∈ text.head?, Rule.isBlank next = true) (h : Written ls text) :
      Written (l :: ls) (l.spelling ++ text)

/-- A lexeme with a blank behind it may stand before what is written. -/
theorem Written.separate (l : Lexeme) {ls : List Lexeme} {c : Char} {text : List Char}
    (hc : Rule.isBlank c = true) (h : Written ls text) :
    Written (l :: ls) (l.spelling ++ c :: text) := by
  refine .token l (fun next hnext => ?_) (.blank hc h)
  cases hnext
  exact hc

/-- **A text is read as the lexemes that are written in it.**  By induction on how it is
written: the spelling in front is taken whole, and all else gives no lexemes. -/
theorem Written.reads {ls : List Lexeme} {text : List Char} (h : Written ls text)
    (hls : ∀ l ∈ ls, l.WellFormed) : Token.Reads text ls := by
  induction h with
  | nil => exact Token.reads_nil
  | blank hc _ ih => exact (ih hls).blank hc
  | @comment _ body c _ hbody hc _ ih =>
      have hblank : Rule.isBlank c = true := by simp [Rule.isBlank, hc]
      have hpiece : ∀ d ∈ '/' :: '/' :: body, Rule.isLineEnd d = false := by
        simp only [List.forall_mem_cons]
        exact ⟨rfl, rfl, hbody⟩
      have htakes : ∀ line : List Char, (∀ next ∈ line.head?, next ∈ some c) →
          Rule.comment.Takes ('/' :: '/' :: body) line := by
        intro line hline
        refine Rule.takes_comment hbody fun next hnext => ?_
        cases hline next hnext
        exact hc
      exact ((ih hls).blank hblank).piece hpiece htakes
  | token l hnext _ ih =>
      obtain ⟨hl, hls⟩ := List.forall_mem_cons.mp hls
      have hreads := (ih hls).piece (not_isLineEnd_of_mem_spelling hl) fun line hline =>
        takes_spelling hl fun next hmem => hnext next (hline next hmem)
      rwa [lexeme?_spelling] at hreads

/-- **Tokens that are written are read back**: their kinds and texts in the same order, and
nothing else. -/
theorem Written.scan_reads_back {ls : List Lexeme} {text : String} (h : Written ls text.toList)
    (hls : ∀ l ∈ ls, l.WellFormed) (script : String) :
    ∃ ts, Token.scan script text = .ok ts ∧ ts.map Token.lexeme = ls :=
  (h.reads hls).exists_scan script

/-- A string that ends in a backslash, a slash before a comment, a name that begins like a
keyword, and numbers, on lines that end in every way. -/
theorem Written.scan_reads_back_tricky :
    let ls := [string "a\"\\", .symbol .slash, .identifier "if0", .hexInteger "fF", .double ".5e-1"]
    Written ls "\"a\\\"\\\\\" / // note \"\r\nif0 0xfF\r.5e-1\n".toList ∧
      (∀ l ∈ ls, l.WellFormed) ∧
      ∃ ts, Token.scan "s" "\"a\\\"\\\\\" / // note \"\r\nif0 0xfF\r.5e-1\n" = .ok ts ∧
        ts.map Token.lexeme = ls := by
  intro ls
  have hdouble : Written [.double ".5e-1"] ".5e-1\n".toList := .separate _ rfl .nil
  have hnumbers : Written [.hexInteger "fF", .double ".5e-1"] "0xfF\r.5e-1\n".toList :=
    .separate _ rfl hdouble
  have hname : Written [.identifier "if0", .hexInteger "fF", .double ".5e-1"]
      "if0 0xfF\r.5e-1\n".toList :=
    .separate _ rfl hnumbers
  have hbody : ∀ d ∈ " note \"".toList, Rule.isLineEnd d = false := by simp [Rule.isLineEnd]
  have hcomment : Written [.identifier "if0", .hexInteger "fF", .double ".5e-1"]
      "// note \"\r\nif0 0xfF\r.5e-1\n".toList :=
    .comment hbody rfl (.blank rfl hname)
  have hslash : Written [.symbol .slash, .identifier "if0", .hexInteger "fF", .double ".5e-1"]
      "/ // note \"\r\nif0 0xfF\r.5e-1\n".toList :=
    .separate _ rfl hcomment
  have hspelling : spelling (.string "a\"\\") = "\"a\\\"\\\\\"".toList := by decide
  have hblank : Rule.isBlank ' ' = true := rfl
  have hwritten := hslash.separate (.string "a\"\\") hblank
  rw [hspelling] at hwritten
  have hlongest : Rule.double.pattern.longest? ".5e-1".toList = some 5 := by decide
  have hpattern : Rule.double.pattern.Matches ".5e-1".toList :=
    (Pattern.matches_of_longest?_eq_some hlongest).2.1
  have hls : ∀ l ∈ ls, l.WellFormed := by
    simp only [ls, List.forall_mem_cons]
    refine ⟨trivial, trivial, ⟨?_, ?_, ?_⟩, ?_, hpattern, List.forall_mem_nil _⟩
    · exact .andThen (.char rfl) (Pattern.matches_many_char (List.all_eq_true.mp rfl))
    · intro word
      cases word <;> decide
    · decide
    · exact ⟨by decide, List.all_eq_true.mp rfl⟩
  exact ⟨hwritten, hls, Written.scan_reads_back hwritten hls "s"⟩

end Lexeme

end Scriptlet
