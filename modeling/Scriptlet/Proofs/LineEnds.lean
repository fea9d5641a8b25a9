import Scriptlet.Proofs.WrittenTokens
import Scriptlet.Script.Parser

/-!
# Line ends

A text is cut into lines at its line feeds, and a carriage return right before a
line feed goes with it.  So a line that ends in a carriage return loses it where
a line feed alone follows, and the lines of the text differ from those that were
joined.  For the scan this makes no difference: a carriage return at the end of a
line is taken together with the blanks before it or on its own, no other piece
can hold it, and where the line is stuck it stays so
(`Token.scanFrom_append_return`).
-/

namespace Scriptlet

namespace Rule

open Pattern

/-- A rule that applies to a text with a carriage return is the one for blanks. -/
theorem eq_blank_of_matches_return {rule : Rule} {text : List Char}
    (h : rule.pattern.Matches (text ++ ['\r'])) : rule = .blank := by
  have hmem : '\r' ∈ text ++ ['\r'] := List.mem_append_right _ List.mem_cons_self
  exact eq_blank_of_canHold rfl (canHold_of_matches h hmem)

/-- The rule for blanks takes one blank character or more. -/
theorem matches_blank_iff {text : List Char} :
    Rule.blank.pattern.Matches text ↔ text ≠ [] ∧ ∀ c ∈ text, isBlank c = true := by
  constructor
  · intro h
    refine ⟨?_, fun c hc => canHold_blank_iff ▸ canHold_of_matches h hc⟩
    intro hempty
    exact not_matches_nil .blank (hempty ▸ h)
  · intro h
    obtain ⟨hne, hblanks⟩ := h
    obtain ⟨c, cs, rfl⟩ := List.exists_cons_of_ne_nil hne
    obtain ⟨hc, hcs⟩ := List.forall_mem_cons.mp hblanks
    exact .andThen (.char hc) (matches_many_char hcs)

/-- What goes before a carriage return in a text of blanks is made of blanks as well. -/
theorem matches_blank_of_append_return {text : List Char} (hne : text ≠ [])
    (h : Rule.blank.pattern.Matches (text ++ ['\r'])) : Rule.blank.pattern.Matches text := by
  obtain ⟨-, hblanks⟩ := matches_blank_iff.mp h
  exact matches_blank_iff.mpr ⟨hne, fun c hc => hblanks c (List.mem_append_left _ hc)⟩

/-- A carriage return at the end sets nothing free. -/
theorem Stuck.append_return {text : List Char} (h : Stuck text) (hne : text ≠ []) :
    Stuck (text ++ ['\r']) := by
  intro rule piece hbegins hmatches
  by_cases hshort : piece <+: text
  · exact h rule piece hshort hmatches
  · -- the piece is the whole text with its carriage return, so the text is blank
    have hall : piece = text ++ ['\r'] :=
      (List.prefix_concat_iff.mp hbegins).resolve_right hshort
    subst hall
    have hrule := eq_blank_of_matches_return hmatches
    subst hrule
    exact h .blank text (List.prefix_refl text) (matches_blank_of_append_return hne hmatches)

/-- A piece is taken as before if a carriage return is put at the end of the line, unless
it is the blanks at the end. -/
theorem Takes.append_return {rule : Rule} {piece rest : List Char} (h : rule.Takes piece rest)
    (hinner : ¬ (rule = .blank ∧ rest = [])) : rule.Takes piece (rest ++ ['\r']) := by
  refine ⟨h.applies, fun rule' piece' hbegins hmatches => ?_, h.unreserved⟩
  rw [← List.append_assoc] at hbegins
  by_cases hshort : piece' <+: piece ++ rest
  · exact h.longest rule' piece' hshort hmatches
  · have hall : piece' = piece ++ rest ++ ['\r'] :=
      (List.prefix_concat_iff.mp hbegins).resolve_right hshort
    subst hall
    have hrule := eq_blank_of_matches_return hmatches
    subst hrule
    -- the whole line is blank, so the blanks have been taken up to its end
    have hne : piece ++ rest ≠ [] := by
      have hpos := h.length_pos
      intro hempty
      simp [List.append_eq_nil_iff.mp hempty] at hpos
    have hline := matches_blank_of_append_return hne hmatches
    have hlength := h.longest .blank _ (List.prefix_refl _) hline
    have hrest : rest = [] := by
      rw [List.length_append] at hlength
      exact List.eq_nil_of_length_eq_zero (by omega)
    subst hrest
    rw [List.append_nil] at hline
    have hblank : rule = .blank := by
      rcases eq_of_matches h.applies hline with heq | ⟨-, heq⟩ | ⟨heq, -⟩
      · exact heq
      · cases heq
      · cases heq
    exact absurd ⟨hblank, rfl⟩ hinner

end Rule

namespace Token

/-- **A carriage return at the end of a line does not show.** -/
theorem scanFrom_append_return (here : Position) (text : List Char) :
    scanFrom here 0 (text ++ ['\r']) = scanFrom here 0 text := by
  obtain ⟨cut, hcut⟩ := Cut.exists_maximal text
  induction hcut generalizing here with
  | @stuck text hstuck =>
      cases text with
      | nil =>
          have hreturn : Rule.blank.Takes ['\r'] [] :=
            Rule.takes_blanks rfl (List.forall_mem_nil _) (by simp)
          exact scanFrom_of_takes here hreturn
      | cons c cs =>
          rw [scanFrom_of_stuck here hstuck]
          exact scanFrom_of_stuck here (hstuck.append_return (List.cons_ne_nil c cs))
  | @piece text rule piece remaining cut htext htakes _ ih =>
      subst htext
      by_cases hend : rule = .blank ∧ remaining = []
      · -- one more blank at the end of the line
        obtain ⟨rfl, rfl⟩ := hend
        obtain ⟨hne, hblanks⟩ := Rule.matches_blank_iff.mp htakes.applies
        obtain ⟨c, cs, rfl⟩ := List.exists_cons_of_ne_nil hne
        obtain ⟨hc, hcs⟩ := List.forall_mem_cons.mp hblanks
        have hmore : Rule.blank.Takes (c :: (cs ++ ['\r'])) [] :=
          Rule.takes_blanks hc (by simpa [or_imp, forall_and] using ⟨hcs, rfl⟩) (by simp)
        have hscan := scanFrom_of_takes here hmore
        rw [List.append_nil] at hscan
        rw [scanFrom_of_takes here htakes, List.append_nil, List.cons_append, hscan]
        rfl
      · rw [List.append_assoc, scanFrom_of_takes here (htakes.append_return hend),
          scanFrom_of_takes here htakes, ih]

end Token

/-! ## Joining lines -/

/-- What may stand between two lines. -/
inductive LineEnd where
  | feed
  | returnFeed

/-- A line end as it is written. -/
def LineEnd.text : LineEnd → String
  | .feed => "\n"
  | .returnFeed => "\r\n"

/-- The text of lines, each after the first behind its line end. -/
def joinLines (first : String) : List (LineEnd × String) → String
  | [] => first
  | (lineEnd, line) :: more => first ++ lineEnd.text ++ joinLines line more

namespace Token

/-- A text without line feeds is one line. -/
theorem linesOf_unifyLineEnds_of_not_mem {line : List Char} (h : '\n' ∉ line) :
    linesOf (unifyLineEnds line) = [line] := by
  induction line with
  | nil => rfl
  | cons c cs ih =>
      obtain ⟨hc, hcs⟩ := not_or.mp (List.mem_cons.not.mp h)
      have hpair : c = '\r' → '\n' ∉ cs.head? := fun _ hmem => hcs (List.mem_of_mem_head? hmem)
      rw [unifyLineEnds_cons hpair]
      exact linesOf_cons (Ne.symm hc) (ih hcs)

/-- A line feed ends the line before it, which may lose a carriage return at its end. -/
theorem linesOf_unifyLineEnds_append_feed {line : List Char} (h : '\n' ∉ line)
    (text : List Char) :
    ∃ line', (line' = line ∨ line = line' ++ ['\r']) ∧
      linesOf (unifyLineEnds (line ++ '\n' :: text)) = line' :: linesOf (unifyLineEnds text) := by
  induction line with
  | nil => exact ⟨[], .inl rfl, rfl⟩
  | cons c cs ih =>
      by_cases hpair : c = '\r' ∧ cs = []
      · obtain ⟨rfl, rfl⟩ := hpair
        exact ⟨[], .inr rfl, rfl⟩
      · obtain ⟨hc, hcs⟩ := not_or.mp (List.mem_cons.not.mp h)
        obtain ⟨line', hline', hlines⟩ := ih hcs
        have hsingle : c = '\r' → '\n' ∉ (cs ++ '\n' :: text).head? := by
          intro hreturn hmem
          cases cs with
          | nil => exact hpair ⟨hreturn, rfl⟩
          | cons d ds => exact hcs (List.mem_of_mem_head? hmem)
        rw [List.cons_append, unifyLineEnds_cons hsingle]
        refine ⟨c :: line', ?_, linesOf_cons (Ne.symm hc) hlines⟩
        rcases hline' with rfl | rfl
        · exact .inl rfl
        · exact .inr rfl

/-- A line behind which a line end of either kind stands is scanned as it is. -/
theorem exists_linesOf_append_lineEnd (lineEnd : LineEnd) {line : List Char} (h : '\n' ∉ line)
    (text : List Char) :
    ∃ line', (∀ here, scanFrom here 0 line' = scanFrom here 0 line) ∧
      linesOf (unifyLineEnds (line ++ lineEnd.text.toList ++ text)) =
        line' :: linesOf (unifyLineEnds text) := by
  have hdropped : ∀ {whole line' : List Char}, (line' = whole ∨ whole = line' ++ ['\r']) →
      ∀ here, scanFrom here 0 line' = scanFrom here 0 whole := by
    intro whole line' hline' here
    rcases hline' with rfl | rfl
    · rfl
    · exact (scanFrom_append_return here line').symm
  cases lineEnd with
  | feed =>
      obtain ⟨line', hline', hlines⟩ := linesOf_unifyLineEnds_append_feed h text
      refine ⟨line', hdropped hline', ?_⟩
      rw [← hlines, List.append_assoc]
      rfl
  | returnFeed =>
      have hreturn : '\n' ∉ line ++ ['\r'] := by simpa using h
      obtain ⟨line', hline', hlines⟩ := linesOf_unifyLineEnds_append_feed hreturn text
      refine ⟨line', fun here => ?_, ?_⟩
      · rw [hdropped hline', scanFrom_append_return]
      · rw [← hlines, List.append_assoc, List.append_assoc]
        rfl

/-- The lines of a text that was joined from lines are scanned as these are. -/
theorem scanLinesFrom_joinLines (script : String) {first : String}
    {more : List (LineEnd × String)}
    (h : ∀ line ∈ first :: more.map Prod.snd, '\n' ∉ line.toList) (number : Nat) :
    scanLinesFrom script number (linesOf (unifyLineEnds (joinLines first more).toList)) =
      scanLinesFrom script number ((first :: more.map Prod.snd).map String.toList) := by
  induction more generalizing first number with
  | nil =>
      have hfirst := h first List.mem_cons_self
      rw [joinLines, linesOf_unifyLineEnds_of_not_mem hfirst]
      rfl
  | cons next more ih =>
      obtain ⟨lineEnd, line⟩ := next
      obtain ⟨hfirst, hmore⟩ := List.forall_mem_cons.mp h
      obtain ⟨line', hline', hlines⟩ :=
        exists_linesOf_append_lineEnd lineEnd hfirst (joinLines line more).toList
      rw [joinLines, String.toList_append, String.toList_append, hlines, List.map_cons,
        scanLinesFrom, scanLinesFrom, scanLine, scanLine, hline', ih hmore]
      rfl

end Token

/-- **Line ends do not matter.**  Lines without line feeds, joined by line ends that are chosen
one by one, give the tokens or the error that they give as lines, with the same places, and so
the same script or the same reason why they are none.  The lines may hold carriage returns,
also at their ends. -/
theorem Script.ofText_joinLines (name first : String) (more : List (LineEnd × String))
    (h : ∀ line ∈ first :: more.map Prod.snd, '\n' ∉ line.toList) :
    Token.scan name (joinLines first more) =
        Token.scanLines name (first :: more.map Prod.snd) ∧
      ofText name (joinLines first more) = ofLines name (first :: more.map Prod.snd) := by
  have hscan : Token.scan name (joinLines first more) =
      Token.scanLines name (first :: more.map Prod.snd) :=
    Token.scanLinesFrom_joinLines name h 1
  refine ⟨hscan, ?_⟩
  rw [ofText, ofLines, hscan]

/-- A comment that ends in a carriage return, and a string that a carriage return behind a
backslash leaves open. -/
theorem Script.ofText_joinLines_openString :
    (∀ line ∈ ["x = 1; // a\r", "y = \"b\\\r", "\r"], '\n' ∉ line.toList) ∧
      Token.scan "s" "x = 1; // a\r\ny = \"b\\\r\r\n\r" =
        .error ⟨.unknownToken "\"", some ⟨"s", 2, 5⟩⟩ ∧
      ofText "s" "x = 1; // a\r\ny = \"b\\\r\r\n\r" =
        ofLines "s" ["x = 1; // a\r", "y = \"b\\\r", "\r"] := by
  have hlines : ∀ line ∈ ["x = 1; // a\r", "y = \"b\\\r", "\r"], '\n' ∉ line.toList := by
    decide
  have hjoined := ofText_joinLines "s" "x = 1; // a\r"
    [(.feed, "y = \"b\\\r"), (.returnFeed, "\r")] hlines
  exact ⟨hlines, rfl, hjoined.2⟩

end Scriptlet
