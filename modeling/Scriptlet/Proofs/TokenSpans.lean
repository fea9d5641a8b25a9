import Scriptlet.Proofs.Spelling
import Scriptlet.Proofs.TokenPlaces

/-!
# Where the spellings of tokens stand

Columns are counted along the pieces of a line, with the blanks and comments that
give no token.  So a token points at the piece that it was read from, which is its
spelling (`Lexeme.SpelledBy`), and this piece ends before the next one begins.

An error points at its character in the same way.  What stands before that place is
a text of its own, and its tokens are those that had been read when the scan
stopped (`Cut.Maximal.of_pieces`).
-/

namespace Scriptlet

/-- The texts that spell a lexeme.  A string has many spellings, a hexadecimal number has two,
and all else has one. -/
def Lexeme.SpelledBy (s : List Char) : Lexeme → Prop
  | .string value => ∃ body, s = '"' :: (body ++ ['"']) ∧ Rule.StringTail (body ++ ['"']) ∧
      Escape.decode body = value.toList
  | .hexInteger digits => s = '0' :: 'x' :: digits.toList ∨ s = '0' :: 'X' :: digits.toList
  | l => s = l.text.toList

namespace Position

/-- One place comes before another: on an earlier line, or earlier on the same one. -/
def Before (p q : Position) : Prop :=
  p.line < q.line ∨ (p.line = q.line ∧ p.column < q.column)

/-- The text stands in the lines at this place: it is what the line begins with once the
characters before the column are dropped. -/
def PointsAt (lines : List String) (s : List Char) (p : Position) : Prop :=
  1 ≤ p.line ∧ p.line ≤ lines.length ∧ 1 ≤ p.column ∧
    ∃ line, lines[p.line - 1]? = some line ∧ s <+: line.toList.drop (p.column - 1)

/-- The lines up to a place, with what stands before it on its own line. -/
def linesBefore (lines : List String) (p : Position) : List String :=
  lines.take (p.line - 1) ++
    (lines[p.line - 1]?.map fun line => String.ofList (line.toList.take (p.column - 1))).toList

end Position

/-- A token with its spelling. -/
structure Spelled where
  token : Token
  spelling : List Char

namespace Spelled

/-- The spelling ends before a place, if it is on the same line. -/
def EndsBefore (p : Position) (x : Spelled) : Prop :=
  x.token.position.line < p.line ∨
    (x.token.position.line = p.line ∧ x.token.position.column + x.spelling.length ≤ p.column)

/-- The tokens stand in the lines, in order and without overlaps. -/
structure Placed (lines : List String) (xs : List Spelled) : Prop where
  spelled : ∀ x ∈ xs, x.token.lexeme.SpelledBy x.spelling
  pointsAt : ∀ x ∈ xs, x.token.position.PointsAt lines x.spelling
  increasing : (xs.map fun x => x.token.position).Pairwise Position.Before
  apart : xs.Pairwise fun x y => x.EndsBefore y.token.position

/-- Some of the tokens, in order, stand in the lines as all of them do. -/
theorem Placed.of_sublist {lines : List String} {xs ys : List Spelled} (h : Placed lines xs)
    (hys : ys.Sublist xs) : Placed lines ys where
  spelled x hx := h.spelled x (hys.mem hx)
  pointsAt x hx := h.pointsAt x (hys.mem hx)
  increasing := h.increasing.sublist (hys.map _)
  apart := h.apart.sublist hys

end Spelled

/-! ## Pieces that are read as tokens -/

namespace Rule

/-- A piece spells the lexeme that it is read as. -/
theorem spelledBy_of_lexeme? {rule : Rule} {piece : List Char} {l : Lexeme}
    (hmatches : rule.pattern.Matches piece) (hl : rule.lexeme? piece = some l) :
    l.SpelledBy piece := by
  cases rule with
  | comment | blank => cases hl
  | string =>
      obtain ⟨tail, rfl, htail⟩ := matches_string_iff.mp hmatches
      obtain ⟨body, rfl⟩ := htail.exists_body
      cases hl
      exact ⟨body, rfl, htail, by simp⟩
  | hexInteger =>
      obtain ⟨zero, rest, rfl, hzero, hrest⟩ := Pattern.matches_andThen_iff.mp hmatches
      obtain ⟨mark, digits, rfl, hmark, -⟩ := Pattern.matches_andThen_iff.mp hrest
      obtain ⟨z, hz, rfl⟩ := Pattern.matches_char_iff.mp hzero
      obtain ⟨x, hx, rfl⟩ := Pattern.matches_char_iff.mp hmark
      rw [beq_iff_eq] at hz
      rw [Bool.or_eq_true, beq_iff_eq, beq_iff_eq] at hx
      cases hl
      rcases hx with rfl | rfl
      · exact .inl (by simp [hz])
      · exact .inr (by simp [hz])
  | double | integer | identifier =>
      cases hl
      exact String.toList_ofList.symm
  | boolean _ | keyword _ | symbol _ =>
      cases hl
      exact Pattern.matches_literal_iff.mp hmatches

/-- A piece is taken as well if less of the line is there. -/
theorem Takes.of_prefix {rule : Rule} {piece rest rest' : List Char}
    (h : rule.Takes piece rest) (hrest : rest' <+: rest) : rule.Takes piece rest' where
  applies := h.applies
  longest rule' piece' hbegins :=
    h.longest rule' piece' (hbegins.trans ((List.prefix_append_right_inj piece).mpr hrest))
  unreserved := h.unreserved

end Rule

namespace Cut

/-- The tokens of pieces that stand one after the other from a place on, with the pieces. -/
def spelledOf (here : Position) : List (Rule × List Char) → List Spelled
  | [] => []
  | (rule, piece) :: pieces =>
    ((rule.lexeme? piece).map fun l => Spelled.mk ⟨l, here⟩ piece).toList
      ++ spelledOf { here with column := here.column + piece.length } pieces

variable {here : Position} {pieces : List (Rule × List Char)} {x : Spelled}

/-- Without their spellings these are the tokens of the pieces. -/
theorem map_token_spelledOf (here : Position) (pieces : List (Rule × List Char)) :
    (spelledOf here pieces).map Spelled.token = tokensOf here pieces := by
  induction pieces generalizing here with
  | nil => rfl
  | cons piece pieces ih =>
      obtain ⟨rule, piece⟩ := piece
      cases hlexeme : rule.lexeme? piece <;> simp [spelledOf, tokensOf, hlexeme, ih]

/-- A token of the pieces is the one of the first piece or one of the others. -/
theorem mem_spelledOf_cons {rule : Rule} {piece : List Char} :
    x ∈ spelledOf here ((rule, piece) :: pieces) ↔
      (∃ l, rule.lexeme? piece = some l ∧ ⟨⟨l, here⟩, piece⟩ = x) ∨
        x ∈ spelledOf { here with column := here.column + piece.length } pieces := by
  rw [spelledOf, List.mem_append, Option.mem_toList, Option.map_eq_some_iff]

/-- A token stands on the line of the pieces, within their width. -/
theorem bounds_of_mem_spelledOf (h : x ∈ spelledOf here pieces) :
    x.token.position.line = here.line ∧ here.column ≤ x.token.position.column ∧
      x.token.position.column + x.spelling.length ≤ here.column + (textOf pieces).length := by
  induction pieces generalizing here with
  | nil => cases h
  | cons piece pieces ih =>
      obtain ⟨rule, piece⟩ := piece
      rw [textOf_cons, List.length_append]
      rcases mem_spelledOf_cons.mp h with ⟨l, -, rfl⟩ | hmore
      · exact ⟨rfl, Nat.le_refl _, by dsimp only; omega⟩
      · obtain ⟨hline, hcolumn, hend⟩ := ih hmore
        dsimp only at hline hcolumn hend
        exact ⟨hline, by omega, by omega⟩

/-- The spelling of a token is a piece that is read as the token. -/
theorem piece_of_mem_spelledOf (h : x ∈ spelledOf here pieces) :
    ∃ rule, (rule, x.spelling) ∈ pieces ∧ rule.lexeme? x.spelling = some x.token.lexeme := by
  induction pieces generalizing here with
  | nil => cases h
  | cons piece pieces ih =>
      obtain ⟨rule, piece⟩ := piece
      rcases mem_spelledOf_cons.mp h with ⟨l, hl, rfl⟩ | hmore
      · exact ⟨rule, List.mem_cons_self, hl⟩
      · obtain ⟨rule', hmem, hlexeme⟩ := ih hmore
        exact ⟨rule', List.mem_cons_of_mem _ hmem, hlexeme⟩

/-- Where the pieces stand in a text, the spelling of a token stands at its column. -/
theorem begins_of_mem_spelledOf (before : List Char) (hcolumn : here.column = before.length + 1)
    (h : x ∈ spelledOf here pieces) (rest : List Char) :
    x.spelling <+: (before ++ textOf pieces ++ rest).drop (x.token.position.column - 1) := by
  induction pieces generalizing here before with
  | nil => cases h
  | cons piece pieces ih =>
      obtain ⟨rule, piece⟩ := piece
      rcases mem_spelledOf_cons.mp h with ⟨l, -, rfl⟩ | hmore
      · exact ⟨textOf pieces ++ rest, by simp [hcolumn]⟩
      · have hnext : here.column + piece.length = (before ++ piece).length + 1 := by
          rw [hcolumn, List.length_append]
          omega
        have hbegins := ih (before ++ piece) hnext hmore
        rwa [List.append_assoc before] at hbegins

/-- On a line, each spelling ends before the next token. -/
theorem pairwise_spelledOf (here : Position) (pieces : List (Rule × List Char)) :
    (spelledOf here pieces).Pairwise fun x y => x.EndsBefore y.token.position := by
  induction pieces generalizing here with
  | nil => exact .nil
  | cons piece pieces ih =>
      obtain ⟨rule, piece⟩ := piece
      cases hlexeme : rule.lexeme? piece with
      | none => simpa [spelledOf, hlexeme] using ih _
      | some l =>
          simp only [spelledOf, hlexeme, Option.map_some, Option.toList_some, List.singleton_append,
            List.pairwise_cons]
          refine ⟨fun y hy => ?_, ih _⟩
          obtain ⟨hline, hcolumn, -⟩ := bounds_of_mem_spelledOf hy
          exact .inr ⟨hline.symm, hcolumn⟩

/-! ## Pieces of a cut -/

/-- The pieces of a maximal cut are taken off one after the other. -/
theorem Maximal.taken {text : List Char} {cut : Cut} (h : cut.Maximal text) :
    Taken cut.pieces cut.rest := by
  induction h with
  | stuck => trivial
  | piece _ htakes hcut ih => exact ⟨hcut.text_eq ▸ htakes, ih⟩

/-- **The pieces of a cut are the cut of their own text**, of which nothing is left. -/
theorem Maximal.of_pieces {text : List Char} {cut : Cut} (h : cut.Maximal text) :
    Maximal (textOf cut.pieces) ⟨cut.pieces, []⟩ := by
  have hshort : ∀ {pieces : List (Rule × List Char)} {rest : List Char}, Taken pieces rest →
      Taken pieces [] := by
    intro pieces rest htaken
    induction pieces with
    | nil => trivial
    | cons piece pieces ih =>
        obtain ⟨htakes, hmore⟩ := htaken
        refine ⟨htakes.of_prefix ?_, ih hmore⟩
        rw [List.append_nil]
        exact List.prefix_append _ _
  exact (hshort h.taken).maximal

/-- A piece that was taken off matches the pattern of its rule. -/
theorem Taken.matches {pieces : List (Rule × List Char)} {rest : List Char}
    (h : Taken pieces rest) : ∀ piece ∈ pieces, piece.1.pattern.Matches piece.2 := by
  induction pieces with
  | nil => exact List.forall_mem_nil _
  | cons piece pieces ih =>
      obtain ⟨htakes, hmore⟩ := h
      exact List.forall_mem_cons.mpr ⟨htakes.applies, ih hmore⟩

/-! ## All lines -/

/-- The tokens of all lines with their spellings. -/
def allSpelled (script : String) (cuts : List Cut) : List Spelled :=
  (cuts.zipIdx 1).flatMap fun (cut, line) => spelledOf ⟨script, line, 1⟩ cut.pieces

/-- Without their spellings these are the tokens of all lines. -/
theorem map_token_allSpelled (script : String) (cuts : List Cut) :
    (allSpelled script cuts).map Spelled.token = allTokens script 1 cuts := by
  rw [allSpelled, List.map_flatMap, allTokens]
  congr 1
  funext x
  exact map_token_spelledOf _ _

/-- A token of some line, with the cut of this line. -/
theorem mem_allSpelled {script : String} {cuts : List Cut} {x : Spelled} :
    x ∈ allSpelled script cuts ↔
      ∃ cut line, 1 ≤ line ∧ cuts[line - 1]? = some cut ∧
        x ∈ spelledOf ⟨script, line, 1⟩ cut.pieces := by
  simp only [allSpelled, List.mem_flatMap, Prod.exists,
    List.mk_mem_zipIdx_iff_le_and_getElem?_sub, and_assoc]

/-- A cut is that of the line with its number. -/
theorem exists_line_of_getElem? {lines : List String} {cuts : List Cut}
    (hcuts : List.Forall₂ Maximal (lines.map String.toList) cuts) {i : Nat} {cut : Cut}
    (h : cuts[i]? = some cut) : ∃ line, lines[i]? = some line ∧ cut.Maximal line.toList := by
  obtain ⟨hlength, hall⟩ := List.forall₂_iff_get.mp hcuts
  obtain ⟨hi, rfl⟩ := List.getElem?_eq_some_iff.mp h
  have hi' : i < (lines.map String.toList).length := hlength ▸ hi
  have hline : i < lines.length := by simpa using hi'
  refine ⟨lines[i], List.getElem?_eq_getElem hline, ?_⟩
  simpa using hall i hi' hi

/-- Spellings are apart, also on different lines. -/
theorem pairwise_allSpelled (script : String) (cuts : List Cut) :
    (allSpelled script cuts).Pairwise fun x y => x.EndsBefore y.token.position := by
  refine List.pairwise_flatMap.mpr ⟨fun cut _ => pairwise_spelledOf _ _, ?_⟩
  have hlines : (cuts.zipIdx 1).Pairwise fun a b => a.2 < b.2 := by
    rw [← List.pairwise_map, List.zipIdx_map_snd]
    exact List.pairwise_lt_range'
  refine hlines.imp fun hlt x hx y hy => ?_
  have hx := (bounds_of_mem_spelledOf hx).1
  have hy := (bounds_of_mem_spelledOf hy).1
  exact .inl (by rwa [hx, hy])

/-- The tokens of cut lines stand in these. -/
theorem placed_allSpelled (script : String) {lines : List String} {cuts : List Cut}
    (hcuts : List.Forall₂ Maximal (lines.map String.toList) cuts) :
    Spelled.Placed lines (allSpelled script cuts) := by
  have hpiece : ∀ x ∈ allSpelled script cuts, ∃ rule : Rule,
      rule.pattern.Matches x.spelling ∧ rule.lexeme? x.spelling = some x.token.lexeme := by
    intro x hx
    obtain ⟨cut, line, -, hcut, hx⟩ := mem_allSpelled.mp hx
    obtain ⟨text, -, hmaximal⟩ := exists_line_of_getElem? hcuts hcut
    obtain ⟨rule, hmem, hlexeme⟩ := piece_of_mem_spelledOf hx
    exact ⟨rule, hmaximal.taken.matches _ hmem, hlexeme⟩
  have hpoints : ∀ x ∈ allSpelled script cuts, x.token.position.PointsAt lines x.spelling := by
    intro x hx
    obtain ⟨cut, line, hpos, hcut, hx⟩ := mem_allSpelled.mp hx
    obtain ⟨text, htext, hmaximal⟩ := exists_line_of_getElem? hcuts hcut
    obtain ⟨hline, hcolumn, -⟩ := bounds_of_mem_spelledOf hx
    dsimp only at hline hcolumn
    have hlt := (List.getElem?_eq_some_iff.mp htext).1
    have hbegins := begins_of_mem_spelledOf [] rfl hx cut.rest
    rw [List.nil_append, ← hmaximal.text_eq] at hbegins
    exact ⟨by omega, by omega, hcolumn, text, by rwa [hline], hbegins⟩
  have hapart := pairwise_allSpelled script cuts
  refine ⟨fun x hx => ?_, hpoints, ?_, hapart⟩
  · obtain ⟨rule, hmatches, hlexeme⟩ := hpiece x hx
    exact Rule.spelledBy_of_lexeme? hmatches hlexeme
  · rw [List.pairwise_map]
    refine hapart.imp_of_mem fun {x y} hx _ hends => ?_
    obtain ⟨rule, hmatches, -⟩ := hpiece x hx
    have hlength : 0 < x.spelling.length := by
      rw [List.length_pos_iff]
      intro hempty
      exact Rule.not_matches_nil rule (hempty ▸ hmatches)
    rcases hends with hline | ⟨hline, hcolumn⟩
    · exact .inl hline
    · exact .inr ⟨hline, by omega⟩

/-- The tokens of more lines come after those of the first, with the lines counted on. -/
theorem allSpelled_append (script : String) (cuts cuts' : List Cut) :
    allSpelled script (cuts ++ cuts') = allSpelled script cuts ++
      (cuts'.zipIdx (1 + cuts.length)).flatMap fun (cut, line) =>
        spelledOf ⟨script, line, 1⟩ cut.pieces := by
  rw [allSpelled, List.zipIdx_append, List.flatMap_append]
  rfl

/-- Up to the first rest, every spelling ends before this. -/
theorem endsBefore_of_mem_allSpelled {script : String} {before : List Cut} {cut : Cut} {x : Spelled}
    (h : x ∈ allSpelled script (before ++ [cut])) :
    x.EndsBefore ⟨script, before.length + 1, cut.width + 1⟩ := by
  rw [allSpelled_append, List.mem_append] at h
  rcases h with hbefore | hlast
  · obtain ⟨cut', line, hpos, hcut', hx⟩ := mem_allSpelled.mp hbefore
    have hline := (bounds_of_mem_spelledOf hx).1
    have hlt := (List.getElem?_eq_some_iff.mp hcut').1
    dsimp only at hline
    exact .inl (by dsimp only; omega)
  · have hx : x ∈ spelledOf ⟨script, 1 + before.length, 1⟩ cut.pieces := by simpa using hlast
    obtain ⟨hline, -, hend⟩ := bounds_of_mem_spelledOf hx
    rw [← width_eq] at hend
    dsimp only at hline hend
    exact .inr ⟨by dsimp only; omega, by dsimp only; omega⟩

/-- The text before the first rest is read up to its end, as the pieces say. -/
theorem scanLines_linesBefore {script : String} {lines : List String} {before after : List Cut}
    {cut : Cut}
    (hcuts : List.Forall₂ Maximal (lines.map String.toList) (before ++ cut :: after))
    (hbefore : ∀ b ∈ before, b.rest = []) {line : String}
    (hline : lines[before.length]? = some line) (hcut : cut.Maximal line.toList) :
    Token.scanLines script
        (Position.linesBefore lines ⟨script, before.length + 1, cut.width + 1⟩) =
      .ok ((allSpelled script (before ++ [cut])).map Spelled.token) := by
  have hlast : String.toList (String.ofList (line.toList.take cut.width)) = textOf cut.pieces := by
    rw [String.toList_ofList, hcut.text_eq, width_eq, List.take_left]
  have hlines : Position.linesBefore lines ⟨script, before.length + 1, cut.width + 1⟩ =
      lines.take before.length ++ [String.ofList (line.toList.take cut.width)] := by
    simp [Position.linesBefore, hline]
  have hshort : List.Forall₂ Maximal
      ((lines.take before.length ++ [String.ofList (line.toList.take cut.width)]).map
        String.toList) (before ++ [⟨cut.pieces, []⟩]) := by
    rw [List.map_append, List.map_singleton, hlast, List.map_take]
    exact List.rel_append (List.forall₂_take_append _ _ _ hcuts) (.cons hcut.of_pieces .nil)
  have hrest : ∀ b ∈ before ++ [⟨cut.pieces, []⟩], b.rest = [] := by
    intro b hb
    rcases List.mem_append.mp hb with hb | hb
    · exact hbefore b hb
    · rw [List.mem_singleton.mp hb]
  have hscan := Token.scanLinesFrom_of_rest_nil script hshort hrest 1
  rw [hlines, Token.scanLines, hscan, map_token_allSpelled]
  simp only [allTokens, List.zipIdx_append, List.flatMap_append, List.zipIdx_singleton,
    List.flatMap_singleton, tokens]

end Cut

namespace Token

/-- **Places are faithful.**  Every token points at a spelling of it in the lines, on a line that
is there.  The places of the tokens increase, and the spellings do not overlap.  An error points
at the character that it names, and the tokens of what stands before this place end before it. -/
theorem scanLines_faithful (script : String) (lines : List String) :
    (∀ tokens, scanLines script lines = .ok tokens →
      ∃ xs, xs.map Spelled.token = tokens ∧ Spelled.Placed lines xs) ∧
    ∀ e, scanLines script lines = .error e →
      ∃ c p xs, e = ⟨.unknownToken (String.singleton c), some p⟩ ∧ p.PointsAt lines [c] ∧
        scanLines script (p.linesBefore lines) = .ok (xs.map Spelled.token) ∧
        Spelled.Placed lines xs ∧ ∀ x ∈ xs, x.EndsBefore p := by
  obtain ⟨cutOf, hcutOf⟩ := Classical.skolem.mp Cut.exists_maximal
  have hcuts : List.Forall₂ Cut.Maximal (lines.map String.toList)
      ((lines.map String.toList).map cutOf) :=
    List.forall₂_map_right_iff.mpr (List.forall₂_same.mpr fun text _ => hcutOf text)
  generalize (lines.map String.toList).map cutOf = cuts at hcuts
  have hplaced := Cut.placed_allSpelled script hcuts
  rcases Cut.rest_nil_or_blames script cuts with hrest | ⟨e, hblames⟩
  · have hscan : scanLines script lines = .ok (Cut.allTokens script 1 cuts) :=
      scanLinesFrom_of_rest_nil script hcuts hrest 1
    constructor
    · intro tokens hok
      rw [hscan] at hok
      cases hok
      exact ⟨_, Cut.map_token_allSpelled script cuts, hplaced⟩
    · intro e herror
      rw [hscan] at herror
      cases herror
  · obtain ⟨before, cut, after, c, cs, rfl, hbefore, hrest, rfl⟩ := hblames
    have hscan : scanLines script lines = .error ⟨.unknownToken (String.singleton c),
        some ⟨script, before.length + 1, cut.width + 1⟩⟩ := by
      rw [scanLines, scanLinesFrom_of_rest_cons script hcuts hbefore hrest, Nat.add_comm 1]
    constructor
    · intro tokens hok
      rw [hscan] at hok
      cases hok
    · intro e herror
      rw [hscan] at herror
      cases herror
      have hnumber : (before ++ cut :: after)[before.length]? = some cut := by simp
      obtain ⟨line, hline, hcut⟩ := Cut.exists_line_of_getElem? hcuts hnumber
      have hlt := (List.getElem?_eq_some_iff.mp hline).1
      have hbegins : [c] <+: line.toList.drop cut.width := by
        rw [hcut.text_eq, hrest, Cut.width_eq, List.drop_left]
        exact ⟨cs, rfl⟩
      refine ⟨c, _, Cut.allSpelled script (before ++ [cut]), rfl, ?_, ?_, ?_, ?_⟩
      · exact ⟨Nat.le_add_left 1 _, hlt, Nat.le_add_left 1 _, line, hline, hbegins⟩
      · exact Cut.scanLines_linesBefore hcuts hbefore hline hcut
      · have hsplit : before ++ cut :: after = before ++ [cut] ++ after := by simp
        rw [hsplit, Cut.allSpelled_append] at hplaced
        exact hplaced.of_sublist (List.sublist_append_left _ _)
      · intro x hx
        exact Cut.endsBefore_of_mem_allSpelled hx

/-- A comment that is none, a string with escapes and a letter of two bytes, and a number. -/
def spacedLines : List String :=
  ["/*", " \"é\\x41\\\"\"+0XfF // y"]

/-- The tokens of these lines. -/
def spacedTokens : List Token :=
  [⟨.symbol .slash, ⟨"s", 1, 1⟩⟩, ⟨.symbol .star, ⟨"s", 1, 2⟩⟩, ⟨.string "éA\"", ⟨"s", 2, 2⟩⟩,
    ⟨.symbol .plus, ⟨"s", 2, 11⟩⟩, ⟨.hexInteger "fF", ⟨"s", 2, 12⟩⟩]

/-- On a further line, a quote behind a string is reported. -/
theorem scanLines_faithful_spacedLines :
    scanLines "s" spacedLines = .ok spacedTokens ∧
    (∃ xs, xs.map Spelled.token = spacedTokens ∧ Spelled.Placed spacedLines xs) ∧
    scanLines "s" (spacedLines ++ ["\"é\" \"; y"]) =
      .error ⟨.unknownToken "\"", some ⟨"s", 3, 5⟩⟩ ∧
    ∃ c p xs, (⟨.unknownToken "\"", some ⟨"s", 3, 5⟩⟩ : ParseError) =
        ⟨.unknownToken (String.singleton c), some p⟩ ∧
      p.PointsAt (spacedLines ++ ["\"é\" \"; y"]) [c] ∧
      scanLines "s" (p.linesBefore (spacedLines ++ ["\"é\" \"; y"])) =
        .ok (xs.map Spelled.token) ∧
      Spelled.Placed (spacedLines ++ ["\"é\" \"; y"]) xs ∧ ∀ x ∈ xs, x.EndsBefore p := by
  have hscan : scanLines "s" spacedLines = .ok spacedTokens := rfl
  have hstray : scanLines "s" (spacedLines ++ ["\"é\" \"; y"]) =
      .error ⟨.unknownToken "\"", some ⟨"s", 3, 5⟩⟩ := rfl
  exact ⟨hscan, (scanLines_faithful "s" _).1 _ hscan, hstray, (scanLines_faithful "s" _).2 _ hstray⟩

end Token

end Scriptlet
