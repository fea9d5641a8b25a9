import Mathlib.Logic.Relation
import Mathlib.Tactic.IntervalCases
import Scriptlet.Proofs.Datum
import Scriptlet.Proofs.Plain
import Scriptlet.Value.Operation

/-!
# Comparing lists with and without a look at their numbers

The comparison of values takes a list to be equal to itself without going down
into it.  Beside it stands the **plain** comparison, which goes down into every
list (`Heap.Congruent`).  A double that is not a number differs from itself, and
so does, for the plain comparison, every list that holds one.

In a heap without cycles both comparisons come to an end before their bounds
(`Heap.Acyclic.nests`).  What the plain comparison finds equal is equal
(`Heap.Congruent.equalBy_eq_true`), and where the two disagree, the comparison
has come to one list on both sides and a double in it is not a number
(`Heap.congruent_iff_equal`).
-/

namespace Scriptlet

namespace Heap

variable {h : Heap} {v w : Value} {depth depth' : Nat} {a b : ListId}

/-! ## Heaps without cycles -/

/-- The list `inner` is an element of the list `outer`. -/
def Holds (h : Heap) (inner outer : ListId) : Prop :=
  Value.list inner ∈ h.contents outer

/-- No list contains itself, however deep one looks. -/
def Acyclic (h : Heap) : Prop :=
  ∀ id, ¬ Relation.TransGen h.Holds id id

/-- In a layered heap a list is made after all that it contains. -/
theorem Layered.acyclic (hl : h.Layered) : h.Acyclic := by
  have hlt : ∀ {inner outer}, Relation.TransGen h.Holds inner outer → inner < outer := by
    intro inner outer hcontains
    induction hcontains with
    | single hholds => exact hl _ _ hholds
    | tail _ hholds ih => exact Nat.lt_trans ih (hl _ _ hholds)
  exact fun id hid => Nat.lt_irrefl id (hlt hid)

/-- Lists are nested in the value at most `depth` deep. -/
inductive Nests (h : Heap) : (depth : Nat) → Value → Prop where
  | atom {depth : Nat} {v : Value} (hv : ∀ id, v ≠ .list id) : Nests h depth v
  | list {depth : Nat} {id : ListId} (hitems : ∀ v ∈ h.contents id, Nests h depth v) :
      Nests h (depth + 1) (.list id)

/-- On the way down to a value, none of the lists above is the value again.  So
there are fewer and fewer lists that the rest of the way can come to. -/
theorem Acyclic.nests_of_above (hacyclic : h.Acyclic) {above : List ListId} {room : Nat}
    (hroom : above.length + room = h.size) (hnodup : above.Nodup)
    (habove : ∀ outer ∈ above, outer < h.size ∧
      ∀ inner, v = .list inner → Relation.TransGen h.Holds inner outer) :
    h.Nests (room + 1) v := by
  induction room using Nat.strongRecOn generalizing v above with
  | ind room ih =>
      cases v with
      | list id =>
          refine .list fun v hv => ?_
          have hid : id < h.size := lt_size_of_mem_contents hv
          have hnew : id ∉ above := fun hmem => hacyclic id ((habove id hmem).2 id rfl)
          have hnodup' : (id :: above).Nodup := List.nodup_cons.mpr ⟨hnew, hnodup⟩
          have hlength : above.length + 1 ≤ h.size :=
            length_le_size hnodup' (List.forall_mem_cons.mpr
              ⟨hid, fun outer hmem => (habove outer hmem).1⟩)
          obtain ⟨rest, rfl⟩ : ∃ rest, room = rest + 1 := ⟨room - 1, by omega⟩
          have hroom' : (id :: above).length + rest = h.size := by
            rw [List.length_cons]
            omega
          refine ih rest (Nat.lt_succ_self rest) hroom' hnodup'
            (List.forall_mem_cons.mpr ⟨⟨hid, ?_⟩, fun outer hmem => ⟨(habove outer hmem).1, ?_⟩⟩)
          · rintro inner rfl
            exact .single hv
          · rintro inner rfl
            exact .head hv ((habove outer hmem).2 id rfl)
      | _ => exact .atom nofun

/-- **Without cycles, lists are nested no deeper than the heap is large.** -/
theorem Acyclic.nests (hacyclic : h.Acyclic) (v : Value) : h.Nests (h.size + 1) v :=
  hacyclic.nests_of_above (Nat.zero_add _) List.nodup_nil nofun

/-! ## The bound on the depth -/

/-- Comparing element by element finds every element like its partner. -/
theorem isEqv_eq_true_iff {same : Value → Value → Bool} {vs ws : List Value} :
    vs.isEqv ws same = true ↔ List.Forall₂ (fun v w => same v w = true) vs ws := by
  induction vs generalizing ws with
  | nil => cases ws <;> simp [List.isEqv]
  | cons v vs ih => cases ws <;> simp [List.isEqv, ih]

/-- Lists have the same contents if their elements, compared one level less deep, are
equal. -/
theorem sameContentsWithin_succ_iff : h.sameContentsWithin (depth + 1) a b = true ↔
    List.Forall₂ (fun v w => equalBy (h.sameContentsWithin depth) v w = true)
      (h.contents a) (h.contents b) := by
  simp only [sameContentsWithin, Bool.and_eq_true, beq_iff_eq, isEqv_eq_true_iff]
  exact and_iff_right_of_imp List.Forall₂.length_eq

/-- Deeper comparisons of the elements that agree make deeper comparisons of the
lists that agree. -/
theorem sameContentsWithin_congr (hitems : ∀ v ∈ h.contents a, ∀ w,
      equalBy (h.sameContentsWithin depth') v w = equalBy (h.sameContentsWithin depth) v w) :
    h.sameContentsWithin (depth' + 1) a b = h.sameContentsWithin (depth + 1) a b := by
  simp only [sameContentsWithin, isEqv_congr_of_mem hitems]

namespace Nests

/-- A comparison answers the same at all depths to which the first value is
nested. -/
theorem equalBy_eq (hv : h.Nests depth v) (hdepth : depth ≤ depth') (w : Value) :
    equalBy (h.sameContentsWithin depth') v w = equalBy (h.sameContentsWithin depth) v w := by
  induction hv generalizing w depth' with
  | @atom _ v hv =>
      cases v with
      | list id => exact absurd rfl (hv id)
      | _ => cases w <;> rfl
  | list _ ih =>
      obtain ⟨deeper, rfl⟩ : ∃ deeper, depth' = deeper + 1 := ⟨depth' - 1, by omega⟩
      cases w with
      | list b =>
          have hlists := sameContentsWithin_congr (b := b)
            fun v hv w => ih v hv (Nat.le_of_succ_le_succ hdepth) w
          simp only [equalBy, hlists]
      | _ => rfl

/-- A comparison need not go deeper than its first list is nested. -/
theorem sameContentsWithin_eq (ha : h.Nests depth (.list a)) (hdepth : depth ≤ depth') :
    h.sameContentsWithin depth' a b = h.sameContentsWithin depth a b := by
  cases ha with
  | atom hatom => exact absurd rfl (hatom a)
  | list hitems =>
      obtain ⟨deeper, rfl⟩ : ∃ deeper, depth' = deeper + 1 := ⟨depth' - 1, by omega⟩
      exact sameContentsWithin_congr
        fun v hv w => (hitems v hv).equalBy_eq (Nat.le_of_succ_le_succ hdepth) w

end Nests

/-- In a heap without cycles the bound on the depth is beyond what a comparison
needs, also for the elements of the lists that are compared. -/
theorem Acyclic.sameContentsWithin_eq (hacyclic : h.Acyclic) (hdepth : h.size + 1 ≤ depth) :
    h.sameContentsWithin depth a b = h.sameContents a b := by
  have hbound : h.size + 1 ≤ h.size * h.size + 1 := Nat.succ_le_succ (Nat.le_mul_self h.size)
  have hnests := hacyclic.nests (.list a)
  rw [sameContents, hnests.sameContentsWithin_eq hbound, hnests.sameContentsWithin_eq hdepth]

/-! ## The plain comparison -/

/-- The comparison that goes down into every list: values of one kind with equal
contents, doubles as numbers are compared, lists element by element. -/
inductive Congruent (h : Heap) : Value → Value → Prop where
  | bool (x : Bool) : Congruent h (.bool x) (.bool x)
  | int (x : Int32) : Congruent h (.int x) (.int x)
  | double {x y : Float} (hxy : (x == y) = true) : Congruent h (.double x) (.double y)
  | str (x : String) : Congruent h (.str x) (.str x)
  | list {a b : ListId} (hitems : List.Forall₂ (Congruent h) (h.contents a) (h.contents b)) :
      Congruent h (.list a) (.list b)

/-- A double that differs from itself is the value or stands somewhere in it. -/
inductive HoldsNaN (h : Heap) : Value → Prop where
  | here {x : Float} (hx : (x == x) = false) : HoldsNaN h (.double x)
  | inside {id : ListId} {v : Value} (hv : v ∈ h.contents id) (hnan : HoldsNaN h v) :
      HoldsNaN h (.list id)

/-- A comparison of two values comes to the list on both sides. -/
inductive Meets (h : Heap) (id : ListId) : Value → Value → Prop where
  | here : Meets h id (.list id) (.list id)
  | inside {a b : ListId} {v w : Value} (hmem : (v, w) ∈ (h.contents a).zip (h.contents b))
      (hmeets : Meets h id v w) : Meets h id (.list a) (.list b)

namespace Congruent

/-- What is congruent to itself holds nothing that differs from itself. -/
theorem not_holdsNaN (hv : h.Congruent v v) : ¬ h.HoldsNaN v := by
  intro hnan
  induction hnan with
  | here hx =>
      cases hv with
      | double hxx => rw [hx] at hxx; cases hxx
  | inside hmem _ ih =>
      cases hv with
      | list hitems => exact ih (List.forall₂_same.mp hitems _ hmem)

/-- In values that are equal by the plain comparison, no list that both reach holds a double
that differs from itself. -/
theorem not_holdsNaN_of_meets (hvw : h.Congruent v w) {id : ListId} (hmeets : h.Meets id v w) :
    ¬ h.HoldsNaN (.list id) := by
  induction hmeets with
  | here => exact hvw.not_holdsNaN
  | inside hmem _ ih =>
      cases hvw with
      | list hitems => exact ih (List.forall₂_zip hitems hmem)

/-- **A look at the numbers of lists loses no equality.** -/
theorem equalBy_eq_true (hv : h.Nests depth v) (hvw : h.Congruent v w) :
    equalBy (h.sameContentsWithin depth) v w = true := by
  induction hv generalizing w with
  | atom hv =>
      cases hvw with
      | bool x | int x | str x => exact beq_self_eq_true x
      | double hxy => exact hxy
      | list => exact absurd rfl (hv _)
  | list _ ih =>
      cases hvw with
      | list hitems =>
          have hsame := sameContentsWithin_succ_iff.mpr (List.forall₂_iff_zip.mpr
            ⟨hitems.length_eq, fun hmem =>
              ih _ (List.of_mem_zip hmem).1 (List.forall₂_zip hitems hmem)⟩)
          simp only [equalBy, hsame, Bool.or_true]

end Congruent

/-- A nested value in which no double differs from itself is congruent to
itself. -/
theorem Nests.congruent_self (hv : h.Nests depth v) (hnan : ¬ h.HoldsNaN v) :
    h.Congruent v v := by
  induction hv with
  | @atom _ v hv =>
      cases v with
      | bool x => exact .bool x
      | int x => exact .int x
      | double x =>
          refine .double ?_
          by_contra hx
          exact hnan (.here (Bool.eq_false_iff.mpr hx))
      | str x => exact .str x
      | list id => exact absurd rfl (hv id)
  | list _ ih =>
      exact .list (List.forall₂_same.mpr
        fun v hv => ih v hv fun hinner => hnan (.inside hv hinner))

/-- Equal values are congruent, unless their comparison comes to one list on both
sides that holds a double unlike itself. -/
theorem Nests.congruent_of_equalBy (hv : h.Nests depth v)
    (heq : equalBy (h.sameContentsWithin depth') v w = true)
    (hshared : ∀ id, h.Meets id v w → ¬ h.HoldsNaN (.list id)) : h.Congruent v w := by
  induction hv generalizing w depth' with
  | @atom _ v hv =>
      cases v <;> cases w <;> simp only [equalBy, beq_iff_eq, Bool.false_eq_true] at heq
      case bool.bool => exact heq ▸ .bool _
      case int.int => exact heq ▸ .int _
      case double.double => exact .double heq
      case str.str => exact heq ▸ .str _
      case list.list => exact absurd rfl (hv _)
  | @list depth a hitems ih =>
      cases w with
      | list b =>
          rcases Bool.or_eq_true_iff.mp heq with hsame | hsame
          · cases beq_iff_eq.mp hsame
            exact (Nests.list hitems).congruent_self (hshared a .here)
          · cases depth' with
            | zero => cases hsame
            | succ deeper =>
                have hpairs := sameContentsWithin_succ_iff.mp hsame
                refine .list (List.forall₂_iff_zip.mpr ⟨hpairs.length_eq, fun hmem => ?_⟩)
                exact ih _ (List.of_mem_zip hmem).1 (List.forall₂_zip hpairs hmem)
                  fun id hmeets => hshared id (.inside hmem hmeets)
      | _ => cases heq

/-! ## Lists in lists -/

/-- A list has the same contents as itself unless one of its own elements is a
double that differs from itself; inner lists are not looked into. -/
theorem sameContents_self_iff : h.sameContents a a = true ↔
    ∀ x : Float, .double x ∈ h.contents a → (x == x) = true := by
  rw [sameContents, sameContentsWithin_succ_iff, List.forall₂_same]
  constructor
  · exact fun hself x hx => hself (.double x) hx
  · intro hdoubles v hv
    cases v with
    | double x => exact hdoubles x hv
    | bool x | int x | str x => exact beq_self_eq_true x
    | list id => simp only [equalBy, beq_self_eq_true, Bool.true_or]

/-- Lists with one list each are compared with a look at the numbers of the
inner lists. -/
theorem Acyclic.sameContents_singletons (hacyclic : h.Acyclic) {c d : ListId}
    (hc : h.contents c = [.list a]) (hd : h.contents d = [.list b]) :
    h.sameContents c d = (a == b || h.sameContents a b) := by
  rw [← hacyclic.sameContentsWithin_eq (Nat.le_succ (h.size + 1)), sameContentsWithin, hc, hd]
  simp only [List.length_singleton, beq_self_eq_true, List.isEqv, equalBy, Bool.and_true,
    Bool.true_and, hacyclic.sameContentsWithin_eq (Nat.le_refl _)]

/-- **In a heap without cycles, the plain comparison finds two values equal if and
only if the comparison that looks at the numbers of lists does and comes to no
list on both sides that holds a double unlike itself.**  In particular, two lists
are compared like the lists that hold just them, unless they are one list with
such a double among its elements. -/
theorem congruent_iff_equal (hacyclic : h.Acyclic) :
    (∀ v w, h.Congruent v w ↔
      h.equal v w = true ∧ ∀ id, h.Meets id v w → ¬ h.HoldsNaN (.list id)) ∧
    (∀ a b c d, h.contents c = [.list a] → h.contents d = [.list b] →
      (BinaryOp.equal.apply h (.list c) (.list d) = BinaryOp.equal.apply h (.list a) (.list b) ↔
        (a = b → ∀ x : Float, .double x ∈ h.contents a → (x == x) = true))) := by
  constructor
  · intro v w
    have hbound : h.size + 1 ≤ h.size * h.size + 1 := Nat.succ_le_succ (Nat.le_mul_self h.size)
    have hequal : h.equal v w = equalBy (h.sameContentsWithin (h.size + 1)) v w :=
      (hacyclic.nests v).equalBy_eq hbound w
    rw [hequal]
    constructor
    · exact fun hvw => ⟨hvw.equalBy_eq_true (hacyclic.nests v),
        fun _ hmeets => hvw.not_holdsNaN_of_meets hmeets⟩
    · exact fun ⟨heq, hshared⟩ => (hacyclic.nests v).congruent_of_equalBy heq hshared
  · intro a b c d hc hd
    have hlists : BinaryOp.equal.apply h (.list c) (.list d) =
        BinaryOp.equal.apply h (.list a) (.list b) ↔
        h.sameContents c d = h.sameContents a b := by
      simp [BinaryOp.apply, BinaryOp.onLists?]
    rw [hlists, hacyclic.sameContents_singletons hc hd]
    by_cases hab : a = b
    · subst hab
      simp only [beq_self_eq_true, Bool.true_or, forall_const, ← sameContents_self_iff]
      exact eq_comm
    · simp [hab]

/-- The lists `[NaN]` and `[1]`, and two lists around each of them. -/
def boxes : Heap :=
  ⟨#[[.double Double.notANumber], [.list 0], [.list 0], [.int 1], [.list 3], [.list 3]]⟩

/-- The boxes hold no cycle: the outer ones refer to the inner one only. -/
theorem acyclic_boxes : boxes.Acyclic := by
  apply Layered.acyclic
  intro id v hv
  have hid : id < 6 := lt_size_of_mem_contents hv
  interval_cases id <;> cases List.mem_singleton.mp hv <;> simp [Value.Within]

/-- The two lists around `[1]` are congruent; those around `[NaN]` are equal and not
congruent, and compared otherwise than `[NaN]` with itself. -/
theorem congruent_iff_equal_boxes :
    boxes.Acyclic ∧ boxes.Congruent (.list 4) (.list 5) ∧
      boxes.equal (.list 1) (.list 2) = true ∧ ¬ boxes.Congruent (.list 1) (.list 2) ∧
      BinaryOp.equal.apply boxes (.list 1) (.list 2) ≠
        BinaryOp.equal.apply boxes (.list 0) (.list 0) := by
  obtain ⟨hplain, hboxed⟩ := congruent_iff_equal acyclic_boxes
  have hnan : (Double.notANumber == Double.notANumber) = false := by decide
  refine ⟨acyclic_boxes, (hplain _ _).mpr ⟨by decide, fun id hmeets hholds => ?_⟩, by decide,
    fun hvw => ?_, fun hsame => ?_⟩
  · rcases hmeets with _ | ⟨hmem, hmeets⟩
    cases List.mem_singleton.mp hmem
    rcases hmeets with _ | ⟨hmem, hmeets⟩
    · rcases hholds with _ | ⟨hmem, hholds⟩
      cases List.mem_singleton.mp hmem
      cases hholds
    · cases List.mem_singleton.mp hmem
      cases hmeets
  · exact ((hplain _ _).mp hvw).2 0 (.inside List.mem_cons_self .here)
      (.inside List.mem_cons_self (.here hnan))
  · have heq := (hboxed 0 0 1 2 rfl rfl).mp hsame rfl _ List.mem_cons_self
    rw [hnan] at heq
    cases heq

/-- **Two equal values of a heap without cycles that the plain comparison tells
apart**, and a list that is compared with itself otherwise than in two lists
around it. -/
theorem equal_not_congruent_boxes :
    boxes.Acyclic ∧ boxes.equal (.list 1) (.list 2) = true ∧
      ¬ boxes.Congruent (.list 1) (.list 2) ∧
      boxes.sameContents 1 2 = true ∧ boxes.sameContents 0 0 = false := by
  refine ⟨acyclic_boxes, by decide, fun hvw => ?_, by decide, by decide⟩
  have hmeets : boxes.Meets 0 (.list 1) (.list 2) := .inside List.mem_cons_self .here
  exact hvw.not_holdsNaN_of_meets hmeets (.inside List.mem_cons_self (.here (by decide)))

end Heap

end Scriptlet
