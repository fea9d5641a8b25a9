import Mathlib.Data.List.Forall2
import Mathlib.Data.List.Perm.Subperm
import Scriptlet.Value.Heap

/-!
# What a value stands for

A value of truth values, integers and lists stands for a finite tree, its
**datum**, if the descent into its lists comes to an end.  The lists may share
elements and may be nested in any way; the heap is not asked to be layered, as
long as no list on the way down contains itself (`Heap.Unfolds`).

No list comes twice on one way down, so data are nested no deeper than the heap
is large (`Heap.Unfolds.within_size`).  Therefore the bounds that rendering and
comparing keep to are never reached: the text of a value is that of its datum
(`Heap.Unfolds.render_eq`), and values of one datum are equal
(`Heap.Unfolds.equal_eq_true`).
-/

namespace Scriptlet

/-! ## Lists that go together element by element -/

/-- What holds of an element and its partner may be replaced by what follows from it
for this partner. -/
theorem forall₂_imp_of_mem {α β : Type} {R S : α → β → Prop} {as : List α} {bs : List β}
    (h : List.Forall₂ R as bs) (himp : ∀ b ∈ bs, ∀ a, R a b → S a b) : List.Forall₂ S as bs := by
  induction h with
  | nil => exact .nil
  | cons hhead _ ih =>
      obtain ⟨hfirst, hrest⟩ := List.forall_mem_cons.mp himp
      exact .cons (hfirst _ hhead) (ih hrest)

/-- Every partner has an element. -/
theorem exists_of_mem_of_forall₂ {α β : Type} {R : α → β → Prop} {as : List α} {bs : List β}
    (h : List.Forall₂ R as bs) {b : β} (hb : b ∈ bs) : ∃ a, R a b := by
  induction h with
  | nil => cases hb
  | cons hhead _ ih =>
      rcases List.mem_cons.mp hb with rfl | hmem
      · exact ⟨_, hhead⟩
      · exact ih hmem

/-- Partners that are determined by the elements make up one list only. -/
theorem eq_of_forall₂_unique {α β : Type} {R : α → β → Prop} {as : List α} {bs bs' : List β}
    (h : List.Forall₂ (fun a b => ∀ b', R a b' → b = b') as bs) (h' : List.Forall₂ R as bs') :
    bs = bs' := by
  induction h generalizing bs' with
  | nil =>
      cases h'
      rfl
  | cons hhead _ ih =>
      cases h' with
      | cons hhead' htail' => rw [hhead _ hhead', ih htail']

/-- Lists with the same partners are compared element by element. -/
theorem isEqv_of_forall₂ {α β : Type} {R : α → β → Prop} {p : α → α → Bool} {as as' : List α}
    {bs : List β} (h : List.Forall₂ R as bs) (h' : List.Forall₂ R as' bs)
    (hp : ∀ b ∈ bs, ∀ a a', R a b → R a' b → p a a' = true) : as.isEqv as' p = true := by
  induction h generalizing as' with
  | nil =>
      cases h'
      rfl
  | cons hhead _ ih =>
      obtain ⟨hfirst, hrest⟩ := List.forall_mem_cons.mp hp
      cases h' with
      | cons hhead' htail' =>
          rw [List.isEqv, hfirst _ _ hhead hhead', ih htail' hrest]
          rfl

/-! ## Data -/

/-- A tree of truth values, integers and lists. -/
inductive Datum where
  | bool (value : Bool)
  | int (value : Int32)
  | list (items : List Datum)

namespace Datum

/-- An element is smaller than its list. -/
theorem sizeOf_lt_of_mem {d : Datum} {items : List Datum} (h : d ∈ items) :
    sizeOf d < sizeOf (Datum.list items) := by
  have hlt := List.sizeOf_lt_of_mem h
  rw [list.sizeOf_spec]
  omega

/-- To show something of every datum, show it of a list whose elements have it. -/
@[elab_as_elim, induction_eliminator]
theorem induction {motive : Datum → Prop} (bool : ∀ b, motive (.bool b))
    (int : ∀ n, motive (.int n))
    (list : ∀ items, (∀ d ∈ items, motive d) → motive (.list items)) (d : Datum) : motive d :=
  match d with
  | .bool b => bool b
  | .int n => int n
  | .list items => list items fun d _ => induction bool int list d
  termination_by sizeOf d
  decreasing_by exact sizeOf_lt_of_mem ‹_›

/-- The integer stands somewhere in the datum. -/
inductive Mentions (n : Int32) : Datum → Prop where
  | here : Mentions n (.int n)
  | inside {d : Datum} {items : List Datum} (hd : d ∈ items) (h : Mentions n d) :
      Mentions n (.list items)

/-- No integer stands in a truth value. -/
@[simp]
theorem not_mentions_bool {n : Int32} {b : Bool} : ¬ Mentions n (.bool b) := nofun

/-- In an integer only that integer itself stands. -/
@[simp]
theorem mentions_int_iff {n k : Int32} : Mentions n (.int k) ↔ k = n := by
  constructor
  · intro h
    cases h
    rfl
  · rintro rfl
    exact .here

/-- In a list stands what stands in one of its elements. -/
@[simp]
theorem mentions_list_iff {n : Int32} {items : List Datum} :
    Mentions n (.list items) ↔ ∃ d ∈ items, Mentions n d := by
  constructor
  · intro h
    cases h with
    | inside hd h => exact ⟨_, hd, h⟩
  · rintro ⟨d, hd, h⟩
    exact .inside hd h

/-- Lists are nested at most `depth` deep. -/
inductive Within : (depth : Nat) → Datum → Prop where
  | bool {depth : Nat} (b : Bool) : Within depth (.bool b)
  | int {depth : Nat} (n : Int32) : Within depth (.int n)
  | list {depth : Nat} {items : List Datum} (h : ∀ d ∈ items, Within depth d) :
      Within (depth + 1) (.list items)

/-- What is nested at most so deep is nested at most deeper. -/
theorem Within.mono {d : Datum} {depth depth' : Nat} (h : d.Within depth)
    (hle : depth ≤ depth') : d.Within depth' := by
  induction h generalizing depth' with
  | bool b => exact .bool b
  | int n => exact .int n
  | list _ ih =>
      obtain ⟨k, rfl⟩ : ∃ k, depth' = k + 1 := ⟨depth' - 1, by omega⟩
      exact .list fun d hd => ih d hd (Nat.le_of_succ_le_succ hle)

mutual

/-- A datum as it is written. -/
def text : Datum → String
  | .bool b => Lexeme.booleanText b
  | .int n => n.toInt.repr
  | .list items => "[" ++ ",".intercalate (texts items) ++ "]"

/-- Data as they are written, each for itself. -/
def texts : List Datum → List String
  | [] => []
  | d :: ds => d.text :: texts ds

end

/-- Data are written each for itself. -/
theorem texts_eq_map (ds : List Datum) : texts ds = ds.map text := by
  induction ds with
  | nil => rfl
  | cons d ds ih => rw [texts, ih, List.map_cons]

end Datum

namespace Heap

/-- The value stands for the datum. -/
inductive Unfolds (h : Heap) : Value → Datum → Prop where
  | bool (b : Bool) : Unfolds h (.bool b) (.bool b)
  | int (n : Int32) : Unfolds h (.int n) (.int n)
  | list {id : ListId} {items : List Datum} (hid : id < h.size)
      (hitems : List.Forall₂ (Unfolds h) (h.contents id) items) :
      Unfolds h (.list id) (.list items)

/-- All lists of the first heap are in the second, and are the same there. -/
structure Extends (h h' : Heap) : Prop where
  size_le : h.size ≤ h'.size
  contents_eq : ∀ id < h.size, h'.contents id = h.contents id

namespace Extends

variable {h h' h'' : Heap}

/-- A heap extends itself. -/
theorem refl (h : Heap) : h.Extends h :=
  ⟨Nat.le_refl _, fun _ _ => rfl⟩

/-- What extends an extension extends the first heap. -/
theorem trans (hfirst : h.Extends h') (hsecond : h'.Extends h'') : h.Extends h'' := by
  refine ⟨Nat.le_trans hfirst.size_le hsecond.size_le, fun id hid => ?_⟩
  rw [hsecond.contents_eq id (Nat.lt_of_lt_of_le hid hfirst.size_le), hfirst.contents_eq id hid]

/-- A new list extends a heap. -/
theorem alloc (h : Heap) (items : List Value) : h.Extends (h.alloc items).2 := by
  refine ⟨?_, fun id hid => contents_alloc_of_lt h items hid⟩
  rw [size_alloc]
  exact Nat.le_succ _

end Extends

/-- There are no more different lists than the heap is large. -/
theorem length_le_size {h : Heap} {ids : List ListId} (hnodup : ids.Nodup)
    (hids : ∀ id ∈ ids, id < h.size) : ids.length ≤ h.size := by
  have hrange : ids ⊆ List.range h.size := by
    intro id hid
    exact List.mem_range.mpr (hids id hid)
  have hlength := (hnodup.subperm hrange).length_le
  rw [List.length_range] at hlength
  exact hlength

/-! ## The datum of a value -/

namespace Unfolds

variable {h h' : Heap} {v w : Value} {d d' : Datum}

/-- New lists leave alone what a value stands for. -/
theorem mono (hv : h.Unfolds v d) (hextends : h.Extends h') : h'.Unfolds v d := by
  induction d generalizing v with
  | bool b =>
      cases hv
      exact .bool b
  | int n =>
      cases hv
      exact .int n
  | list items ih =>
      cases hv with
      | list hid hitems =>
          refine .list (Nat.lt_of_lt_of_le hid hextends.size_le) ?_
          rw [hextends.contents_eq _ hid]
          exact forall₂_imp_of_mem hitems fun d hd _ => ih d hd

/-- A new list stands for what its elements do. -/
theorem alloc {items : List Value} {ds : List Datum} (hitems : List.Forall₂ h.Unfolds items ds) :
    (h.alloc items).2.Unfolds (.list (h.alloc items).1) (.list ds) := by
  have hid : (h.alloc items).1 < (h.alloc items).2.size := by
    rw [size_alloc]
    exact Nat.lt_succ_self _
  refine .list hid ?_
  rw [contents_alloc_new]
  exact hitems.imp fun _ _ hv => hv.mono (Extends.alloc h items)

/-- A value stands for one datum only. -/
theorem unique (hv : h.Unfolds v d) (hv' : h.Unfolds v d') : d = d' := by
  induction d generalizing v d' with
  | bool b =>
      cases hv
      cases hv'
      rfl
  | int n =>
      cases hv
      cases hv'
      rfl
  | list items ih =>
      cases hv with
      | list _ hitems =>
          cases hv' with
          | list _ hitems' =>
              have hunique : List.Forall₂ (fun v d => ∀ d', h.Unfolds v d' → d = d') _ items :=
                forall₂_imp_of_mem hitems fun d hd _ hv _ hv' => ih d hd hv hv'
              rw [eq_of_forall₂_unique hunique hitems']

/-- On the way down to a value, the lists above it have larger data.  So none of
them is the value, and their number bounds how deep the rest of the way can be. -/
theorem within_of_above (hv : h.Unfolds v d) {above : List ListId} (hnodup : above.Nodup)
    (habove : ∀ id ∈ above,
      id < h.size ∧ ∃ d', h.Unfolds (.list id) d' ∧ sizeOf d < sizeOf d') :
    d.Within (h.size - above.length) := by
  induction d generalizing v above with
  | bool b => exact .bool b
  | int n => exact .int n
  | list items ih =>
      cases hv with
      | @list id _ hid hitems =>
          have hnew : id ∉ above := by
            intro hmem
            obtain ⟨-, d', hd', hlt⟩ := habove id hmem
            rw [unique hd' (.list hid hitems)] at hlt
            exact Nat.lt_irrefl _ hlt
          have hnodup' : (id :: above).Nodup := List.nodup_cons.mpr ⟨hnew, hnodup⟩
          have hlength : above.length + 1 ≤ h.size := by
            refine length_le_size hnodup' (List.forall_mem_cons.mpr ⟨hid, ?_⟩)
            exact fun other hmem => (habove other hmem).1
          have hitem : ∀ d ∈ items, d.Within (h.size - (above.length + 1)) := by
            intro d hd
            obtain ⟨v, hv⟩ := exists_of_mem_of_forall₂ hitems hd
            have hsmaller := Datum.sizeOf_lt_of_mem hd
            refine ih d hd hv hnodup' (List.forall_mem_cons.mpr ⟨?_, fun other hmem => ?_⟩)
            · exact ⟨hid, _, .list hid hitems, hsmaller⟩
            · obtain ⟨hother, d', hd', hlt⟩ := habove other hmem
              exact ⟨hother, d', hd', Nat.lt_trans hsmaller hlt⟩
          have hdepth : h.size - above.length = h.size - (above.length + 1) + 1 := by omega
          rw [hdepth]
          exact .list hitem

/-- **A datum is nested no deeper than the heap is large.** -/
theorem within_size (hv : h.Unfolds v d) : d.Within h.size :=
  hv.within_of_above List.nodup_nil nofun

/-! ## Rendering and comparing -/

/-- A value is written as the datum that it stands for, if the depth suffices.  By induction
on the datum. -/
theorem renderWithin_eq (hv : h.Unfolds v d) {depth : Nat} (hdepth : d.Within depth) :
    h.renderWithin depth v = d.text := by
  induction d generalizing v depth with
  | bool b =>
      cases hv
      simp only [renderWithin, Datum.text]
  | int n =>
      cases hv
      simp only [renderWithin, Datum.text]
  | list items ih =>
      cases hv with
      | @list id _ _ hitems =>
          cases hdepth with
          | @list depth _ hdepth =>
              have htexts : List.Forall₂ (fun v d => h.renderWithin depth v = d.text)
                  (h.contents id) items :=
                forall₂_imp_of_mem hitems fun d hd _ hv => ih d hd hv (hdepth d hd)
              have hmap : (h.contents id).map (h.renderWithin depth) = Datum.texts items := by
                rw [Datum.texts_eq_map, ← List.forall₂_eq_eq_eq]
                exact List.forall₂_map_left_iff.mpr (List.forall₂_map_right_iff.mpr htexts)
              simp only [renderWithin, Datum.text, hmap]

/-- **The text of a value is that of its datum.** -/
theorem render_eq (hv : h.Unfolds v d) : h.render v = d.text :=
  hv.renderWithin_eq (hv.within_size.mono (Nat.le_succ _))

/-- Values that stand for one datum are equal, if the depth suffices.  By induction on the
datum. -/
theorem equalBy_eq_true (hv : h.Unfolds v d) (hw : h.Unfolds w d) {depth : Nat}
    (hdepth : d.Within depth) : equalBy (h.sameContentsWithin depth) v w = true := by
  induction d generalizing v w depth with
  | bool b =>
      cases hv
      cases hw
      exact beq_self_eq_true b
  | int n =>
      cases hv
      cases hw
      exact beq_self_eq_true n
  | list items ih =>
      cases hv with
      | list _ hitems =>
          cases hw with
          | list _ hitems' =>
              cases hdepth with
              | list hdepth =>
                  have hlength := hitems.length_eq.trans hitems'.length_eq.symm
                  have hitem := isEqv_of_forall₂ hitems hitems'
                    fun d hd _ _ hv hw => ih d hd hv hw (hdepth d hd)
                  simp only [equalBy, sameContentsWithin, hlength, hitem, beq_self_eq_true,
                    Bool.and_true, Bool.or_true]

/-- **Values of one datum are equal.** -/
theorem equal_eq_true (hv : h.Unfolds v d) (hw : h.Unfolds w d) : h.equal v w = true := by
  refine hv.equalBy_eq_true hw (hv.within_size.mono ?_)
  have hsquare : h.size ≤ h.size * h.size := Nat.le_mul_self h.size
  omega

end Unfolds

end Heap

end Scriptlet
