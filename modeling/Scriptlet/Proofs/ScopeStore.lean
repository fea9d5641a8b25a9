import Mathlib.Data.List.Basic
import Mathlib.Data.List.Forall2
import Mathlib.Data.List.Nodup
import Mathlib.Tactic.IntervalCases
import Scriptlet.Proofs.Bindings

/-!
# The laws of reading and writing variables

Variables are found by a search from a scope outward, under names whose case is ignored.
Where parents stand before their children the way outward is finite (`Arena.exists_way`),
and the search goes along it to the first scope that declares the name
(`Arena.Way.findOutward_eq`).

An assignment and a declaration both put one variable into one scope and leave all else
alone (`Machine.Rebound`).  So another search finds the new variable if it comes to that
scope before it finds anything (`Machine.Reaches`), and otherwise it finds what it found
before.  The searches may begin anywhere, and their ways may have but a part in common.
-/

namespace Scriptlet

/-! ## Names that differ in case at most -/

namespace Name

/-- The first character is a letter from `A` to `Z`, and the second is its small form. -/
def Capital (c d : Char) : Prop :=
  'A'.toNat ≤ c.toNat ∧ c.toNat ≤ 'Z'.toNat ∧ d.toNat = c.toNat + 32

/-- The names are equal but for the case of letters from `A` to `Z`. -/
def Alike (x y : String) : Prop :=
  List.Forall₂ (fun c d => c = d ∨ Capital c d ∨ Capital d c) x.toList y.toList

/-- The small form of a character is 32 further on if it is a letter from `A` to `Z`, and is
the character itself otherwise. -/
theorem toNat_toLower (c : Char) :
    c.toLower.toNat =
      if 'A'.toNat ≤ c.toNat ∧ c.toNat ≤ 'Z'.toNat then c.toNat + 32 else c.toNat := by
  by_cases h : 'A'.toNat ≤ c.toNat ∧ c.toNat ≤ 'Z'.toNat
  · have hlower : c.toLower.val = c.val + 32 := congrArg Char.val (dif_pos h)
    have hle : c.val.toNat ≤ 90 := h.2
    rw [if_pos h]
    change c.toLower.val.toNat = c.val.toNat + 32
    rw [hlower, UInt32.toNat_add]
    exact Nat.mod_eq_of_lt (by change c.val.toNat + 32 < 4294967296; omega)
  · rw [if_neg h]
    exact congrArg Char.toNat (dif_neg h)

/-- Characters have one small form if and only if they are equal or the two forms of one
letter. -/
theorem toLower_eq_toLower_iff {c d : Char} :
    c.toLower = d.toLower ↔ c = d ∨ Capital c d ∨ Capital d c := by
  rw [← Char.toNat_inj, ← Char.toNat_inj, toNat_toLower, toNat_toLower]
  simp only [Capital, Char.reduceToNat]
  split <;> split <;> omega

/-- Tables keep two names under one key if they differ in case at most. -/
theorem fold_eq_fold_iff {x y : String} : fold x = fold y ↔ Alike x y := by
  rw [fold, fold, String.ofList_inj, ← List.forall₂_eq_eq_eq, List.forall₂_map_left_iff,
    List.forall₂_map_right_iff]
  simp only [toLower_eq_toLower_iff, Alike]

end Name

/-! ## The way outward -/

namespace Arena

/-- The way outward from a scope: the scope itself, its parent, and so on to a scope that has
no parent. -/
inductive Way (arena : Arena) : ScopeId → List ScopeId → Prop where
  | outermost {i : ScopeId} (h : arena[i]?.map Scope.parent = some none) : Way arena i [i]
  | outward {i j : ScopeId} {rest : List ScopeId} (h : arena.Parent i j)
      (hrest : Way arena j rest) : Way arena i (i :: rest)

variable {arena : Arena} {s : ScopeId} {way : List ScopeId}

/-- **Where parents stand before their children, every way outward ends.** -/
theorem exists_way (hdown : arena.Downward) (hs : s < arena.size) : ∃ way, arena.Way s way := by
  induction s using Nat.strongRecOn with
  | ind s ih =>
      have hget : arena[s]?.map Scope.parent = some arena[s].parent := by
        rw [Array.getElem?_eq_getElem hs]
        rfl
      cases hparent : arena[s].parent with
      | none =>
          rw [hparent] at hget
          exact ⟨[s], .outermost hget⟩
      | some j =>
          rw [hparent] at hget
          have hlt : j < s := hdown hget
          obtain ⟨rest, hrest⟩ := ih j hlt (Nat.lt_trans hlt hs)
          exact ⟨s :: rest, .outward hget hrest⟩

namespace Way

/-- A scope with a way outward is there. -/
theorem lt_size (h : arena.Way s way) : s < arena.size := by
  cases h with
  | outermost h =>
      obtain ⟨a, ha, _⟩ := Option.map_eq_some_iff.mp h
      exact (Array.getElem?_eq_some_iff.mp ha).1
  | outward h _ => exact h.lt_size

/-- The way outward leads to earlier scopes. -/
theorem le_of_mem (hdown : arena.Downward) (h : arena.Way s way) {i : ScopeId} (hi : i ∈ way) :
    i ≤ s := by
  induction h with
  | outermost h => exact Nat.le_of_eq (List.mem_singleton.mp hi)
  | outward h _ ih =>
      rcases List.mem_cons.mp hi with rfl | hi
      · exact Nat.le_refl _
      · exact Nat.le_trans (ih hi) (Nat.le_of_lt (hdown h))

/-- No scope is passed twice. -/
theorem nodup (hdown : arena.Downward) (h : arena.Way s way) : way.Nodup := by
  induction h with
  | outermost h => exact List.nodup_singleton _
  | outward h hrest ih =>
      refine List.nodup_cons.mpr ⟨fun hi => ?_, ih⟩
      exact absurd (hrest.le_of_mem hdown hi) (Nat.not_le.mpr (hdown h))

/-- The way outward is no longer than the number of its first scope allows. -/
theorem length_le (hdown : arena.Downward) (h : arena.Way s way) : way.length ≤ s + 1 := by
  induction h with
  | outermost h => exact Nat.le_add_left 1 _
  | outward h _ ih => exact Nat.succ_le_succ (Nat.le_trans ih (hdown h))

/-- A scope has one way outward. -/
theorem unique (h : arena.Way s way) {other : List ScopeId} (hother : arena.Way s other) :
    other = way := by
  induction h generalizing other with
  | outermost h =>
      cases hother with
      | outermost _ => rfl
      | outward h' _ => cases h.symm.trans h'
  | outward h _ ih =>
      cases hother with
      | outermost h' => cases h.symm.trans h'
      | outward h' hrest' =>
          cases h.symm.trans h'
          rw [ih hrest']

/-- The way depends on nothing but the parents. -/
theorem congr {arena' : Arena}
    (hparents : ∀ i : ScopeId, arena'[i]?.map Scope.parent = arena[i]?.map Scope.parent)
    (h : arena.Way s way) : arena'.Way s way := by
  induction h with
  | outermost h => exact .outermost ((hparents _).trans h)
  | outward h _ ih => exact .outward ((hparents _).trans h) ih

/-- **The search goes along the way outward.**  A bound on its steps that is not below the
length of the way plays no part. -/
theorem findOutward_eq {α : Type} (h : arena.Way s way) (pick : ScopeId → Scope → Option α)
    {steps : Nat} (hsteps : way.length ≤ steps) :
    arena.findOutward pick steps s = way.findSome? fun i => arena[i]?.bind (pick i) := by
  induction h generalizing steps with
  | @outermost i h =>
      obtain ⟨steps, rfl⟩ := Nat.exists_eq_succ_of_ne_zero (Nat.ne_zero_of_lt hsteps)
      obtain ⟨scope, hscope, hparent⟩ := Option.map_eq_some_iff.mp h
      cases hpick : pick i scope <;> simp [findOutward, hscope, hpick, hparent]
  | @outward i j rest h _ ih =>
      obtain ⟨steps, rfl⟩ := Nat.exists_eq_succ_of_ne_zero (Nat.ne_zero_of_lt hsteps)
      obtain ⟨scope, hscope, hparent⟩ := Option.map_eq_some_iff.mp h
      have hrest := ih (Nat.le_of_succ_le_succ hsteps)
      cases hpick : pick i scope <;> simp [findOutward, hscope, hpick, hparent, hrest]

end Way

end Arena

/-! ## What a search finds -/

namespace Machine

/-- The search for a folded name from the scope `t` comes to the scope `q`: that is on the way
outward, and no scope nearer to `t` declares the name. -/
def Reaches (m : Machine) (t : ScopeId) (key : String) (q : ScopeId) : Prop :=
  ∃ nearer further, m.scopes.Way t (nearer ++ q :: further) ∧ ∀ i ∈ nearer, ¬ m.Declares i key

/-- Of the scopes on the way outward from `t` that declare a folded name, `q` is the nearest. -/
def Nearest (m : Machine) (t : ScopeId) (key : String) (q : ScopeId) : Prop :=
  m.Reaches t key q ∧ m.Declares q key

/-- What reading a variable gives. -/
def reading (m : Machine) (scope : ScopeId) (name : String) (position : Option Position) :
    Outcome Fault Value :=
  ((Step.readVariable scope name position).perform m).1

/-- How the second machine reads variables: in the scopes that `sees` holds of, names that
differ from `x` in case at most mean a variable with this content, and all else is read as from
the first machine. -/
def ReadsAnew (m m' : Machine) (x : String) (sees : ScopeId → Prop) (content : Option Value) :
    Prop :=
  ∀ t y position,
    (Name.Alike y x ∧ sees t → m'.reading t y position =
      content.elim (.failed ⟨.variableNotInitialized y, position⟩) .done) ∧
    (¬ (Name.Alike y x ∧ sees t) → m'.reading t y position = m.reading t y position)

variable {m m' : Machine} {s t q : ScopeId} {key name : String} {way : List ScopeId}

/-- A scope declares a name if and only if it has a variable for it. -/
theorem declares_iff : m.Declares q key ↔ (m.variableAt q key).isSome := by
  cases h : m.scopes[q]? <;> simp [Declares, variableAt, h]

/-- A scope does not declare a name if and only if it has no variable for it. -/
theorem not_declares_iff : ¬ m.Declares q key ↔ m.variableAt q key = none := by
  rw [declares_iff, Option.not_isSome_iff_eq_none]

/-- A search finds the first variable on the way outward. -/
theorem findVariable?_eq (hdown : m.scopes.Downward) (h : m.scopes.Way s way) (name : String) :
    m.scopes.findVariable? s name = way.findSome? fun i => m.variableAt i (Name.fold name) :=
  h.findOutward_eq _ (h.length_le hdown)

/-- A search finds the first scope on the way outward that declares the name. -/
theorem owner?_eq (hdown : m.scopes.Downward) (h : m.scopes.Way s way) (name : String) :
    m.scopes.owner? s name =
      way.findSome? fun i => (m.variableAt i (Name.fold name)).map fun _ => i := by
  have hpick : ∀ i, (m.scopes[i]?.bind fun a =>
      if (a.getVariable? (Name.fold name)).isSome then some i else none) =
        (m.variableAt i (Name.fold name)).map fun _ => i := by
    intro i
    unfold variableAt
    cases m.scopes[i]? with
    | none => rfl
    | some a => cases h : a.getVariable? (Name.fold name) <;> simp [h]
  rw [Arena.owner?, h.findOutward_eq _ (h.length_le hdown)]
  simp only [hpick]

/-- **The search for a variable ends at the nearest scope that declares it.** -/
theorem owner?_eq_some_iff (hdown : m.scopes.Downward) (hs : s < m.scopes.size) :
    m.scopes.owner? s name = some q ↔ m.Nearest s (Name.fold name) q := by
  obtain ⟨way, hway⟩ := Arena.exists_way hdown hs
  rw [owner?_eq hdown hway, List.findSome?_eq_some_iff]
  constructor
  · rintro ⟨nearer, i, further, rfl, hfound, hnearer⟩
    obtain ⟨v, hv, rfl⟩ := Option.map_eq_some_iff.mp hfound
    refine ⟨⟨nearer, further, hway, fun j hj => ?_⟩, declares_iff.mpr (by rw [hv]; rfl)⟩
    exact not_declares_iff.mpr (Option.map_eq_none_iff.mp (hnearer j hj))
  · rintro ⟨⟨nearer, further, hway', hnearer⟩, hdeclares⟩
    obtain ⟨v, hv⟩ := Option.isSome_iff_exists.mp (declares_iff.mp hdeclares)
    refine ⟨nearer, q, further, hway'.unique hway, by rw [hv]; rfl, fun j hj => ?_⟩
    exact Option.map_eq_none_iff.mpr (not_declares_iff.mp (hnearer j hj))

/-- A variable is found if and only if some scope is found to declare it. -/
theorem findVariable?_eq_none_iff (hdown : m.scopes.Downward) (hs : s < m.scopes.size) :
    m.scopes.findVariable? s name = none ↔ m.scopes.owner? s name = none := by
  obtain ⟨way, hway⟩ := Arena.exists_way hdown hs
  rw [findVariable?_eq hdown hway, owner?_eq hdown hway, List.findSome?_eq_none_iff,
    List.findSome?_eq_none_iff]
  simp only [Option.map_eq_none_iff]

/-! ## Readings -/

variable {position : Option Position}

/-- A reading is a matter of the variable that is found. -/
theorem reading_congr (hsize : m'.scopes.size = m.scopes.size)
    (hfind : m'.scopes.findVariable? s name = m.scopes.findVariable? s name) :
    m'.reading s name position = m.reading s name position := by
  simp only [reading, Step.perform, Step.inArena, hsize, hfind]
  split
  · split <;> rfl
  · rfl

/-- Reading a variable that is found gives its value, or fails if it has none. -/
theorem reading_of_findVariable? (hs : s < m.scopes.size) {v : Variable}
    (hfind : m.scopes.findVariable? s name = some v) :
    m.reading s name position =
      v.value.elim (.failed ⟨.variableNotInitialized name, position⟩) .done := by
  obtain ⟨spelling, _ | value⟩ := v <;> simp [reading, Step.perform, Step.inArena, hs, hfind]

/-- A reading says that there is no such variable just where none is found. -/
theorem exists_reading_eq_notDefined_iff (hs : s < m.scopes.size) :
    (∃ unknown place, m.reading s name position = .failed ⟨.variableNotDefined unknown, place⟩) ↔
      m.scopes.findVariable? s name = none := by
  cases hfind : m.scopes.findVariable? s name with
  | none => simp [reading, Step.perform, Step.inArena, hs, hfind]
  | some v =>
      rw [reading_of_findVariable? hs hfind]
      cases v.value <;> simp

end Machine

/-! ## One variable more, or one with another value -/

/-- The second machine has the same scopes as the first, with one variable put in: it is new,
or it takes the place of one with the same folded name. -/
structure Machine.Rebound (q : ScopeId) (key : String) (v : Variable) (m m' : Machine) : Prop where
  frame_eq : m'.frame = m.frame
  bound : m'.variableAt q key = some v
  others : ∀ {i k}, i ≠ q ∨ k ≠ key → m'.variableAt i k = m.variableAt i k

namespace Machine

variable {m : Machine} {s q : ScopeId} {key name : String}

/-- A change of one scope that leaves its parent and its other variables alone puts a variable
in. -/
theorem rebound_modify {f : Scope → Scope} {a : Scope} {v : Variable}
    (ha : m.scopes[q]? = some a) (hparent : ∀ b, (f b).parent = b.parent)
    (hbound : (f a).getVariable? key = some v)
    (hothers : ∀ b {k}, k ≠ key → (f b).getVariable? k = b.getVariable? k) :
    Rebound q key v m { m with scopes := m.scopes.modify q f } where
  frame_eq := frame_with_scopes (Arena.parents_modify m.scopes q hparent)
  bound := by
    simp only [variableAt, Array.getElem?_modify, if_true, ha, Option.map_some, Option.bind_some,
      hbound]
  others := by
    intro i k hne
    simp only [variableAt, Array.getElem?_modify]
    split
    next hi =>
      have hk : k ≠ key := hne.resolve_left fun h => h hi.symm
      cases m.scopes[i]? with
      | none => rfl
      | some b => exact hothers b hk
    next => rfl

/-- An assignment puts in the variable with its new value. -/
theorem rebound_fill {old : Variable} (hold : m.variableAt q (Name.fold name) = some old)
    (value : Value) :
    Rebound q (Name.fold name) { old with value := some value } m (m.fill q name value) := by
  obtain ⟨a, ha, hget⟩ := Option.bind_eq_some_iff.mp hold
  refine rebound_modify ha (fun _ => rfl) ?_ fun b k hk => ?_
  · rw [Scope.getVariable?_setVariable, if_pos rfl, hget]
    rfl
  · rw [Scope.getVariable?_setVariable, if_neg hk]

/-- A declaration puts in the variable that it declares. -/
theorem rebound_declare (hs : s < m.scopes.size) (name : String) (initial : Option Value) :
    Rebound s (Name.fold name) ⟨name, initial⟩ m (m.declare s name initial) :=
  rebound_modify (Array.getElem?_eq_getElem hs) (fun _ => rfl)
    (Scope.getVariable?_addVariable_self _ _ _) fun b _ hk =>
      Scope.getVariable?_addVariable_of_ne b _ hk

end Machine

namespace Machine.Rebound

variable {m m' : Machine} {t q : ScopeId} {key y : String} {v : Variable}
  {position : Option Position}

/-- The way outward stays what it was. -/
theorem way (h : Rebound q key v m m') {way : List ScopeId} (hway : m.scopes.Way t way) :
    m'.scopes.Way t way :=
  hway.congr (parent_eq_of_frame_eq h.frame_eq)

/-- Parents stay before their children. -/
theorem downward (h : Rebound q key v m m') (hdown : m.scopes.Downward) :
    m'.scopes.Downward := by
  intro i j hij
  exact hdown ((parent_eq_of_frame_eq h.frame_eq i).symm.trans hij)

/-- A list of scopes without that of the variable gives what it gave. -/
theorem findSome?_eq (h : Rebound q key v m m') {ids : List ScopeId} {k : String}
    (hne : k ≠ key ∨ q ∉ ids) :
    (ids.findSome? fun i => m'.variableAt i k) = ids.findSome? fun i => m.variableAt i k := by
  rw [← List.head?_filterMap, ← List.head?_filterMap]
  congr 1
  apply List.filterMap_congr
  intro i hi
  apply h.others
  rcases hne with hk | hq
  · exact .inr hk
  · exact .inl (by rintro rfl; exact hq hi)

/-- **A search that comes to the scope of the variable finds it.** -/
theorem findVariable?_of_reaches (h : Rebound q key v m m') (hdown : m.scopes.Downward)
    (hy : Name.fold y = key) (hreaches : m.Reaches t key q) :
    m'.scopes.findVariable? t y = some v := by
  obtain ⟨nearer, further, hway, hnearer⟩ := hreaches
  have hq : q ∉ nearer := by
    intro hmem
    have hnodup := hway.nodup hdown
    exact (List.nodup_append.mp hnodup).2.2 q hmem q List.mem_cons_self rfl
  have hnone : (nearer.findSome? fun i => m.variableAt i key) = none :=
    List.findSome?_eq_none_iff.mpr fun i hi => not_declares_iff.mp (hnearer i hi)
  rw [findVariable?_eq (h.downward hdown) (h.way hway), hy, List.findSome?_append,
    h.findSome?_eq (.inr hq), hnone, Option.none_or, List.findSome?_cons, h.bound]

/-- **Any other search finds what it found before.** -/
theorem findVariable?_of_not_reaches (h : Rebound q key v m m') (hdown : m.scopes.Downward)
    (ht : t < m.scopes.size) (hnot : ¬ (Name.fold y = key ∧ m.Reaches t key q)) :
    m'.scopes.findVariable? t y = m.scopes.findVariable? t y := by
  obtain ⟨way, hway⟩ := Arena.exists_way hdown ht
  rw [findVariable?_eq (h.downward hdown) (h.way hway), findVariable?_eq hdown hway]
  by_cases hy : Name.fold y = key
  · by_cases hq : q ∈ way
    · -- the way passes the scope, so the search has ended before
      obtain ⟨nearer, further, rfl, hfirst⟩ := List.eq_append_cons_of_mem hq
      have hfound : (nearer.findSome? fun i => m.variableAt i key) ≠ none := by
        intro hnone
        refine hnot ⟨hy, nearer, further, hway, fun i hi => ?_⟩
        exact not_declares_iff.mpr (List.findSome?_eq_none_iff.mp hnone i hi)
      obtain ⟨w, hw⟩ := Option.ne_none_iff_exists'.mp hfound
      rw [hy, List.findSome?_append, List.findSome?_append, h.findSome?_eq (.inr hfirst), hw,
        Option.some_or, Option.some_or]
    · exact h.findSome?_eq (.inr hq)
  · exact h.findSome?_eq (.inl hy)

/-- **The new variable is read wherever the search comes to its scope, and all else is read as
before.** -/
theorem readsAnew {x : String} (h : Rebound q (Name.fold x) v m m') (hdown : m.scopes.Downward) :
    m.ReadsAnew m' x (m.Reaches · (Name.fold x) q) v.value := by
  have hsize := size_eq_of_frame_eq h.frame_eq
  intro t y position
  rw [← Name.fold_eq_fold_iff]
  constructor
  · rintro ⟨hy, hreaches⟩
    have ht : t < m.scopes.size := by
      obtain ⟨nearer, further, hway, _⟩ := hreaches
      exact hway.lt_size
    exact reading_of_findVariable? (hsize ▸ ht) (h.findVariable?_of_reaches hdown hy hreaches)
  · intro hnot
    by_cases ht : t < m.scopes.size
    · exact reading_congr hsize (h.findVariable?_of_not_reaches hdown ht hnot)
    · simp only [reading, Step.perform, Step.inArena, hsize, if_neg ht]

end Machine.Rebound

/-- An assignment gives the variable of the nearest scope a value, and fails where there is no
such scope.  To fill a declared variable is the same. -/
theorem Step.perform_assignment {m : Machine} {s : ScopeId} {x : String} {v : Value}
    {p : Option Position} {write : Step Unit}
    (hwrite : write ∈ [Step.assignVariable s x v p, Step.fillVariable s x v p])
    (hs : s < m.scopes.size) :
    write.perform m =
      (m.scopes.owner? s x).elim (.failed ⟨.variableNotDefined x, p⟩, m)
        fun q => (.done (), m.fill q x v) := by
  rcases List.mem_pair.mp hwrite with rfl | rfl <;>
    cases howner : m.scopes.owner? s x <;>
      simp [perform, inArena, hs, Arena.assign?, howner, Machine.fill]

namespace Machine

/-- **The laws of the variables in scopes.**  Where parents stand before their children, the
search outward ends.  An assignment succeeds if reading the variable does not say that there is
none.  After it, a name that differs in case at most has the new value wherever the search for
it ends at the same scope, and any other reading gives what it gave.  A declaration succeeds if
the scope does not declare the name itself.  After it, the new variable is read wherever the
search comes to its scope, and any other reading gives what it gave.  What fails changes
nothing. -/
theorem scope_store_laws {m : Machine} (hdown : m.scopes.Downward) :
    (∀ s < m.scopes.size, ∃ way, m.scopes.Way s way ∧
      (∀ {α : Type} (pick : ScopeId → Scope → Option α) (steps : Nat), s < steps →
        m.scopes.findOutward pick steps s = way.findSome? fun i => m.scopes[i]?.bind (pick i)) ∧
      ∀ x q, m.scopes.owner? s x = some q ↔ m.Nearest s (Name.fold x) q) ∧
    (∀ s < m.scopes.size, ∀ x v p,
      ∀ write ∈ [Step.assignVariable s x v p, Step.fillVariable s x v p],
      ∀ outcome m', write.perform m = (outcome, m') →
        (∀ p', outcome = .done () ↔
          ¬ ∃ unknown place, m.reading s x p' = .failed ⟨.variableNotDefined unknown, place⟩) ∧
        (outcome = .done () → ∃ q, m.Nearest s (Name.fold x) q ∧
          m.ReadsAnew m' x (m.Nearest · (Name.fold x) q) (some v)) ∧
        (outcome ≠ .done () → m' = m)) ∧
    (∀ s < m.scopes.size, ∀ n initial p outcome m',
      (Step.declareVariable s n initial p).perform m = (outcome, m') →
        (outcome = .done () ↔ ¬ m.Declares s (Name.fold n)) ∧
        (outcome = .done () → m.ReadsAnew m' n (m.Reaches · (Name.fold n) s) initial) ∧
        (outcome ≠ .done () → m' = m)) := by
  refine ⟨?_, ?_, ?_⟩
  · intro s hs
    obtain ⟨way, hway⟩ := Arena.exists_way hdown hs
    refine ⟨way, hway, fun pick steps hsteps => ?_, fun x q => owner?_eq_some_iff hdown hs⟩
    exact hway.findOutward_eq pick (Nat.le_trans (hway.length_le hdown) hsteps)
  · intro s hs x v p write hwrite outcome m' hperform
    rw [Step.perform_assignment hwrite hs] at hperform
    simp only [exists_reading_eq_notDefined_iff hs, findVariable?_eq_none_iff hdown hs]
    cases howner : m.scopes.owner? s x with
    | none =>
        rw [howner] at hperform
        cases hperform
        simp
    | some q =>
        rw [howner] at hperform
        cases hperform
        have hnearest : m.Nearest s (Name.fold x) q := (owner?_eq_some_iff hdown hs).mp howner
        obtain ⟨old, hold⟩ := Option.isSome_iff_exists.mp (declares_iff.mp hnearest.2)
        have hsees : (m.Nearest · (Name.fold x) q) = (m.Reaches · (Name.fold x) q) :=
          funext fun t => propext (and_iff_left hnearest.2)
        refine ⟨by simp, fun _ => ⟨q, hnearest, ?_⟩, fun hfailed => absurd rfl hfailed⟩
        rw [hsees]
        exact (rebound_fill hold v).readsAnew hdown
  · intro s hs n initial p outcome m' hperform
    have hget : m.scopes[s]? = some m.scopes[s] := Array.getElem?_eq_getElem hs
    by_cases hdeclares : m.Declares s (Name.fold n)
    · have hold : (m.scopes[s].getVariable? (Name.fold n)).isSome := by
        simpa [Declares, hget] using hdeclares
      cases (Step.perform_declareVariable_of_old hget hold).symm.trans hperform
      simp [hdeclares]
    · have hnew : m.scopes[s].getVariable? (Name.fold n) = none := by
        simpa [Declares, hget] using hdeclares
      cases (Step.perform_declareVariable_of_new hget hnew).symm.trans hperform
      exact ⟨by simp [hdeclares], fun _ => (rebound_declare hs n initial).readsAnew hdown,
        fun hfailed => absurd rfl hfailed⟩

/-- A machine with two branches of scopes under that of the host.  The host has a variable `x`,
and on the way through the first branch a variable `X` without a value hides it. -/
def withBranches : Machine :=
  { initial 8 with
    scopes := #[⟨none, [("x", ⟨"x", some (.int 1)⟩)], []⟩,
      ⟨some 0, [("x", ⟨"X", none⟩)], []⟩, ⟨some 0, [("y", ⟨"y", none⟩)], []⟩,
      ⟨some 1, [], []⟩, ⟨some 1, [("z", ⟨"z", none⟩)], []⟩, ⟨some 2, [], []⟩] }

/-- An assignment inside the first branch is seen from all of it, and the second branch has the
`x` of the host.  A declaration in the second branch hides that one, from there only, and in
the first branch `x` cannot be declared again. -/
theorem scope_store_laws_withBranches :
    ((Step.assignVariable 3 "x" (.int 7) none).perform withBranches).2.reading 4 "X" none =
      .done (.int 7) ∧
    ((Step.assignVariable 3 "x" (.int 7) none).perform withBranches).2.reading 5 "X" none =
      .done (.int 1) ∧
    ((Step.declareVariable 2 "X" none none).perform withBranches).2.reading 5 "x" none =
      .failed ⟨.variableNotInitialized "x", none⟩ ∧
    ((Step.declareVariable 2 "X" none none).perform withBranches).2.reading 0 "x" none =
      .done (.int 1) ∧
    ((Step.declareVariable 1 "x" none none).perform withBranches).2 = withBranches := by
  have hdown : withBranches.scopes.Downward := by
    intro i j hij
    have hi : i < 6 := hij.lt_size
    interval_cases i <;> cases hij <;> decide
  have hlike : Name.Alike "X" "x" := Name.fold_eq_fold_iff.mp (by decide +kernel)
  have hlike' : Name.Alike "x" "X" := Name.fold_eq_fold_iff.mp (by decide +kernel)
  obtain ⟨hsearch, hassign, hdeclare⟩ := scope_store_laws hdown
  have howner : ∀ s < 6, ∀ q, withBranches.scopes.owner? s "x" = some q ↔
      withBranches.Nearest s (Name.fold "x") q := by
    intro s hs q
    obtain ⟨_, _, _, hiff⟩ := hsearch s hs
    exact hiff "x" q
  obtain ⟨_, hassigned, _⟩ := hassign 3 (by decide) "x" (.int 7) none _ List.mem_cons_self _ _ rfl
  obtain ⟨q, hq, hreads⟩ := hassigned (by decide +kernel)
  obtain rfl : q = 1 := by
    have hfound : withBranches.scopes.owner? 3 "x" = some 1 := by decide +kernel
    exact Option.some.inj (((howner 3 (by decide) q).mpr hq).symm.trans hfound)
  obtain ⟨_, hdeclared, _⟩ := hdeclare 2 (by decide) "X" none none _ _ rfl
  have hreads' := hdeclared (by decide +kernel)
  obtain ⟨_, _, hfailed⟩ := hdeclare 1 (by decide) "x" none none _ _ rfl
  refine ⟨?_, ?_, ?_, ?_, hfailed (by decide +kernel)⟩
  · exact (hreads 4 "X" none).1 ⟨hlike, (howner 4 (by decide) 1).mp (by decide +kernel)⟩
  · refine ((hreads 5 "X" none).2 fun hseen => ?_).trans (by decide +kernel)
    have hhost : withBranches.scopes.owner? 5 "x" = some 0 := by decide +kernel
    cases hhost.symm.trans ((howner 5 (by decide) 1).mpr hseen.2)
  · have hway : withBranches.scopes.Way 5 ([5] ++ 2 :: [0]) :=
      .outward rfl (.outward rfl (.outermost rfl))
    refine (hreads' 5 "x" none).1 ⟨hlike', [5], [0], hway, fun i hi => ?_⟩
    cases List.mem_singleton.mp hi
    exact not_declares_iff.mpr rfl
  · refine ((hreads' 0 "x" none).2 fun hseen => ?_).trans (by decide +kernel)
    obtain ⟨nearer, further, hway, _⟩ := hseen.2
    have hle := hway.le_of_mem hdown (List.mem_append_right nearer List.mem_cons_self)
    exact absurd hle (by decide)

end Machine

end Scriptlet
