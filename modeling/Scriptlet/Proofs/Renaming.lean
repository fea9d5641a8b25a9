import Scriptlet.Proofs.LikeRuns

/-!
# What things are called

Scripts that differ in nothing but the spelling of names do the same, as long as they tell
the same names apart.  Names ignore the case of letters, so a renaming may change that as it
likes, at each occurrence in another way; and it may rename for good what is not known
without a declaration.

A `Renaming` is given by the pairs of spellings that stand at the same place of two scripts.
It need not be a function: one name may be spelled in several ways on both sides.
-/

namespace Scriptlet

/-- The names that have a meaning without being declared: `...` and those of the built-in
functions. -/
def Name.reserved : List String :=
  Name.variadic :: Builtin.all.map fun f => f.signature.name

/-- Which spellings stand for each other in two scripts.  The scripts tell the same names
apart, and a name is reserved in one exactly if it is the same reserved name in the other. -/
structure Renaming where
  name : String → String → Prop
  fold_iff : ∀ {a a' b b' : String}, name a a' → name b b' →
    (Name.fold a = Name.fold b ↔ Name.fold a' = Name.fold b')
  reserved_iff : ∀ {a a' : String}, name a a' → ∀ r ∈ Name.reserved,
    (Name.fold a = r ↔ Name.fold a' = r)

namespace Renaming

variable (r : Renaming)

/-- Names correspond that stand for each other, and reserved names to themselves: a run comes
across the latter even where no script spells them. -/
def Corresponds (a b : String) : Prop :=
  r.name a b ∨ a = b ∧ a ∈ Name.reserved

/-- Reserved names are written in small letters. -/
theorem fold_reserved {a : String} (h : a ∈ Name.reserved) : Name.fold a = a := by
  have hall : ∀ a ∈ Name.reserved, Name.fold a = a := by decide
  exact hall a h

/-- Corresponding names are told apart on one side exactly if they are on the other. -/
theorem fold_iff_of_corresponds {a a' b b' : String} (ha : r.Corresponds a a')
    (hb : r.Corresponds b b') : Name.fold a = Name.fold b ↔ Name.fold a' = Name.fold b' := by
  rcases ha with ha | ⟨rfl, ha⟩
  · rcases hb with hb | ⟨rfl, hb⟩
    · exact r.fold_iff ha hb
    · rw [fold_reserved hb]
      exact r.reserved_iff ha b hb
  · rcases hb with hb | ⟨rfl, _⟩
    · rw [fold_reserved ha, eq_comm, r.reserved_iff hb a ha, eq_comm]
    · rfl

/-- The renaming as a correspondence of two runs without a host. -/
def toCorrespondence (limit : Nat) : Correspondence where
  name := r.Corresponds
  place := Eq
  key k k' := ∃ a b, r.Corresponds a b ∧ k = Name.fold a ∧ k' = Name.fold b
  host _ := False
  unknown := False
  limit := limit
  key_fold h := ⟨_, _, h, rfl, rfl⟩
  key_iff := by
    rintro _ _ _ _ ⟨a, a', ha, rfl, rfl⟩ ⟨b, b', hb, rfl, rfl⟩
    exact r.fold_iff_of_corresponds ha hb
  variadic := .inr ⟨rfl, .head _⟩
  builtin f := by
    refine .inr ⟨rfl, ?_⟩
    cases f <;> decide
  reflexive h := h.elim
  unknown_of_host h := h
  place_eq h := h.elim

/-- A new machine corresponds to itself under every renaming, since it knows no names. -/
theorem initial_corresponds (limit : Nat) :
    (Machine.initial limit).Corresponds (r.toCorrespondence limit) (Machine.initial limit) where
  scopes i := by
    cases i with
    | zero => exact .some (.empty _ none)
    | succ i => exact .none
  heap_eq := rfl
  depth_eq := rfl
  limit_eq := rfl
  limit_eq' := rfl
  output_eq := rfl

end Renaming

/-- Faults of the same kind at the same place, with names that correspond. -/
structure Fault.Renamed (r : Renaming) (limit : Nat) (f g : Fault) : Prop where
  cause : f.cause.Corresponds r.Corresponds limit g.cause
  position_eq : f.position = g.position

/-- **Names matter only up to renaming.**  Scripts that are the same but for a renaming, each
run on a new machine, end in the same way: with the same value, which means the same lists,
or with faults of the same kind at the same place that name corresponding names, or both
not within the fuel. -/
theorem Script.ends_alike_of_renamed (r : Renaming) {script script' : Script}
    (h : script.Alike ⟨r.Corresponds, Eq⟩ script') (fuel limit : Nat) :
    Run.Ends (fun m m' : Machine => m.heap = m'.heap ∧ m.output = m'.output)
      (Fault.Renamed r limit) Eq
      (Eval.execute fuel script (Machine.initial limit))
      (Eval.execute fuel script' (Machine.initial limit)) := by
  have hends := (Eval.alikeUpTo (r.toCorrespondence limit) fuel).execute h
    (r.initial_corresponds limit)
  exact hends.imp (fun hm => ⟨hm.heap_eq, hm.output_eq⟩)
    fun hfault => ⟨hfault.cause, hfault.position.eq id⟩

/-- `A` and `a` become `_`, and a built-in function is spelled in another way. -/
def Renaming.toUnderscore : Renaming where
  name a b := (a, b) ∈ [("a", "_"), ("A", "_"), ("TO_STRING", "to_String")]
  fold_iff := by
    intro a a' b b' ha hb
    have hall : ∀ p ∈ [("a", "_"), ("A", "_"), ("TO_STRING", "to_String")],
        ∀ q ∈ [("a", "_"), ("A", "_"), ("TO_STRING", "to_String")],
        (Name.fold p.1 = Name.fold q.1 ↔ Name.fold p.2 = Name.fold q.2) := by decide
    exact hall (a, a') ha (b, b') hb
  reserved_iff := by
    intro a a' ha
    have hall : ∀ p ∈ [("a", "_"), ("A", "_"), ("TO_STRING", "to_String")],
        ∀ r ∈ Name.reserved, (Name.fold p.1 = r ↔ Name.fold p.2 = r) := by decide
    exact hall (a, a') ha

/-- `var a = [1]; return TO_STRING(A);`, with other names in their places. -/
def Script.textOfList (declared called read : String) : Script :=
  ⟨"main",
    [.declare ⟨"main", 1, 5⟩ declared
      (some (.list ⟨"main", 1, 9⟩ [.literal ⟨"main", 1, 10⟩ (.int 1)])),
      .returns ⟨"main", 2, 1⟩ (some (.call ⟨"main", 2, 8⟩ called [.var ⟨"main", 2, 18⟩ read]))],
    []⟩

/-- The variable may have the name that the built-in function has for its parameter. -/
theorem Script.ends_alike_of_renamed_toUnderscore :
    (Eval.execute 20 (textOfList "a" "TO_STRING" "A") (Machine.initial 8)).1 =
      .done (some (.str "[1]")) ∧
    (Eval.execute 20 (textOfList "_" "to_String" "_") (Machine.initial 8)).1 =
      .done (some (.str "[1]")) := by
  have hdone : (Eval.execute 20 (textOfList "a" "TO_STRING" "A") (Machine.initial 8)).1 =
      .done (some (.str "[1]")) := by decide +kernel
  have hname : ∀ {a b}, (a, b) ∈ [("a", "_"), ("A", "_"), ("TO_STRING", "to_String")] →
      Renaming.toUnderscore.Corresponds a b := .inl
  have halike : (textOfList "a" "TO_STRING" "A").Alike ⟨Renaming.toUnderscore.Corresponds, Eq⟩
      (textOfList "_" "to_String" "_") := by
    refine ⟨rfl, .cons (.declare rfl (hname (by decide)) (.some ?_)) (.cons ?_ .nil), .nil⟩
    · exact .list rfl (.cons (.literal rfl _) .nil)
    · refine .returns rfl (.some (.call rfl (hname (by decide)) (.cons ?_ .nil)))
      exact .var rfl (hname (by decide))
  exact ⟨hdone, (ends_alike_of_renamed _ halike 20 8).done_eq hdone⟩

end Scriptlet
