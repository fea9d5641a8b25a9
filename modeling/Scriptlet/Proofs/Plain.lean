import Scriptlet.Machine

/-!
# Plain code and layered heaps

Code is **plain** if it has neither `while` nor `for` and assigns to no element
of a list.  Plain code makes lists but never changes one, so a list holds only
lists that were made before it: the heap is **layered**.

In a layered heap no list contains itself, however deep one looks.  Rendering
and comparing, which go down into lists, therefore come to an end by themselves
(`Heap.Layered.finite`), and the bounds on their depth are never reached
(`Heap.Layered.renderWithin_eq`, `Heap.Layered.sameContentsWithin_eq`).
-/

namespace Scriptlet

/-! ## Plain code -/

mutual

/-- The expression assigns to no element of a list. -/
def Expr.Plain : Expr → Prop
  | .literal _ _ => True
  | .var _ _ => True
  | .element _ _ index => index.Plain
  | .unary _ _ operand => operand.Plain
  | .binary _ _ _ left right => left.Plain ∧ right.Plain
  | .assign _ _ _ value => value.Plain
  | .assignElement _ _ _ _ _ => False
  | .conditional _ condition thenBranch elseBranch =>
    condition.Plain ∧ thenBranch.Plain ∧ elseBranch.Plain
  | .list _ elements => Expr.AllPlain elements
  | .call _ _ arguments => Expr.AllPlain arguments

/-- All expressions are plain. -/
def Expr.AllPlain : List Expr → Prop
  | [] => True
  | e :: es => e.Plain ∧ Expr.AllPlain es

end

mutual

/-- The statement holds no `while`, no `for` and no assignment to an element of a
list, at any depth. -/
def Statement.Plain : Statement → Prop
  | .declare _ _ none => True
  | .declare _ _ (some value) => value.Plain
  | .evaluate _ value => value.Plain
  | .forLoop _ _ _ _ _ _ => False
  | .forEach _ _ collection body => collection.Plain ∧ body.Plain
  | .ifElse _ condition thenBranch none => condition.Plain ∧ thenBranch.Plain
  | .ifElse _ condition thenBranch (some elseBranch) =>
    condition.Plain ∧ thenBranch.Plain ∧ elseBranch.Plain
  | .whileLoop _ _ _ => False
  | .block _ statements => Statement.AllPlain statements
  | .returns _ none => True
  | .returns _ (some value) => value.Plain
  | .breaks _ => True
  | .continues _ => True

/-- All statements are plain. -/
def Statement.AllPlain : List Statement → Prop
  | [] => True
  | s :: ss => s.Plain ∧ Statement.AllPlain ss

end

/-- The body of the function is plain. -/
def FunctionDef.Plain (f : FunctionDef) : Prop :=
  Statement.AllPlain f.body

/-- The statements of the script and the bodies of its functions are plain. -/
def Script.Plain (script : Script) : Prop :=
  Statement.AllPlain script.statements ∧ ∀ f ∈ script.functions, f.Plain

/-- A function that plain code may call: one with a plain body or a built-in one.
What a function of the host does is not for its callers to say. -/
def Callable.Plain : Callable → Prop
  | .script f => f.Plain
  | .builtin _ => True
  | .host _ => False

/-! ## Values and the lists they name -/

/-- The value names no list, or one of the first `size` lists. -/
def Value.Within (size : Nat) : Value → Prop
  | .list id => id < size
  | _ => True

/-- A value that refers to a list of a heap refers to one of a larger heap. -/
theorem Value.Within.mono {v : Value} {size size' : Nat} (h : v.Within size)
    (hle : size ≤ size') : v.Within size' := by
  cases v with
  | list id => exact Nat.lt_of_lt_of_le h hle
  | _ => trivial

/-- Literals are no lists. -/
theorem Value.within_ofLiteral (l : Literal) (size : Nat) : (Value.ofLiteral l).Within size := by
  cases l <;> trivial

/-- Unary operators give no lists. -/
theorem UnaryOp.within_of_apply {op : UnaryOp} {v result : Value}
    (h : op.apply v = .ok result) (size : Nat) : result.Within size := by
  cases op <;> cases v <;> cases h <;> trivial

namespace Heap

variable {h : Heap}

/-- A number beyond the heap has no elements. -/
theorem lt_size_of_mem_contents {id : Nat} {v : Value} (hv : v ∈ h.contents id) :
    id < h.size := by
  by_cases hid : id < h.size
  · exact hid
  · have hnone : h.lists[id]? = none := Array.getElem?_eq_none (Nat.le_of_not_lt hid)
    simp [contents, hnone] at hv

/-- What is in a list after one was made: an element of the new list, or of an old
one. -/
theorem mem_contents_alloc {items : List Value} {id : Nat} {v : Value}
    (hv : v ∈ (h.alloc items).2.contents id) :
    (id = h.size ∧ v ∈ items) ∨ (id < h.size ∧ v ∈ h.contents id) := by
  have hid := lt_size_of_mem_contents hv
  rw [size_alloc] at hid
  by_cases hnew : id = h.size
  · subst hnew
    exact .inl ⟨rfl, contents_alloc_new h items ▸ hv⟩
  · have hlt : id < h.size := by omega
    exact .inr ⟨hlt, contents_alloc_of_lt h items hlt ▸ hv⟩

/-- What is in a list after the elements of one were replaced. -/
theorem mem_contents_modify {items : List Value} {id other : ListId} {v : Value}
    (hv : v ∈ (h.modify id fun _ => items).contents other) :
    v ∈ items ∨ v ∈ h.contents other := by
  by_cases hid : id = other
  · subst hid
    have hlt := lt_size_of_mem_contents hv
    rw [size_modify] at hlt
    rw [contents_modify_self h _ hlt] at hv
    exact .inl hv
  · rw [contents_modify_of_ne h _ hid] at hv
    exact .inr hv

/-! ## Layered heaps -/

/-- The descent into a value comes to an end: into every element of a list, and
into every element of these. -/
inductive Finite (h : Heap) : Value → Prop where
  | atom {v : Value} (hv : ∀ id, v ≠ .list id) : Finite h v
  | list {id : ListId} (hitems : ∀ v ∈ h.contents id, Finite h v) : Finite h (.list id)

/-- Every list holds only lists that were made before it. -/
def Layered (h : Heap) : Prop :=
  ∀ id, ∀ v ∈ h.contents id, v.Within id

/-- Without lists there is nothing out of order. -/
theorem layered_empty : empty.Layered := by
  intro id v hv
  simp [contents, empty] at hv

namespace Layered

/-- A list that is made of lists in the heap goes on top of them. -/
theorem alloc (hl : h.Layered) {items : List Value} (hitems : ∀ v ∈ items, v.Within h.size) :
    (h.alloc items).2.Layered := by
  intro id v hv
  rcases mem_contents_alloc hv with ⟨rfl, hmem⟩ | ⟨_, hmem⟩
  · exact hitems v hmem
  · exact hl id v hmem

/-- In a layered heap every descent ends, since it goes down in the layers. -/
theorem finite (hl : h.Layered) (v : Value) : h.Finite v := by
  cases v with
  | list id =>
      induction id using Nat.strongRecOn with
      | ind id ih =>
          refine .list fun v hv => ?_
          have hbelow := hl id v hv
          cases v with
          | list id' => exact ih id' hbelow
          | _ => exact .atom nofun
  | _ => exact .atom nofun

/-- The text of a value is the same at all depths beyond its layer. -/
theorem renderWithin_eq (hl : h.Layered) {v : Value} {layer depth depth' : Nat}
    (hv : v.Within layer) (hdepth : layer ≤ depth) (hdepth' : layer ≤ depth') :
    h.renderWithin depth v = h.renderWithin depth' v := by
  induction layer using Nat.strongRecOn generalizing v depth depth' with
  | ind layer ih =>
      cases v with
      | list id =>
          have hid : Nat.succ id ≤ layer := hv
          obtain ⟨d, rfl⟩ : ∃ d, depth = d + 1 := ⟨depth - 1, by omega⟩
          obtain ⟨d', rfl⟩ : ∃ d', depth' = d' + 1 := ⟨depth' - 1, by omega⟩
          have hitems : (h.contents id).map (h.renderWithin d) =
              (h.contents id).map (h.renderWithin d') := by
            apply List.map_congr_left
            intro w hw
            exact ih id hid (hl id w hw) (by omega) (by omega)
          simp only [renderWithin, hitems]
      | _ => simp only [renderWithin]

end Layered

/-- Comparing lists element by element looks at the elements only. -/
theorem isEqv_congr_of_mem {p q : Value → Value → Bool} {as bs : List Value}
    (hpq : ∀ a ∈ as, ∀ b, p a b = q a b) : as.isEqv bs p = as.isEqv bs q := by
  induction as generalizing bs with
  | nil => cases bs <;> rfl
  | cons a as ih =>
      cases bs with
      | nil => rfl
      | cons b bs =>
          have hhead := hpq a List.mem_cons_self b
          have htail : as.isEqv bs p = as.isEqv bs q :=
            ih fun x hx => hpq x (List.mem_cons_of_mem a hx)
          simp only [List.isEqv, hhead, htail]

/-- The answer of a comparison is the same at all depths beyond the layer of the
first list. -/
theorem Layered.sameContentsWithin_eq (hl : h.Layered) {a b depth depth' : Nat}
    (hdepth : a < depth) (hdepth' : a < depth') :
    h.sameContentsWithin depth a b = h.sameContentsWithin depth' a b := by
  induction a using Nat.strongRecOn generalizing b depth depth' with
  | ind a ih =>
      obtain ⟨d, rfl⟩ : ∃ d, depth = d + 1 := ⟨depth - 1, by omega⟩
      obtain ⟨d', rfl⟩ : ∃ d', depth' = d' + 1 := ⟨depth' - 1, by omega⟩
      have hitems : (h.contents a).isEqv (h.contents b) (equalBy (h.sameContentsWithin d)) =
          (h.contents a).isEqv (h.contents b) (equalBy (h.sameContentsWithin d')) := by
        apply isEqv_congr_of_mem
        intro x hx y
        have hbelow := hl a x hx
        cases x with
        | list x =>
            cases y with
            | list y =>
                have hdeeper : h.sameContentsWithin d x y = h.sameContentsWithin d' x y :=
                  ih x hbelow (Nat.lt_of_lt_of_le hbelow (by omega))
                    (Nat.lt_of_lt_of_le hbelow (by omega))
                simp only [equalBy, hdeeper]
            | _ => rfl
        | _ => cases y <;> rfl
      simp only [sameContentsWithin, hitems]

end Heap

end Scriptlet
