import Scriptlet.Double.Decimal
import Scriptlet.Value.Basic

/-!
# Lists in the heap

The heap holds the contents of every list that was made.  Lists are made with
new numbers and never taken away, so a list that is in no value any more does
no harm.

A list may come to contain itself.  Comparing and rendering go down into lists,
so both count how deep they have gone.  A descent that meets no list twice is no
deeper than the heap is large, and a comparison that meets no pair of lists
twice is no deeper than the heap has pairs; both bounds are beyond the depth of
every descent that ends.
-/

namespace Scriptlet

/-- The contents of all lists. -/
structure Heap where
  lists : Array (List Value)
  deriving DecidableEq

namespace Heap

/-- The heap without lists. -/
def empty : Heap := ⟨#[]⟩

/-- The number of lists. -/
def size (h : Heap) : Nat := h.lists.size

/-- The elements of a list. -/
def contents (h : Heap) (id : ListId) : List Value :=
  h.lists[id]?.getD []

/-- Makes a new list. -/
def alloc (h : Heap) (items : List Value) : ListId × Heap :=
  (h.lists.size, ⟨h.lists.push items⟩)

/-- Changes the elements of a list. -/
def modify (h : Heap) (id : ListId) (f : List Value → List Value) : Heap :=
  ⟨h.lists.modify id f⟩

/-- The place in a list of the given length that an integer names. -/
def index? (i : Int32) (length : Nat) : Option Nat :=
  if 0 ≤ i.toInt ∧ i.toInt < length then some i.toInt.toNat else none

/-! ## What making and changing a list does to the others -/

/-- A new list makes one list more. -/
theorem size_alloc (h : Heap) (items : List Value) : (h.alloc items).2.size = h.size + 1 := by
  simp [alloc, size]

/-- Changing a list makes none more. -/
theorem size_modify (h : Heap) (id : ListId) (f : List Value → List Value) :
    (h.modify id f).size = h.size := by
  simp [modify, size]

/-- A new list holds what it was made of. -/
theorem contents_alloc_new (h : Heap) (items : List Value) :
    (h.alloc items).2.contents (h.alloc items).1 = items := by
  simp [alloc, contents]

/-- Making a list leaves every list that was there alone. -/
theorem contents_alloc_of_lt (h : Heap) (items : List Value) {id : ListId} (hid : id < h.size) :
    (h.alloc items).2.contents id = h.contents id := by
  unfold size at hid
  simp only [alloc, contents, Array.getElem?_push]
  rw [if_neg (Nat.ne_of_lt hid)]

/-- A changed list holds what the change makes of its elements. -/
theorem contents_modify_self (h : Heap) {id : ListId} (f : List Value → List Value)
    (hid : id < h.size) : (h.modify id f).contents id = f (h.contents id) := by
  unfold size at hid
  simp [modify, contents, hid, Array.getElem_modify_self]

/-- Changing a list leaves every other list alone. -/
theorem contents_modify_of_ne (h : Heap) {id other : ListId} (f : List Value → List Value)
    (hne : id ≠ other) : (h.modify id f).contents other = h.contents other := by
  simp [modify, contents, Array.getElem?_modify, hne]

/-! ## Comparing -/

/-- Compares two values, with `same` for lists of different numbers.  Values of
different kinds differ, and a list is equal to itself whatever it holds. -/
def equalBy (same : ListId → ListId → Bool) : Value → Value → Bool
  | .bool a, .bool b => a == b
  | .int a, .int b => a == b
  | .double a, .double b => a == b
  | .str a, .str b => a == b
  | .list a, .list b => a == b || same a b
  | _, _ => false

/-- Compares two lists element by element, going down at most `depth` times. -/
def sameContentsWithin (h : Heap) : (depth : Nat) → ListId → ListId → Bool
  | 0, _, _ => false
  | depth + 1, a, b =>
    (h.contents a).length == (h.contents b).length
      && (h.contents a).isEqv (h.contents b) (equalBy (sameContentsWithin h depth))

/-- Whether two lists have equal elements.  A list that holds something unequal
to itself differs from itself here. -/
def sameContents (h : Heap) (a b : ListId) : Bool :=
  h.sameContentsWithin (h.size * h.size + 1) a b

/-- Whether two values are equal. -/
def equal (h : Heap) (a b : Value) : Bool :=
  equalBy h.sameContents a b

/-! ## Rendering -/

/-- The text of a value, going down into lists at most `depth` times. -/
def renderWithin (h : Heap) : (depth : Nat) → Value → String
  | _, .bool b => Lexeme.booleanText b
  | _, .int n => n.toInt.repr
  | _, .double x => Double.text x
  | _, .str s => s
  | 0, .list _ => ""
  | depth + 1, .list id =>
    "[" ++ ",".intercalate ((h.contents id).map (renderWithin h depth)) ++ "]"

/-- The text of a value: strings as they are, and the elements of a list between
brackets. -/
def render (h : Heap) (v : Value) : String :=
  h.renderWithin (h.size + 1) v

end Heap

end Scriptlet
