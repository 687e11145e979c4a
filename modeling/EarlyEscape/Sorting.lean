/-!
# Sorting by a comparison

Stable insertion sort of a list by a Boolean comparison.  The lists sorted here are short: the
references of one program state and the leak trails of one source file.

## Main definitions

* `insertBy` : puts an element before the first one it may precede.
* `sortBy` : sorts a list; elements that may precede each other keep their order.
-/

namespace EarlyEscape

variable {α : Type _}

/-- Puts `a` before the first element it may precede. -/
def insertBy (le : α → α → Bool) (a : α) : List α → List α
  | [] => [a]
  | b :: l => if le a b then a :: b :: l else b :: insertBy le a l

/-- The elements of a list in the order of `le`, equivalent elements in their given order. -/
def sortBy (le : α → α → Bool) : List α → List α
  | [] => []
  | a :: l => insertBy le a (sortBy le l)

theorem insertBy_perm (le : α → α → Bool) (a : α) (l : List α) :
    (insertBy le a l).Perm (a :: l) := by
  induction l with
  | nil => exact .refl _
  | cons b l ih =>
    unfold insertBy
    split
    · exact .refl _
    · exact (ih.cons b).trans (.swap a b l)

/-- Sorting only reorders. -/
theorem sortBy_perm (le : α → α → Bool) (l : List α) : (sortBy le l).Perm l := by
  induction l with
  | nil => exact .refl _
  | cons a l ih => exact (insertBy_perm le a _).trans (ih.cons a)

@[simp] theorem mem_sortBy {le : α → α → Bool} {a : α} {l : List α} : a ∈ sortBy le l ↔ a ∈ l :=
  (sortBy_perm le l).mem_iff

@[simp] theorem length_sortBy (le : α → α → Bool) (l : List α) :
    (sortBy le l).length = l.length :=
  (sortBy_perm le l).length_eq

end EarlyEscape
