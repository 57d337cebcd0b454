/-!
# Stable sorting

Items are inserted one after the other, each behind every earlier item it is not less than. By a
comparison that is consistent over the items, the result is the one list in which they are sorted
and ties stand as they stood. By any other comparison there is no such list, and what a routine makes
of the items is its own affair: it may leave them in any order, and it may also find out, and give up.
-/

namespace EntityStore

namespace Sorting

variable {α : Type}

/-- Insert into a list that is in descending order: step over the items `x` is less than. -/
def insertDescending (cmp : α → α → Ordering) (x : α) : List α → List α
  | [] => [x]
  | y :: rest => if cmp x y = .lt then y :: insertDescending cmp x rest else x :: y :: rest

/-- Insert the items from left to right, keeping the result in descending order. -/
def descending (cmp : α → α → Ordering) (xs : List α) : List α :=
  xs.foldl (fun sorted x => insertDescending cmp x sorted) []

/-- Sort in ascending order; ties keep their order. -/
def sort (cmp : α → α → Ordering) (xs : List α) : List α := (descending cmp xs).reverse

theorem insertDescending_perm (cmp : α → α → Ordering) (x : α) (ys : List α) :
    (insertDescending cmp x ys).Perm (x :: ys) := by
  induction ys with
  | nil => exact .refl _
  | cons y rest ih =>
    rw [insertDescending]
    split
    · exact (ih.cons y).trans (.swap x y rest)
    · exact .refl _

theorem foldl_insertDescending_perm (cmp : α → α → Ordering) (xs sorted : List α) :
    (xs.foldl (fun sorted x => insertDescending cmp x sorted) sorted).Perm (xs ++ sorted) := by
  induction xs generalizing sorted with
  | nil => exact .refl _
  | cons x rest ih =>
    exact ((ih _).trans ((insertDescending_perm cmp x sorted).append_left rest)).trans
      List.perm_middle

/-- Sorting loses nothing and adds nothing. -/
theorem sort_perm (cmp : α → α → Ordering) (xs : List α) : (sort cmp xs).Perm xs := by
  have h := foldl_insertDescending_perm cmp xs []
  rw [List.append_nil] at h
  exact (List.reverse_perm _).trans h

/-- The comparison is consistent over the items of a list: it does not depend on the side that an
item is on, and it is transitive. -/
def Consistent (cmp : α → α → Ordering) (xs : List α) : Prop :=
  (∀ x ∈ xs, ∀ y ∈ xs, cmp y x = (cmp x y).swap) ∧
    ∀ x ∈ xs, ∀ y ∈ xs, ∀ z ∈ xs, cmp x y ≠ .gt → cmp y z ≠ .gt → cmp x z ≠ .gt

instance (cmp : α → α → Ordering) (xs : List α) : Decidable (Consistent cmp xs) :=
  inferInstanceAs (Decidable (_ ∧ _))

end Sorting

/-- A routine that sorts in place. Whatever the comparison, no item is lost and none is doubled. By a
comparison that is consistent over the items they are sorted; by any other the routine may give up. -/
structure Sorter (α : Type) where
  sort? : (α → α → Ordering) → List α → Option (List α)
  perm {cmp : α → α → Ordering} {xs ys : List α} : sort? cmp xs = some ys → ys.Perm xs
  settled {cmp : α → α → Ordering} {xs : List α} :
    Sorting.Consistent cmp xs → sort? cmp xs = some (Sorting.sort cmp xs)

namespace Sorter

variable {α : Type}

/-- Up to how many items are inserted one after the other, whatever the comparison. -/
def insertedUpTo : Nat := 20

/-- Short lists are sorted by any comparison, and longer ones by consistent comparisons only. -/
def cautious : Sorter α where
  sort? cmp xs :=
    if xs.length ≤ insertedUpTo ∨ Sorting.Consistent cmp xs then some (Sorting.sort cmp xs) else none
  perm := by
    intro cmp xs ys h
    split at h
    · obtain rfl := Option.some.inj h
      exact Sorting.sort_perm cmp xs
    · cases h
  settled := fun h => if_pos (.inr h)

theorem cautious_eq_none {cmp : α → α → Ordering} {xs : List α} :
    cautious.sort? cmp xs = none ↔ insertedUpTo < xs.length ∧ ¬ Sorting.Consistent cmp xs := by
  unfold cautious
  rw [← Nat.not_le, ← not_or]
  exact ite_eq_right_iff.trans (by simp)

end Sorter

end EntityStore
