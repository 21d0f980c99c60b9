import Mathlib

/-!
# Sorting with a comparator that may not be an order

A library sort promises a stable sorted list when its comparator orders the
elements at hand.  When it does not, the sort may still return, with the
elements in any order, or it may panic.  `SortBy` is any sort that keeps this
promise.
-/

namespace Samkhya
namespace StableSort

universe u

variable {α : Type u}

/-- The comparator is a total preorder on the elements of a list. -/
structure TotalOn (cmp : α → α → Ordering) (xs : List α) : Prop where
  swap : ∀ a ∈ xs, ∀ b ∈ xs, cmp b a = (cmp a b).swap
  trans :
    ∀ a ∈ xs, ∀ b ∈ xs, ∀ c ∈ xs,
      (cmp a b).isLE = true → (cmp b c).isLE = true →
        (cmp a c).isLE = true

/-- The stable sorted list. -/
def stableSort (cmp : α → α → Ordering) (xs : List α) : List α :=
  xs.mergeSort (fun a b => (cmp a b).isLE)

/-- A sort under a comparator; `none` is a panic. -/
structure SortBy (cmp : α → α → Ordering) where
  run : List α → Option (List α)
  perm : ∀ xs ys, run xs = some ys → ys.Perm xs
  sorts :
    ∀ xs, TotalOn cmp xs → run xs = some (stableSort cmp xs)

variable {cmp : α → α → Ordering} {xs ys : List α}

theorem TotalOn.isLE_or
    (h : TotalOn cmp xs)
    {a b : α}
    (ha : a ∈ xs)
    (hb : b ∈ xs) :
    (cmp a b).isLE = true ∨ (cmp b a).isLE = true := by
  rw [h.swap a ha b hb]
  cases cmp a b <;> simp

/-- The stable sorted list is sorted, whatever happens off the list. -/
theorem TotalOn.pairwise
    (h : TotalOn cmp xs) :
    (stableSort cmp xs).Pairwise
      (fun a b => (cmp a b).isLE = true) := by
  have hsorted :
      (xs.attach.mergeSort
          (fun a b => (cmp a.1 b.1).isLE)).Pairwise
        (fun a b => (cmp a.1 b.1).isLE = true) := by
    apply List.pairwise_mergeSort
    · intro a b c hab hbc
      exact h.trans a.1 a.2 b.1 b.2 c.1 c.2 hab hbc
    · intro a b
      rw [Bool.or_eq_true]
      exact h.isLE_or a.2 b.2
  have hmap :
      (xs.attach.mergeSort (fun a b => (cmp a.1 b.1).isLE)).map
          Subtype.val =
        stableSort cmp xs := by
    rw [List.map_mergeSort (s := fun a b => (cmp a b).isLE)
      (fun a _ b _ => rfl), List.attach_map_subtype_val]
    rfl
  rw [← hmap, List.pairwise_map]
  exact hsorted

/-- A list that is sorted already is left alone. -/
theorem stableSort_of_pairwise
    (h : xs.Pairwise (fun a b => (cmp a b).isLE = true)) :
    stableSort cmp xs = xs :=
  List.mergeSort_of_pairwise h

namespace SortBy

theorem length_run
    (sort : SortBy cmp)
    (h : sort.run xs = some ys) :
    ys.length = xs.length :=
  (sort.perm xs ys h).length_eq

open Classical in
/-- The sort that rearranges lists its comparator does not order. -/
noncomputable def rearranging
    (cmp : α → α → Ordering)
    (f : List α → List α)
    (hf : ∀ xs, (f xs).Perm xs) : SortBy cmp where
  run xs :=
    if TotalOn cmp xs then
      some (stableSort cmp xs)
    else
      some (f xs)
  perm xs ys h := by
    split_ifs at h
    · rw [← Option.some.inj h]
      exact List.mergeSort_perm xs _
    · rw [← Option.some.inj h]
      exact hf xs
  sorts _ h := if_pos h

theorem run_rearranging
    {f : List α → List α}
    {hf : ∀ xs, (f xs).Perm xs}
    (h : ¬ TotalOn cmp xs) :
    (rearranging cmp f hf).run xs = some (f xs) :=
  if_neg h

end SortBy

end StableSort
end Samkhya
