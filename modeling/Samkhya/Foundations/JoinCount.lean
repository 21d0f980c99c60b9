import Mathlib.Data.Fintype.BigOperators
import Mathlib.Data.Finset.Pi
import Mathlib.Order.Restriction
import Mathlib.Tactic

/-!
# Counting the tuples of a multiway join

A join over nodes `ι` picks one element of `row i` for every node, so its
result is a finite set `F` of dependent functions.  A plan that has so far
looked at the nodes `S` only sees the restrictions of these functions to `S`;
`partials F S` is the number of distinct restrictions.

The rules below are what a join-size bound needs: the empty plan has at most
one partial tuple, a set of nodes has at most the product of its bag sizes,
two plans multiply, and a node reached through an equality on a key multiplies
by at most the largest number of its rows that carry one key.
-/

namespace Samkhya
namespace JoinCount

universe u v w

variable {ι : Type u}
variable {row : ι → Type v}

open Classical in
/-- Number of distinct partial tuples that `F` leaves on the nodes `S`. -/
noncomputable def partials
    (F : Finset (∀ i, row i))
    (S : Finset ι) : Nat :=
  (F.image (fun f => S.restrict f)).card

/-- Before any node is looked at there is at most one partial tuple. -/
theorem partials_empty_le
    (F : Finset (∀ i, row i)) :
    partials F ∅ ≤ 1 := by
  classical
  apply Finset.card_le_one.mpr
  intro a _ b _
  funext i
  exact absurd i.2 (Finset.notMem_empty _)

/-- Looking at every node distinguishes all complete tuples. -/
theorem partials_univ
    [Fintype ι]
    (F : Finset (∀ i, row i)) :
    partials F Finset.univ = F.card := by
  classical
  apply Finset.card_image_of_injective
  intro f g hfg
  funext i
  exact congrFun hfg ⟨i, Finset.mem_univ i⟩

variable [DecidableEq ι]

/-- A tuple on a union is its two halves. -/
theorem restrict₂_union_injective
    (S T : Finset ι) :
    Function.Injective
      (fun f : ∀ i : (S ∪ T : Finset ι), row i =>
        (Finset.restrict₂ Finset.subset_union_left f,
          Finset.restrict₂ Finset.subset_union_right f)) := by
  intro f g hfg
  funext i
  rcases Finset.mem_union.mp i.2 with hi | hi
  · exact congrFun (congrArg Prod.fst hfg) ⟨i, hi⟩
  · exact congrFun (congrArg Prod.snd hfg) ⟨i, hi⟩

/-- The partial tuples on two node sets multiply at most. -/
theorem partials_union_le
    (F : Finset (∀ i, row i))
    (S T : Finset ι) :
    partials F (S ∪ T) ≤ partials F S * partials F T := by
  classical
  unfold partials
  rw [← Finset.card_product]
  apply
    Finset.card_le_card_of_injOn _ _
      (restrict₂_union_injective S T).injOn
  intro a ha
  obtain ⟨f, hf, rfl⟩ := Finset.mem_image.mp ha
  exact
    Finset.mem_product.mpr
      ⟨Finset.mem_image.mpr ⟨f, hf, rfl⟩,
        Finset.mem_image.mpr ⟨f, hf, rfl⟩⟩

/-- A node set has at most the product of its bag sizes. -/
theorem partials_le_prod
    [∀ i, Fintype (row i)]
    (F : Finset (∀ i, row i))
    (S : Finset ι) :
    partials F S ≤ ∏ i ∈ S, Fintype.card (row i) := by
  classical
  calc
    partials F S
        ≤ Fintype.card (∀ i : S, row i) :=
      Finset.card_le_univ _
    _ = ∏ i ∈ S, Fintype.card (row i) := by
      rw [Fintype.card_pi]
      exact Finset.prod_coe_sort S (fun i => Fintype.card (row i))

/-- One node has at most its own bag size. -/
theorem partials_singleton_le
    [∀ i, Fintype (row i)]
    (F : Finset (∀ i, row i))
    (i : ι) :
    partials F {i} ≤ Fintype.card (row i) := by
  simpa using partials_le_prod F {i}

/-- A tuple with one more node is the value there and the rest. -/
theorem eq_of_restrict₂_insert
    {S : Finset ι}
    {v : ι}
    {f g : ∀ i : (insert v S : Finset ι), row i}
    (hv :
      f ⟨v, Finset.mem_insert_self v S⟩ =
        g ⟨v, Finset.mem_insert_self v S⟩)
    (hS :
      Finset.restrict₂ (Finset.subset_insert v S) f =
        Finset.restrict₂ (Finset.subset_insert v S) g) :
    f = g := by
  funext ⟨i, hmem⟩
  rcases Finset.mem_insert.mp hmem with rfl | hi
  · exact hv
  · exact congrFun hS ⟨i, hi⟩

open Classical in
/-- Over one partial tuple, the new node has a row with the one joining key. -/
theorem card_extensions_le
    {κ : Type w}
    {F : Finset (∀ i, row i)}
    {S : Finset ι}
    {u v : ι}
    [Fintype (row v)]
    [DecidableEq κ]
    (hu : u ∈ S)
    (keyU : row u → Option κ)
    (keyV : row v → Option κ)
    (hjoin :
      ∀ f ∈ F, ∃ k,
        keyU (f u) = some k ∧ keyV (f v) = some k)
    {f₀ : ∀ i, row i}
    {k : κ}
    (hk : keyU (f₀ u) = some k) :
    ((F.image (fun f => (insert v S).restrict f)).filter
      (fun a =>
        Finset.restrict₂ (Finset.subset_insert v S) a =
          S.restrict f₀)).card ≤
      (Finset.univ.filter (fun r => keyV r = some k)).card := by
  apply
    Finset.card_le_card_of_injOn
      (fun a => a ⟨v, Finset.mem_insert_self v S⟩)
  · intro a ha
    obtain ⟨haF, hrest⟩ := Finset.mem_filter.mp ha
    obtain ⟨f, hf, rfl⟩ := Finset.mem_image.mp haF
    obtain ⟨k', hku, hkv⟩ := hjoin f hf
    have hfu : f u = f₀ u := congrFun hrest ⟨u, hu⟩
    rw [hfu, hk] at hku
    cases hku
    exact Finset.mem_filter.mpr ⟨Finset.mem_univ _, hkv⟩
  · intro a ha b hb hv
    have hrestA := (Finset.mem_filter.mp ha).2
    have hrestB := (Finset.mem_filter.mp hb).2
    exact eq_of_restrict₂_insert hv (hrestA.trans hrestB.symm)

/--
A node reached from a known node through an equality of keys multiplies the
partial tuples by at most the number of its rows sharing one key.
-/
theorem partials_insert_le
    {κ : Type w}
    {F : Finset (∀ i, row i)}
    {S : Finset ι}
    {u v : ι}
    [Fintype (row v)]
    [DecidableEq κ]
    (hu : u ∈ S)
    (keyU : row u → Option κ)
    (keyV : row v → Option κ)
    (d : Nat)
    (hjoin :
      ∀ f ∈ F, ∃ k,
        keyU (f u) = some k ∧ keyV (f v) = some k)
    (hdeg :
      ∀ k,
        (Finset.univ.filter
          (fun r => keyV r = some k)).card ≤ d) :
    partials F (insert v S) ≤ d * partials F S := by
  classical
  have himage :
      (F.image (fun f => (insert v S).restrict f)).image
          (Finset.restrict₂ (Finset.subset_insert v S)) =
        F.image (fun f => S.restrict f) := by
    rw [Finset.image_image]
    rfl
  unfold partials
  rw [← himage]
  apply Finset.card_le_mul_card_image
  intro b hb
  rw [himage] at hb
  obtain ⟨f₀, hf₀, rfl⟩ := Finset.mem_image.mp hb
  obtain ⟨k, hku, _⟩ := hjoin f₀ hf₀
  exact (card_extensions_le hu keyU keyV hjoin hku).trans (hdeg k)

end JoinCount
end Samkhya
