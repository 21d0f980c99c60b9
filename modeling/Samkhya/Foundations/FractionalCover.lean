import Mathlib

/-!
# Fractional edge covers

A finite family of edges over vertices; some edges are forced to carry a full
unit of weight.  A cover gives the edges non-negative weights such that every
vertex that lies on an edge receives at least one unit.

An edge is pinned when it is forced or the only one on some vertex.  Pinned
edges weigh at least one in every cover, and an edge that is not pinned may be
dropped from the cover of ones.  So the cover of ones is the cheapest exactly
when every edge larger than one is pinned.

`card_le_prod_rpow` is the covering bound on joins: tuples whose components
agree on shared vertices number at most the weighted product of the component
counts, as long as the components on edges that are not forced are determined
by their values on the vertices.
-/

namespace Samkhya
namespace FractionalCover

universe u v

/-- Edges `ι` over vertices `α`, and the edges that must be paid in full. -/
structure Hypergraph (ι : Type u) (α : Type v) where
  contains : ι → α → Prop
  forced : ι → Prop

variable {ι : Type u} {α : Type v}

namespace Hypergraph

/-- Every cover pays this edge in full. -/
def Pinned (H : Hypergraph ι α) (i : ι) : Prop :=
  H.forced i ∨ ∃ a, H.contains i a ∧ ∀ j, H.contains j a → j = i

variable [Fintype ι]

open Classical in
/-- Weight that a vertex receives. -/
noncomputable def load
    (H : Hypergraph ι α)
    (w : ι → ℝ)
    (a : α) : ℝ :=
  ∑ i, if H.contains i a then w i else 0

/-- Non-negative weights that cover every vertex and pay forced edges. -/
structure IsCover (H : Hypergraph ι α) (w : ι → ℝ) : Prop where
  nonneg : ∀ i, 0 ≤ w i
  covers : ∀ i a, H.contains i a → 1 ≤ H.load w a
  forced : ∀ i, H.forced i → 1 ≤ w i

variable {H : Hypergraph ι α}

open Classical in
/-- One edge on a vertex contributes its weight. -/
theorem le_load
    {w : ι → ℝ}
    (hw : ∀ i, 0 ≤ w i)
    {i : ι}
    {a : α}
    (hi : H.contains i a) :
    w i ≤ H.load w a := by
  unfold load
  have hnonneg :
      ∀ j ∈ Finset.univ,
        (0 : ℝ) ≤ if H.contains j a then w j else 0 := by
    intro j _
    split_ifs
    · exact hw j
    · exact le_rfl
  have hsingle :=
    Finset.single_le_sum hnonneg (Finset.mem_univ i)
  rwa [if_pos hi] at hsingle

open Classical in
/-- A pinned edge weighs at least one. -/
theorem IsCover.one_le_of_pinned
    {w : ι → ℝ}
    (hw : H.IsCover w)
    {i : ι}
    (hi : H.Pinned i) :
    1 ≤ w i := by
  rcases hi with hforced | ⟨a, ha, honly⟩
  · exact hw.forced i hforced
  · have hload : H.load w a = w i := by
      unfold load
      rw [Finset.sum_eq_single i]
      · exact if_pos ha
      · intro j _ hj
        exact if_neg (fun hja => hj (honly j hja))
      · intro hi
        exact absurd (Finset.mem_univ i) hi
    rw [← hload]
    exact hw.covers i a ha

open Classical in
/-- Weight one on every edge except `i`. -/
noncomputable def allBut (i : ι) : ι → ℝ :=
  fun j => if j = i then 0 else 1

omit [Fintype ι] in
@[simp] theorem allBut_self
    (i : ι) :
    allBut i i = 0 :=
  if_pos rfl

omit [Fintype ι] in
theorem allBut_of_ne
    {i j : ι}
    (h : j ≠ i) :
    allBut i j = 1 :=
  if_neg h

/-- An edge that is not pinned can be dropped. -/
theorem isCover_allBut
    {i : ι}
    (hi : ¬ H.Pinned i) :
    H.IsCover (allBut i) := by
  have hnonneg : ∀ j, 0 ≤ allBut i j := by
    intro j
    unfold allBut
    split_ifs
    · exact le_rfl
    · exact zero_le_one
  refine ⟨hnonneg, ?_, ?_⟩
  · intro j a hj
    -- some other edge still covers the vertex
    obtain ⟨k, hk, hne⟩ : ∃ k, H.contains k a ∧ k ≠ i := by
      by_cases hji : j = i
      · by_contra hnone
        push Not at hnone
        apply hi
        exact Or.inr ⟨a, hji ▸ hj, hnone⟩
      · exact ⟨j, hj, hji⟩
    have hle := le_load hnonneg hk
    rwa [allBut_of_ne hne] at hle
  · intro j hj
    have hne : j ≠ i := by
      rintro rfl
      exact hi (Or.inl hj)
    rw [allBut_of_ne hne]

/-- Where every size above one is pinned, no cover beats the full product. -/
theorem IsCover.prod_le_prod_rpow
    {w size : ι → ℝ}
    (hw : H.IsCover w)
    (hsize : ∀ i, 1 ≤ size i)
    (hpinned : ∀ i, 1 < size i → H.Pinned i) :
    ∏ i, size i ≤ ∏ i, size i ^ w i := by
  apply Finset.prod_le_prod
  · intro i _
    exact zero_le_one.trans (hsize i)
  · intro i _
    rcases (hsize i).eq_or_lt with hone | hlarge
    · rw [← hone, Real.one_rpow]
    · exact
        Real.self_le_rpow_of_one_le (hsize i)
          (hw.one_le_of_pinned (hpinned i hlarge))

open Classical in
/-- Dropping an edge divides the product by its size. -/
theorem mul_prod_rpow_allBut
    (size : ι → ℝ)
    (i : ι) :
    size i * ∏ j, size j ^ allBut i j = ∏ j, size j := by
  have hrest :
      ∏ j, size j ^ allBut i j =
        ∏ j ∈ Finset.univ.erase i, size j := by
    rw [← Finset.mul_prod_erase Finset.univ _ (Finset.mem_univ i),
      allBut_self, Real.rpow_zero, one_mul]
    apply Finset.prod_congr rfl
    intro j hj
    rw [allBut_of_ne (Finset.ne_of_mem_erase hj), Real.rpow_one]
  rw [hrest]
  exact Finset.mul_prod_erase Finset.univ size (Finset.mem_univ i)

end Hypergraph

section Holder

variable {β : Type*}

/-- Normalised families: their weighted products sum to at most one. -/
theorem sum_prod_rpow_le_one
    (X : Finset β)
    (E : Finset ι)
    {w : ι → ℝ}
    {t : ι → β → ℝ}
    (hw : ∀ i ∈ E, 0 ≤ w i)
    (hsum : 1 ≤ ∑ i ∈ E, w i)
    (hnonneg : ∀ i ∈ E, ∀ x ∈ X, 0 ≤ t i x)
    (hone : ∀ i ∈ E, ∀ x ∈ X, t i x ≤ 1)
    (htotal : ∀ i ∈ E, ∑ x ∈ X, t i x ≤ 1) :
    ∑ x ∈ X, ∏ i ∈ E, t i x ^ w i ≤ 1 := by
  have hpos : 0 < ∑ i ∈ E, w i := zero_lt_one.trans_le hsum
  have hshare : ∑ i ∈ E, w i / ∑ j ∈ E, w j = 1 := by
    rw [← Finset.sum_div]
    exact div_self hpos.ne'
  have hw' : ∀ i ∈ E, 0 ≤ w i / ∑ j ∈ E, w j := by
    intro i hi
    exact div_nonneg (hw i hi) hpos.le
  -- weights summing to one only enlarge the product of numbers below one
  have hmean :
      ∀ x ∈ X,
        ∏ i ∈ E, t i x ^ w i ≤
          ∑ i ∈ E, w i / (∑ j ∈ E, w j) * t i x := by
    intro x hx
    calc
      ∏ i ∈ E, t i x ^ w i
          ≤ ∏ i ∈ E, t i x ^ (w i / ∑ j ∈ E, w j) := by
        apply Finset.prod_le_prod
        · intro i hi
          exact Real.rpow_nonneg (hnonneg i hi x hx) _
        · intro i hi
          exact
            Real.rpow_le_rpow_of_exponent_ge'
              (hnonneg i hi x hx) (hone i hi x hx) (hw' i hi)
              (div_le_self (hw i hi) hsum)
      _ ≤ ∑ i ∈ E, w i / (∑ j ∈ E, w j) * t i x :=
        Real.geom_mean_le_arith_mean_weighted E _ _ hw' hshare
          (fun i hi => hnonneg i hi x hx)
  calc
    ∑ x ∈ X, ∏ i ∈ E, t i x ^ w i
        ≤ ∑ x ∈ X, ∑ i ∈ E, w i / (∑ j ∈ E, w j) * t i x :=
      Finset.sum_le_sum hmean
    _ = ∑ i ∈ E, w i / (∑ j ∈ E, w j) * ∑ x ∈ X, t i x := by
      rw [Finset.sum_comm]
      simp only [Finset.mul_sum]
    _ ≤ ∑ i ∈ E, w i / (∑ j ∈ E, w j) * 1 := by
      apply Finset.sum_le_sum
      intro i hi
      exact mul_le_mul_of_nonneg_left (htotal i hi) (hw' i hi)
    _ = 1 := by
      simp only [mul_one]
      exact hshare

/-- Hölder's inequality for several families whose weights sum to at least one. -/
theorem sum_prod_rpow_le
    (X : Finset β)
    (E : Finset ι)
    {w : ι → ℝ}
    {c : ι → β → ℝ}
    (hw : ∀ i ∈ E, 0 ≤ w i)
    (hsum : 1 ≤ ∑ i ∈ E, w i)
    (hc : ∀ i ∈ E, ∀ x ∈ X, 0 ≤ c i x) :
    ∑ x ∈ X, ∏ i ∈ E, c i x ^ w i ≤
      ∏ i ∈ E, (∑ x ∈ X, c i x) ^ w i := by
  have htotal : ∀ i ∈ E, 0 ≤ ∑ x ∈ X, c i x := by
    intro i hi
    exact Finset.sum_nonneg (hc i hi)
  have hle : ∀ i ∈ E, ∀ x ∈ X, c i x ≤ ∑ y ∈ X, c i y := by
    intro i hi x hx
    exact Finset.single_le_sum (hc i hi) hx
  have hsplit :
      ∀ i ∈ E, ∀ x ∈ X,
        c i x ^ w i =
          (∑ y ∈ X, c i y) ^ w i *
            (c i x / ∑ y ∈ X, c i y) ^ w i := by
    intro i hi x hx
    rw [← Real.mul_rpow (htotal i hi)
      (div_nonneg (hc i hi x hx) (htotal i hi))]
    rcases (htotal i hi).eq_or_lt with hzero | hpos
    · have hcx : c i x = 0 := by
        apply le_antisymm
        · exact (hle i hi x hx).trans hzero.symm.le
        · exact hc i hi x hx
      rw [hcx, zero_div, mul_zero]
    · rw [mul_div_cancel₀ _ hpos.ne']
  calc
    ∑ x ∈ X, ∏ i ∈ E, c i x ^ w i
        = ∑ x ∈ X,
            (∏ i ∈ E, (∑ y ∈ X, c i y) ^ w i) *
              ∏ i ∈ E, (c i x / ∑ y ∈ X, c i y) ^ w i := by
      apply Finset.sum_congr rfl
      intro x hx
      rw [← Finset.prod_mul_distrib]
      exact Finset.prod_congr rfl (fun i hi => hsplit i hi x hx)
    _ = (∏ i ∈ E, (∑ y ∈ X, c i y) ^ w i) *
          ∑ x ∈ X, ∏ i ∈ E, (c i x / ∑ y ∈ X, c i y) ^ w i := by
      rw [Finset.mul_sum]
    _ ≤ (∏ i ∈ E, (∑ y ∈ X, c i y) ^ w i) * 1 := by
      apply mul_le_mul_of_nonneg_left
      · apply sum_prod_rpow_le_one X E hw hsum
        · intro i hi x hx
          exact div_nonneg (hc i hi x hx) (htotal i hi)
        · intro i hi x hx
          exact div_le_one_of_le₀ (hle i hi x hx) (htotal i hi)
        · intro i hi
          rw [← Finset.sum_div]
          exact div_self_le_one _
      · apply Finset.prod_nonneg
        intro i hi
        exact Real.rpow_nonneg (htotal i hi) _
    _ = ∏ i ∈ E, (∑ y ∈ X, c i y) ^ w i := mul_one _

end Holder

namespace Hypergraph

section Join

variable [Fintype ι] {H : Hypergraph ι α}
variable {ρ : ι → Type*} {κ : Type*}

open Classical in
/-- Without free vertices every component that is not forced is unique. -/
theorem IsCover.card_le_of_determined
    {w : ι → ℝ}
    (hw : H.IsCover w)
    (F : Finset (∀ i, ρ i))
    (R : ∀ i, Finset (ρ i))
    (hmem : ∀ f ∈ F, ∀ i, f i ∈ R i)
    (hunique :
      ∀ i, ¬ H.forced i → ∀ r ∈ R i, ∀ s ∈ R i, r = s) :
    (F.card : ℝ) ≤ ∏ i, ((R i).card : ℝ) ^ w i := by
  rcases F.eq_empty_or_nonempty with rfl | ⟨f, hf⟩
  · rw [Finset.card_empty, Nat.cast_zero]
    apply Finset.prod_nonneg
    intro i _
    exact Real.rpow_nonneg (Nat.cast_nonneg _) _
  · have hsubset : F ⊆ Fintype.piFinset R := by
      intro f hf
      exact Fintype.mem_piFinset.mpr (hmem f hf)
    have hcard := Finset.card_le_card hsubset
    rw [Fintype.card_piFinset] at hcard
    have hcast : (F.card : ℝ) ≤ ∏ i, ((R i).card : ℝ) := by
      exact_mod_cast hcard
    refine hcast.trans ?_
    apply Finset.prod_le_prod
    · intro i _
      exact Nat.cast_nonneg _
    · intro i _
      have hpos : 1 ≤ (R i).card :=
        Finset.card_pos.mpr ⟨f i, hmem f hf i⟩
      by_cases hi : H.forced i
      · apply Real.self_le_rpow_of_one_le
        · exact_mod_cast hpos
        · exact hw.forced i hi
      · have hone : (R i).card = 1 := by
          apply le_antisymm
          · exact Finset.card_le_one.mpr (hunique i hi)
          · exact hpos
        rw [hone, Nat.cast_one, Real.one_rpow]

open Classical in
/-- Components with one value on a vertex: cut where the edge is on it. -/
theorem prod_fiber_rpow
    (H : Hypergraph ι α)
    (w : ι → ℝ)
    (a : α)
    (R : ∀ i, Finset (ρ i))
    (key : ∀ i, ρ i → κ)
    (x : κ) :
    ∏ i, (((R i).filter
        (fun r => H.contains i a → key i r = x)).card : ℝ) ^ w i =
      (∏ i with H.contains i a,
        (((R i).filter (fun r => key i r = x)).card : ℝ) ^ w i) *
        ∏ i with ¬ H.contains i a, ((R i).card : ℝ) ^ w i := by
  rw [← Finset.prod_filter_mul_prod_filter_not Finset.univ
    (fun i => H.contains i a)]
  congr 1
  · apply Finset.prod_congr rfl
    intro i hi
    simp only [(Finset.mem_filter.mp hi).2, forall_const]
  · apply Finset.prod_congr rfl
    intro i hi
    simp only [(Finset.mem_filter.mp hi).2, false_implies,
      Finset.filter_true]

open Classical in
/-- The fibres of a component make up no more than the component. -/
theorem IsCover.prod_sum_fiber_le
    {w : ι → ℝ}
    (hw : H.IsCover w)
    (E : Finset ι)
    (X : Finset κ)
    (R : ∀ i, Finset (ρ i))
    (key : ∀ i, ρ i → κ) :
    ∏ i ∈ E,
        (∑ x ∈ X,
          (((R i).filter (fun r => key i r = x)).card : ℝ)) ^ w i ≤
      ∏ i ∈ E, ((R i).card : ℝ) ^ w i := by
  have hnonneg :
      ∀ i, (0 : ℝ) ≤
        ∑ x ∈ X, (((R i).filter (fun r => key i r = x)).card : ℝ) := by
    intro i
    exact Finset.sum_nonneg (fun _ _ => Nat.cast_nonneg _)
  apply Finset.prod_le_prod
  · intro i _
    exact Real.rpow_nonneg (hnonneg i) _
  · intro i _
    apply Real.rpow_le_rpow (hnonneg i) _ (hw.nonneg i)
    have hfiber :=
      Finset.sum_card_fiberwise_eq_card_filter (R i) X (key i)
    rw [← Nat.cast_sum, hfiber]
    exact_mod_cast Finset.card_filter_le _ _

open Classical in
/--
One vertex: splitting the components on it by their value costs nothing, since
the edges on the vertex carry at least one unit of weight.
-/
theorem IsCover.sum_prod_split_le
    {w : ι → ℝ}
    (hw : H.IsCover w)
    {a : α}
    {i₀ : ι}
    (ha : H.contains i₀ a)
    (X : Finset κ)
    (R : ∀ i, Finset (ρ i))
    (key : ∀ i, ρ i → κ) :
    ∑ x ∈ X,
        ∏ i, (((R i).filter
          (fun r => H.contains i a → key i r = x)).card : ℝ) ^ w i ≤
      ∏ i, ((R i).card : ℝ) ^ w i := by
  have hload : 1 ≤ ∑ i with H.contains i a, w i := by
    rw [Finset.sum_filter]
    exact hw.covers i₀ a ha
  have hholder :=
    sum_prod_rpow_le X (Finset.univ.filter (fun i => H.contains i a))
      (c := fun i x => (((R i).filter (fun r => key i r = x)).card : ℝ))
      (fun i _ => hw.nonneg i) hload
      (fun _ _ _ _ => Nat.cast_nonneg _)
  have hrest :
      0 ≤ ∏ i with ¬ H.contains i a, ((R i).card : ℝ) ^ w i := by
    apply Finset.prod_nonneg
    intro i _
    exact Real.rpow_nonneg (Nat.cast_nonneg _) _
  calc
    ∑ x ∈ X,
        ∏ i, (((R i).filter
          (fun r => H.contains i a → key i r = x)).card : ℝ) ^ w i
        = (∑ x ∈ X,
            ∏ i with H.contains i a,
              (((R i).filter (fun r => key i r = x)).card : ℝ) ^ w i) *
            ∏ i with ¬ H.contains i a, ((R i).card : ℝ) ^ w i := by
      rw [Finset.sum_mul]
      simp only [prod_fiber_rpow]
    _ ≤ (∏ i with H.contains i a, ((R i).card : ℝ) ^ w i) *
          ∏ i with ¬ H.contains i a, ((R i).card : ℝ) ^ w i :=
      mul_le_mul_of_nonneg_right
        (hholder.trans (hw.prod_sum_fiber_le _ X R key)) hrest
    _ = ∏ i, ((R i).card : ℝ) ^ w i :=
      Finset.prod_filter_mul_prod_filter_not Finset.univ
        (fun i => H.contains i a) _

open Classical in
/--
**The covering bound.**  Tuples that agree on every shared vertex are at most
the product of the component counts raised to the weights of a cover.
-/
theorem IsCover.card_le_prod_rpow
    {w : ι → ℝ}
    (hw : H.IsCover w)
    (vertices : List α)
    (key : ∀ i, α → ρ i → κ)
    (F : Finset (∀ i, ρ i))
    (R : ∀ i, Finset (ρ i))
    (hmem : ∀ f ∈ F, ∀ i, f i ∈ R i)
    (hjoin :
      ∀ f ∈ F, ∀ i j a, H.contains i a → H.contains j a →
        key i a (f i) = key j a (f j))
    (hdetermined :
      ∀ i, ¬ H.forced i → ∀ r ∈ R i, ∀ s ∈ R i,
        (∀ a ∈ vertices, H.contains i a → key i a r = key i a s) →
        r = s) :
    (F.card : ℝ) ≤ ∏ i, ((R i).card : ℝ) ^ w i := by
  -- the vertices still free; the components agree on all others
  induction vertices generalizing F R with
  | nil =>
      apply hw.card_le_of_determined F R hmem
      intro i hi r hr s hs
      apply hdetermined i hi r hr s hs
      intro a ha
      exact absurd ha List.not_mem_nil
  | cons a vertices ih =>
      by_cases ha : ∃ i₀, H.contains i₀ a
      · obtain ⟨i₀, ha⟩ := ha
        have hfiber :=
          Finset.card_eq_sum_card_image
            (fun f : ∀ i, ρ i => key i₀ a (f i₀)) F
        rw [hfiber, Nat.cast_sum]
        refine
          le_trans (Finset.sum_le_sum ?_)
            (hw.sum_prod_split_le ha
              (F.image (fun f => key i₀ a (f i₀))) R
              (fun i => key i a))
        intro x _
        apply ih
        · intro f hf i
          obtain ⟨hfF, hx⟩ := Finset.mem_filter.mp hf
          apply Finset.mem_filter.mpr
          refine ⟨hmem f hfF i, ?_⟩
          intro hia
          rw [hjoin f hfF i i₀ a hia ha]
          exact hx
        · intro f hf
          exact hjoin f (Finset.mem_filter.mp hf).1
        · intro i hi r hr s hs hagree
          obtain ⟨hr, hrx⟩ := Finset.mem_filter.mp hr
          obtain ⟨hs, hsx⟩ := Finset.mem_filter.mp hs
          apply hdetermined i hi r hr s hs
          intro b hb hib
          rcases List.mem_cons.mp hb with rfl | hb
          · rw [hrx hib, hsx hib]
          · exact hagree b hb hib
      · apply ih F R hmem hjoin
        intro i hi r hr s hs hagree
        apply hdetermined i hi r hr s hs
        intro b hb hib
        rcases List.mem_cons.mp hb with rfl | hb
        · exact absurd ⟨i, hib⟩ ha
        · exact hagree b hb hib

end Join

end Hypergraph

end FractionalCover
end Samkhya
