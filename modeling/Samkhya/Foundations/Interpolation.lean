import Mathlib

/-!
# Linear interpolation over ordered buckets

A bucket is an interval with a mass.  Of a query it contributes nothing when
the query misses it, its whole mass when the query contains it, and otherwise
the share of its width that the query overlaps, where a width below a floor
counts as that floor.

However narrow the buckets and whatever ties there are among their edges, each
end of a query lies strictly inside at most one bucket.  So the sum of the
contributions misses the true mass by at most the masses of two buckets.
-/

namespace Samkhya
namespace Interpolation

variable {K : Type*} [LinearOrder K]

section Share

variable [Field K]

/-- The share of the bucket `[a, b]` that the query `[lo, hi]` takes. -/
def share (floor lo hi a b : K) : K :=
  if b < lo ∨ hi < a then
    0
  else if lo ≤ a ∧ b ≤ hi then
    1
  else
    max (min b hi - max a lo) 0 / max (b - a) floor

variable {floor lo hi lo' hi' a b : K}

/-- A query that misses the bucket takes nothing of it. -/
theorem share_eq_zero
    (h : b < lo ∨ hi < a) :
    share floor lo hi a b = 0 :=
  if_pos h

/-- A query that contains the bucket takes all of it. -/
theorem share_eq_one
    (hab : a ≤ b)
    (hlo : lo ≤ a)
    (hhi : b ≤ hi) :
    share floor lo hi a b = 1 := by
  have hmeets : ¬(b < lo ∨ hi < a) := by
    rw [not_or, not_lt, not_lt]
    exact ⟨hlo.trans hab, hab.trans hhi⟩
  rw [share, if_neg hmeets, if_pos ⟨hlo, hhi⟩]

variable [IsStrictOrderedRing K]

theorem share_nonneg
    (hfloor : 0 < floor) :
    0 ≤ share floor lo hi a b := by
  have hwidth : 0 < max (b - a) floor :=
    lt_max_of_lt_right hfloor
  rw [share]
  split_ifs
  · exact le_rfl
  · exact zero_le_one
  · exact div_nonneg (le_max_right _ _) hwidth.le

theorem share_le_one
    (hfloor : 0 < floor) :
    share floor lo hi a b ≤ 1 := by
  have hwidth : 0 < max (b - a) floor :=
    lt_max_of_lt_right hfloor
  rw [share]
  split_ifs
  · exact zero_le_one
  · exact le_rfl
  · rw [div_le_one hwidth]
    have hoverlap : min b hi - max a lo ≤ b - a :=
      sub_le_sub (min_le_left b hi) (le_max_left a lo)
    exact max_le (hoverlap.trans (le_max_left _ _)) hwidth.le

/-- A wider query takes no less. -/
theorem share_mono
    (hfloor : 0 < floor)
    (hab : a ≤ b)
    (hlo : lo' ≤ lo)
    (hhi : hi ≤ hi') :
    share floor lo hi a b ≤ share floor lo' hi' a b := by
  by_cases hmiss : b < lo ∨ hi < a
  · rw [share_eq_zero hmiss]
    exact share_nonneg hfloor
  by_cases hinside : lo' ≤ a ∧ b ≤ hi'
  · rw [share_eq_one hab hinside.1 hinside.2]
    exact share_le_one hfloor
  -- both queries take a part
  have hnarrow : ¬(lo ≤ a ∧ b ≤ hi) := fun h =>
    hinside ⟨hlo.trans h.1, h.2.trans hhi⟩
  have hmeets : ¬(b < lo' ∨ hi' < a) := by
    rw [not_or, not_lt, not_lt] at hmiss ⊢
    exact ⟨hlo.trans hmiss.1, hmiss.2.trans hhi⟩
  have hwidth : 0 ≤ max (b - a) floor :=
    (lt_max_of_lt_right hfloor).le
  have hoverlap : min b hi - max a lo ≤ min b hi' - max a lo' :=
    sub_le_sub (min_le_min_left b hhi) (max_le_max_left a hlo)
  rw [share, share, if_neg hmiss, if_neg hnarrow, if_neg hmeets,
    if_neg hinside]
  exact
    div_le_div_of_nonneg_right (max_le_max_right 0 hoverlap) hwidth

end Share

section Crossing

variable {edge : Nat → K} {x : K} {n : Nat}

/-- At most one bucket of ordered edges lies around a point. -/
theorem card_lt_le_le_one
    (hmono : Monotone edge) :
    ((Finset.range n).filter
      (fun i => edge i < x ∧ x ≤ edge (i + 1))).card ≤ 1 := by
  rw [Finset.card_le_one]
  intro i hi j hj
  obtain ⟨_, hilt, hile⟩ := Finset.mem_filter.mp hi
  obtain ⟨_, hjlt, hjle⟩ := Finset.mem_filter.mp hj
  rcases lt_trichotomy i j with hij | hij | hij
  · have hedge := hmono (Nat.succ_le_of_lt hij)
    exact absurd (hile.trans hedge) (not_le.mpr hjlt)
  · exact hij
  · have hedge := hmono (Nat.succ_le_of_lt hij)
    exact absurd (hjle.trans hedge) (not_le.mpr hilt)

theorem card_le_lt_le_one
    (hmono : Monotone edge) :
    ((Finset.range n).filter
      (fun i => edge i ≤ x ∧ x < edge (i + 1))).card ≤ 1 := by
  rw [Finset.card_le_one]
  intro i hi j hj
  obtain ⟨_, hile, hilt⟩ := Finset.mem_filter.mp hi
  obtain ⟨_, hjle, hjlt⟩ := Finset.mem_filter.mp hj
  rcases lt_trichotomy i j with hij | hij | hij
  · have hedge := hmono (Nat.succ_le_of_lt hij)
    exact absurd (hedge.trans hjle) (not_le.mpr hilt)
  · exact hij
  · have hedge := hmono (Nat.succ_le_of_lt hij)
    exact absurd (hedge.trans hile) (not_le.mpr hjlt)

end Crossing

section Buckets

variable [Field K] [IsStrictOrderedRing K]
variable {floor lo hi depth : K} {edge : Nat → K} {n : Nat}

/--
The true mass of every bucket inside the query: nothing of a bucket that the
query misses, all of one that it contains, and never more than there is.
-/
structure Truth
    (lo hi : K)
    (edge mass truth : Nat → K)
    (n : Nat) : Prop where
  nonneg : ∀ i < n, 0 ≤ truth i
  le_mass : ∀ i < n, truth i ≤ mass i
  outside :
    ∀ i < n, edge (i + 1) < lo ∨ hi < edge i → truth i = 0
  inside :
    ∀ i < n, lo ≤ edge i → edge (i + 1) ≤ hi → truth i = mass i

variable {mass truth : Nat → K}

/-- One bucket errs only where an end of the query lies in it. -/
theorem abs_share_sub_le
    (hfloor : 0 < floor)
    (hmono : Monotone edge)
    (htruth : Truth lo hi edge mass truth n)
    (hdepth : ∀ i < n, mass i ≤ depth)
    {i : Nat}
    (hi' : i < n) :
    |mass i * share floor lo hi (edge i) (edge (i + 1)) - truth i| ≤
      (if edge i < lo ∧ lo ≤ edge (i + 1) then depth else 0) +
        (if edge i ≤ hi ∧ hi < edge (i + 1) then depth else 0) := by
  have hedge := hmono (Nat.le_succ i)
  have hnonneg := htruth.nonneg i hi'
  have hle := htruth.le_mass i hi'
  have hmass := hdepth i hi'
  have hmass_nonneg := hnonneg.trans hle
  have hdepth_nonneg := hmass_nonneg.trans hmass
  have hparts :
      ∀ p q : Prop, ∀ [Decidable p] [Decidable q], p ∨ q →
        depth ≤ (if p then depth else 0) + if q then depth else 0 := by
    intro p q _ _ hpq
    split_ifs with hp hq
    · exact le_add_of_nonneg_left hdepth_nonneg
    · exact (add_zero depth).ge
    · exact (zero_add depth).ge
    · exact absurd hpq (not_or.mpr ⟨hp, ‹_›⟩)
  by_cases hmiss : edge (i + 1) < lo ∨ hi < edge i
  · rw [share_eq_zero hmiss, htruth.outside i hi' hmiss, mul_zero,
      sub_zero, abs_zero]
    positivity
  by_cases hinside : lo ≤ edge i ∧ edge (i + 1) ≤ hi
  · rw [share_eq_one hedge hinside.1 hinside.2, mul_one,
      htruth.inside i hi' hinside.1 hinside.2, sub_self, abs_zero]
    positivity
  · -- an end of the query lies in the bucket
    have hend :
        (edge i < lo ∧ lo ≤ edge (i + 1)) ∨
          (edge i ≤ hi ∧ hi < edge (i + 1)) := by
      rw [not_or, not_lt, not_lt] at hmiss
      rw [not_and_or, not_le, not_le] at hinside
      rcases hinside with hlo | hhi
      · exact Or.inl ⟨hlo, hmiss.1⟩
      · exact Or.inr ⟨hmiss.2, hhi⟩
    have hlow :
        0 ≤ mass i * share floor lo hi (edge i) (edge (i + 1)) :=
      mul_nonneg hmass_nonneg (share_nonneg hfloor)
    have hhigh :
        mass i * share floor lo hi (edge i) (edge (i + 1)) ≤ mass i :=
      mul_le_of_le_one_right hmass_nonneg (share_le_one hfloor)
    refine le_trans ?_ (hparts _ _ hend)
    rw [abs_le]
    constructor <;> linarith

/-- The interpolated mass is within two buckets of the truth. -/
theorem abs_sum_share_sub_le
    (hfloor : 0 < floor)
    (hmono : Monotone edge)
    (htruth : Truth lo hi edge mass truth n)
    (hdepth_nonneg : 0 ≤ depth)
    (hdepth : ∀ i < n, mass i ≤ depth) :
    |∑ i ∈ Finset.range n,
          mass i * share floor lo hi (edge i) (edge (i + 1)) -
        ∑ i ∈ Finset.range n, truth i| ≤
      2 * depth := by
  have hcount :
      ∀ (p : Nat → Prop) [DecidablePred p],
        ((Finset.range n).filter p).card ≤ 1 →
        ∑ i ∈ Finset.range n, (if p i then depth else 0) ≤ depth := by
    intro p _ hcard
    rw [← Finset.sum_filter, Finset.sum_const, nsmul_eq_mul]
    exact
      mul_le_of_le_one_left hdepth_nonneg (by exact_mod_cast hcard)
  rw [← Finset.sum_sub_distrib]
  calc
    |∑ i ∈ Finset.range n,
        (mass i * share floor lo hi (edge i) (edge (i + 1)) -
          truth i)| ≤
        ∑ i ∈ Finset.range n,
          |mass i * share floor lo hi (edge i) (edge (i + 1)) -
            truth i| :=
      Finset.abs_sum_le_sum_abs _ _
    _ ≤ ∑ i ∈ Finset.range n,
          ((if edge i < lo ∧ lo ≤ edge (i + 1) then depth else 0) +
            if edge i ≤ hi ∧ hi < edge (i + 1) then depth else 0) :=
      Finset.sum_le_sum fun i hi' =>
        abs_share_sub_le hfloor hmono htruth hdepth
          (Finset.mem_range.mp hi')
    _ ≤ depth + depth := by
      rw [Finset.sum_add_distrib]
      exact
        add_le_add
          (hcount _ (card_lt_le_le_one hmono))
          (hcount _ (card_le_lt_le_one hmono))
    _ = 2 * depth := (two_mul depth).symm

end Buckets

/-- Rounding down keeps a value within a whole number of a whole number. -/
theorem floor_near
    {K : Type*} [Field K] [LinearOrder K] [IsStrictOrderedRing K]
    [FloorSemiring K]
    {x : K}
    {truth error : Nat}
    (hx : 0 ≤ x)
    (h : |x - (truth : K)| ≤ (error : K)) :
    ⌊x⌋₊ ≤ truth + error ∧ truth ≤ ⌊x⌋₊ + error := by
  rw [abs_le] at h
  constructor
  · apply Nat.floor_le_of_le
    rw [Nat.cast_add]
    linarith
  · rw [← Nat.sub_le_iff_le_add]
    apply Nat.le_floor
    rcases Nat.le_total truth error with hfew | hmany
    · rw [Nat.sub_eq_zero_of_le hfew, Nat.cast_zero]
      exact hx
    · rw [Nat.cast_sub hmany]
      linarith

end Interpolation
end Samkhya
