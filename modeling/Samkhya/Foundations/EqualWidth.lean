import Mathlib

/-!
# Bins of equal width

An interval is cut into `n` bins of equal width; a point outside goes to the
nearest bin, and so does every point of an interval that has no width.  The
bin of a point is monotone, which is all that is needed for a range of bins
to hold every point of a range: whatever falls on an edge between two bins
goes to one of those that the range touches.

`sum_countP_keys` counts a list key by key.
-/

namespace Samkhya
namespace EqualWidth

variable {K : Type*} [Field K] [LinearOrder K] [FloorSemiring K]

/-- The bin of a point. -/
def binIndex (v lo hi : K) (n : Nat) : Nat :=
  if n = 0 then 0
  else if hi ≤ lo then 0
  else if v ≤ lo then 0
  else if hi ≤ v then n - 1
  else min ⌊(v - lo) / (hi - lo) * n⌋₊ (n - 1)

variable {v w lo hi : K} {n : Nat}

theorem binIndex_le :
    binIndex v lo hi n ≤ n - 1 := by
  rw [binIndex]
  split_ifs
  · exact Nat.zero_le _
  · exact Nat.zero_le _
  · exact Nat.zero_le _
  · exact le_rfl
  · exact Nat.min_le_right _ _

/-- An interval without width has one bin. -/
theorem binIndex_of_le
    (h : hi ≤ lo) :
    binIndex v lo hi n = 0 := by
  rw [binIndex]
  split_ifs <;> rfl

/-- A greater point is not in a lesser bin. -/
theorem binIndex_mono
    [IsStrictOrderedRing K]
    (h : v ≤ w) :
    binIndex v lo hi n ≤ binIndex w lo hi n := by
  by_cases hzero : n = 0
  · simp [binIndex, hzero]
  by_cases hflat : hi ≤ lo
  · rw [binIndex_of_le hflat]
    exact Nat.zero_le _
  by_cases hv : v ≤ lo
  · simp [binIndex, hv]
  by_cases hw : hi ≤ w
  · have hlast : binIndex w lo hi n = n - 1 := by
      have hlo : ¬w ≤ lo := fun hle => hv (h.trans hle)
      rw [binIndex, if_neg hzero, if_neg hflat, if_neg hlo, if_pos hw]
    rw [hlast]
    exact binIndex_le
  -- both points lie inside
  have hw_lo : ¬w ≤ lo := fun hle => hv (h.trans hle)
  have hv_hi : ¬hi ≤ v := fun hle => hw (hle.trans h)
  have hwidth : 0 ≤ hi - lo := sub_nonneg.mpr (not_le.mp hflat).le
  have hscaled :
      (v - lo) / (hi - lo) * n ≤ (w - lo) / (hi - lo) * n := by
    have hdiv :=
      div_le_div_of_nonneg_right (sub_le_sub_right h lo) hwidth
    exact mul_le_mul_of_nonneg_right hdiv (Nat.cast_nonneg n)
  rw [binIndex, binIndex, if_neg hzero, if_neg hflat, if_neg hv,
    if_neg hv_hi, if_neg hzero, if_neg hflat, if_neg hw_lo, if_neg hw]
  exact min_le_min_right _ (Nat.floor_le_floor hscaled)

section Keys

variable {α κ : Type*} [DecidableEq κ]

/-- Counting key by key counts everything that has one of the keys. -/
theorem sum_countP_keys
    (key : α → κ)
    (xs : List α)
    {keys : List κ}
    (hnodup : keys.Nodup) :
    (keys.map (fun k => xs.countP (fun x => key x = k))).sum =
      xs.countP (fun x => key x ∈ keys) := by
  induction keys with
  | nil =>
      simp
  | cons k keys ih =>
      obtain ⟨hk, hnodup⟩ := List.nodup_cons.mp hnodup
      rw [List.map_cons, List.sum_cons, ih hnodup]
      clear ih
      induction xs with
      | nil =>
          rfl
      | cons x xs ih =>
          simp only [List.countP_cons, decide_eq_true_eq,
            List.mem_cons] at ih ⊢
          by_cases hx : key x = k
          · simp only [hx, hk, if_true, if_false, true_or]
            omega
          · simp only [hx, if_false, false_or]
            omega

end Keys

end EqualWidth
end Samkhya
