import Mathlib
import Samkhya.Core.HistogramTotals
import Samkhya.Foundations.ExactArithmetic
import Samkhya.Foundations.Interpolation

/-!
# How far an equi-depth estimate is off

Over a column of finite values, and without rounding, `estimate_range` is the
interpolated mass of the buckets.  The edges are ordered values of the column,
so an end of the query lies strictly inside at most one bucket, and only these
two buckets are estimated: every other one is either missed or counted whole.
-/

namespace Samkhya

open Binary64 Saturating StableSort Interpolation

namespace EquiDepthHistogram

/-- A value that the query asks for. -/
def inRange (lo hi v : F64) : Bool :=
  lo.le v && v.le hi

section Estimate

variable {lo hi bLo bHi : F64}

/-- Without rounding a bucket adds its share of the query. -/
theorem bucketEstimate_exact
    (hquery : lo.le hi = true)
    (hLo : bLo.isFinite = true)
    (hHi : bHi.isFinite = true)
    (horder : bLo.le bHi = true)
    (count : UInt64)
    (x : ℝ) :
    bucketEstimate .exact lo hi bLo bHi count (x : EReal) =
      ((x + count.toNat *
        share Arithmetic.epsilonReal lo.toReal hi.toReal
          bLo.toReal bHi.toReal : ℝ) : EReal) := by
  obtain ⟨hlo, hhi, _⟩ := F64.not_isNaN_of_le hquery
  have hnLo := F64.isFinite_not_isNaN hLo
  have hnHi := F64.isFinite_not_isNaN hHi
  have hltLo := F64.lt_iff_toReal hnHi hlo
  have hltHi := F64.lt_iff_toReal hhi hnLo
  have hleLo := F64.le_iff_toReal hlo hnLo
  have hleHi := F64.le_iff_toReal hnHi hhi
  simp only [bucketEstimate, share, Bool.or_eq_true, Bool.and_eq_true,
    hltLo, hltHi, hleLo, hleHi]
  split_ifs with hmiss hinside
  · rw [mul_zero, add_zero]
  · rw [Arithmetic.exact_ofU64, Arithmetic.exact_add, mul_one]
  · -- both ends of the overlap lie in the bucket
    rw [not_or, not_lt, not_lt] at hmiss
    have hreal := (F64.le_iff_toReal hnLo hnHi).mp horder
    have hmaxNumber := F64.isNaN_max (a := bLo) hlo
    have hmax := F64.toReal_max hnLo hlo
    have hmin := F64.toReal_min hnHi hhi
    have hminNumber : (bHi.min hi).isNaN = false := by
      rw [F64.min, hnHi, hhi, if_neg (by decide), if_neg (by decide)]
      split_ifs
      · exact hhi
      · exact hnHi
    have hmaxFinite : (bLo.max lo).isFinite = true := by
      apply F64.isFinite_of_le_of_le hLo hHi
      · rw [F64.le_iff_toReal hnLo hmaxNumber, hmax]
        exact le_max_left _ _
      · rw [F64.le_iff_toReal hmaxNumber hnHi, hmax]
        exact max_le hreal hmiss.1
    have hminFinite : (bHi.min hi).isFinite = true := by
      apply F64.isFinite_of_le_of_le hLo hHi
      · rw [F64.le_iff_toReal hnLo hminNumber, hmin]
        exact le_min hreal hmiss.2
      · rw [F64.le_iff_toReal hminNumber hnHi, hmin]
        exact min_le_left _ _
    rw [Arithmetic.exact_ofF64 hLo, Arithmetic.exact_ofF64 hHi,
      Arithmetic.exact_ofF64 hmaxFinite,
      Arithmetic.exact_ofF64 hminFinite, Arithmetic.exact_epsilon,
      Arithmetic.exact_ofU64, Arithmetic.exact_ofU64]
    simp only [Arithmetic.exact_sub, Arithmetic.exact_max,
      Arithmetic.exact_div, Arithmetic.exact_mul,
      Arithmetic.exact_add, hmax, hmin]
    simp

end Estimate

section Slices

variable {sorted : List F64} {buckets k : Nat}

/-- The position of the `k`-th bucket in the sorted list. -/
def offset (sorted : List F64) (buckets k : Nat) : Nat :=
  cursorAfter (sorted.length / buckets) (sorted.length % buckets) k

/-- The number of items in the `k`-th bucket. -/
def size (sorted : List F64) (buckets k : Nat) : Nat :=
  depth (sorted.length / buckets) (sorted.length % buckets) k

/-- The items in the `k`-th bucket. -/
def slice (sorted : List F64) (buckets k : Nat) : List F64 :=
  (sorted.drop (offset sorted buckets k)).take (size sorted buckets k)

/-- The value at the `k`-th edge. -/
noncomputable def edge (sorted : List F64) (buckets k : Nat) : ℝ :=
  (sorted.getD (edgeIndex sorted.length buckets k) F64.zero).toReal

theorem offset_succ :
    offset sorted buckets (k + 1) =
      offset sorted buckets k + size sorted buckets k :=
  cursorAfter_succ _ _ _

theorem offset_le
    (hpos : 0 < buckets)
    (hk : k ≤ buckets) :
    offset sorted buckets k ≤ sorted.length := by
  calc
    offset sorted buckets k ≤ offset sorted buckets buckets :=
      cursorAfter_mono hk
    _ = sorted.length := cursorAfter_all hpos

/-- Counting the list is counting its slices. -/
theorem countP_take_offset
    (p : F64 → Bool)
    (k : Nat) :
    (sorted.take (offset sorted buckets k)).countP p =
      ∑ i ∈ Finset.range k, (slice sorted buckets i).countP p := by
  induction k with
  | zero =>
      simp [offset, cursorAfter]
  | succ k ih =>
      rw [offset_succ, List.take_add, List.countP_append, ih,
        Finset.sum_range_succ]
      rfl

theorem countP_eq_sum_slices
    (hpos : 0 < buckets)
    (p : F64 → Bool) :
    sorted.countP p =
      ∑ i ∈ Finset.range buckets,
        (slice sorted buckets i).countP p := by
  have hall : offset sorted buckets buckets = sorted.length :=
    cursorAfter_all hpos
  rw [← countP_take_offset, hall, List.take_length]

theorem length_slice
    (hpos : 0 < buckets)
    (hk : k < buckets) :
    (slice sorted buckets k).length = size sorted buckets k := by
  have hnext : offset sorted buckets (k + 1) ≤ sorted.length :=
    offset_le hpos (Nat.succ_le_of_lt hk)
  rw [offset_succ] at hnext
  rw [slice, List.length_take, List.length_drop]
  omega

section Edges

variable
  (hfinite : ∀ v ∈ sorted, v.isFinite = true)
  (hsorted : sorted.Pairwise (fun a b => b.lt a = false))

include hfinite hsorted

/-- A sorted list of numbers by its values. -/
theorem toReal_le_of_le
    {i j : Nat}
    (hi : i < sorted.length)
    (hj : j < sorted.length)
    (hij : i ≤ j) :
    (sorted.get ⟨i, hi⟩).toReal ≤ (sorted.get ⟨j, hj⟩).toReal := by
  rcases Nat.eq_or_lt_of_le hij with rfl | hlt
  · exact le_rfl
  · have hnot := List.pairwise_iff_get.mp hsorted ⟨i, hi⟩ ⟨j, hj⟩ hlt
    have hni := F64.isFinite_not_isNaN (hfinite _ (List.get_mem _ ⟨i, hi⟩))
    have hnj := F64.isFinite_not_isNaN (hfinite _ (List.get_mem _ ⟨j, hj⟩))
    exact
      (F64.le_iff_toReal hni hnj).mp (F64.le_of_not_lt hnj hni hnot)

omit hfinite hsorted in
theorem edge_eq_get
    (hn : 0 < sorted.length)
    (k : Nat) :
    edge sorted buckets k =
      (sorted.get
        ⟨edgeIndex sorted.length buckets k, edgeIndex_lt hn k⟩).toReal := by
  rw [edge, List.getD_eq_getElem _ _ (edgeIndex_lt hn k)]
  rfl

theorem monotone_edge
    (hn : 0 < sorted.length) :
    Monotone (edge sorted buckets) := by
  intro i j hij
  rw [edge_eq_get hn, edge_eq_get hn]
  exact toReal_le_of_le hfinite hsorted _ _ (edgeIndex_mono hij)

/-- The items of a bucket lie between its edges. -/
theorem edge_le_and_le_edge
    (hpos : 0 < buckets)
    (hk : k < buckets)
    {v : F64}
    (hv : v ∈ slice sorted buckets k) :
    edge sorted buckets k ≤ v.toReal ∧
      v.toReal ≤ edge sorted buckets (k + 1) := by
  obtain ⟨⟨m, hm⟩, rfl⟩ := List.mem_iff_get.mp hv
  have hnext : offset sorted buckets (k + 1) ≤ sorted.length :=
    offset_le hpos (Nat.succ_le_of_lt hk)
  have hsize : m < size sorted buckets k := by
    rwa [length_slice hpos hk] at hm
  rw [offset_succ] at hnext
  have hindex : offset sorted buckets k + m < sorted.length := by
    omega
  have hn : 0 < sorted.length := Nat.zero_lt_of_lt hindex
  have hget :
      (slice sorted buckets k).get ⟨m, hm⟩ =
        sorted.get ⟨offset sorted buckets k + m, hindex⟩ := by
    simp [slice]
  have hlow :
      edgeIndex sorted.length buckets k ≤ offset sorted buckets k + m := by
    unfold edgeIndex offset
    omega
  have hhigh :
      offset sorted buckets k + m ≤
        edgeIndex sorted.length buckets (k + 1) := by
    have hsucc :
        offset sorted buckets (k + 1) =
          offset sorted buckets k + size sorted buckets k :=
      offset_succ
    unfold edgeIndex
    unfold offset at hsucc hnext hindex ⊢
    rw [hsucc]
    omega
  rw [hget, edge_eq_get hn, edge_eq_get hn]
  exact
    ⟨toReal_le_of_le hfinite hsorted _ _ hlow,
      toReal_le_of_le hfinite hsorted _ _ hhigh⟩

/-- What the slices hold of a query, bucket by bucket. -/
theorem truth_slices
    {lo hi : F64}
    (hquery : lo.le hi = true)
    (hpos : 0 < buckets) :
    Truth lo.toReal hi.toReal (edge sorted buckets)
      (fun k => (size sorted buckets k : ℝ))
      (fun k =>
        ((slice sorted buckets k).countP (inRange lo hi) : ℝ))
      buckets := by
  obtain ⟨hlo, hhi, _⟩ := F64.not_isNaN_of_le hquery
  have hrange :
      ∀ k, ∀ v ∈ slice sorted buckets k,
        (inRange lo hi v = true ↔
          lo.toReal ≤ v.toReal ∧ v.toReal ≤ hi.toReal) := by
    intro k v hv
    have hmem : v ∈ sorted :=
      List.mem_of_mem_drop (List.mem_of_mem_take hv)
    have hnumber := F64.isFinite_not_isNaN (hfinite v hmem)
    rw [inRange, Bool.and_eq_true, F64.le_iff_toReal hlo hnumber,
      F64.le_iff_toReal hnumber hhi]
  constructor
  · intro k hk
    exact Nat.cast_nonneg _
  · intro k hk
    rw [← length_slice hpos hk]
    exact_mod_cast List.countP_le_length
  · intro k hk hmiss
    rw [Nat.cast_eq_zero, List.countP_eq_zero]
    intro v hv
    have hedges := edge_le_and_le_edge hfinite hsorted hpos hk hv
    rw [hrange k v hv, not_and_or, not_le, not_le]
    rcases hmiss with hmiss | hmiss
    · exact Or.inl (hedges.2.trans_lt hmiss)
    · exact Or.inr (hmiss.trans_le hedges.1)
  · intro k hk hleft hright
    rw [← length_slice hpos hk, Nat.cast_inj, List.countP_eq_length]
    intro v hv
    have hedges := edge_le_and_le_edge hfinite hsorted hpos hk hv
    rw [hrange k v hv]
    exact ⟨hleft.trans hedges.1, hedges.2.trans hright⟩

end Edges

/-- No bucket is deeper than the rounded-up mean. -/
theorem size_le_ceilDiv
    (hpos : 0 < buckets)
    (k : Nat) :
    size sorted buckets k ≤ sorted.length ⌈/⌉ buckets := by
  have hdiv := Nat.div_add_mod sorted.length buckets
  have hmul := Nat.mul_comm buckets (sorted.length / buckets)
  rw [Nat.ceilDiv_eq_add_pred_div, Nat.le_div_iff_mul_le hpos]
  unfold size depth
  split_ifs
  · rw [Nat.succ_mul]
    omega
  · omega

end Slices

section Range

variable {sorted : List F64} {buckets : Nat} {lo hi : F64}

/-- The interpolated mass of all buckets. -/
noncomputable def mass
    (sorted : List F64)
    (buckets : Nat)
    (lo hi : F64) : ℝ :=
  ∑ i ∈ Finset.range buckets,
    (size sorted buckets i : ℝ) *
      share Arithmetic.epsilonReal lo.toReal hi.toReal
        (edge sorted buckets i) (edge sorted buckets (i + 1))

/-- Every bucket is as deep as counted. -/
theorem toNat_getD_counts
    (hpos : 0 < buckets)
    (hlength : sorted.length ≤ u64Max)
    {i : Nat}
    (hi : i < buckets) :
    ((partition sorted buckets).counts.getD i 0).toNat =
      size sorted buckets i := by
  have hfits : size sorted buckets i ≤ u64Max := by
    have hnext : offset sorted buckets (i + 1) ≤ sorted.length :=
      offset_le hpos (Nat.succ_le_of_lt hi)
    rw [offset_succ] at hnext
    omega
  rw [counts_partition, List.getD_eq_getElem _ _ (by simpa using hi),
    List.getElem_map, List.getElem_range]
  exact toNat_ofNat_of_le hfits

theorem getD_boundaries
    {i : Nat}
    (hi : i ≤ buckets) :
    (partition sorted buckets).boundaries.getD i F64.zero =
      sorted.getD (edgeIndex sorted.length buckets i) F64.zero := by
  have hlt : i < (partition sorted buckets).boundaries.length := by
    rw [boundaries_partition, List.length_map, List.length_range]
    exact Nat.lt_succ_of_le hi
  rw [List.getD_eq_getElem _ _ hlt]
  simp [boundaries_partition]

theorem isFinite_edge
    (hfinite : ∀ v ∈ sorted, v.isFinite = true)
    (hn : 0 < sorted.length)
    (buckets k : Nat) :
    (sorted.getD (edgeIndex sorted.length buckets k)
      F64.zero).isFinite = true := by
  rw [List.getD_eq_getElem _ _ (edgeIndex_lt hn k)]
  exact hfinite _ (List.getElem_mem _)

/-- The bucket loop computes the interpolated mass. -/
theorem foldl_bucketEstimate_eq_mass
    (hfinite : ∀ v ∈ sorted, v.isFinite = true)
    (hsorted : sorted.Pairwise (fun a b => b.lt a = false))
    (hquery : lo.le hi = true)
    (hpos : 0 < buckets)
    (hn : 0 < sorted.length)
    (hlength : sorted.length ≤ u64Max) :
    (List.range (partition sorted buckets).counts.length).foldl
        (fun estimate i =>
          bucketEstimate .exact lo hi
            ((partition sorted buckets).boundaries.getD i F64.zero)
            ((partition sorted buckets).boundaries.getD (i + 1) F64.zero)
            ((partition sorted buckets).counts.getD i 0) estimate)
        (Arithmetic.exact.ofU64 0) =
      (mass sorted buckets lo hi : EReal) := by
  have hcounts :
      (partition sorted buckets).counts.length = buckets := by
    rw [counts_partition, List.length_map, List.length_range]
  have hprefix :
      ∀ k ≤ buckets,
        (List.range k).foldl
            (fun estimate i =>
              bucketEstimate .exact lo hi
                ((partition sorted buckets).boundaries.getD i F64.zero)
                ((partition sorted buckets).boundaries.getD (i + 1)
                  F64.zero)
                ((partition sorted buckets).counts.getD i 0) estimate)
            (Arithmetic.exact.ofU64 0) =
          ((∑ i ∈ Finset.range k,
            (size sorted buckets i : ℝ) *
              share Arithmetic.epsilonReal lo.toReal hi.toReal
                (edge sorted buckets i)
                (edge sorted buckets (i + 1)) : ℝ) : EReal) := by
    intro k hk
    induction k with
    | zero =>
        simp [Arithmetic.exact_ofU64]
    | succ k ih =>
        have hmono : Monotone (edge sorted buckets) :=
          monotone_edge hfinite hsorted hn
        have hleft := isFinite_edge hfinite hn buckets k
        have hright := isFinite_edge hfinite hn buckets (k + 1)
        have horder :=
          (F64.le_iff_toReal
            (F64.isFinite_not_isNaN hleft)
            (F64.isFinite_not_isNaN hright)).mpr
            (hmono (Nat.le_succ k))
        rw [List.range_succ, List.foldl_append, List.foldl_cons,
          List.foldl_nil, ih (Nat.le_of_succ_le hk),
          getD_boundaries (Nat.le_of_succ_le hk), getD_boundaries hk,
          bucketEstimate_exact hquery hleft hright horder,
          toNat_getD_counts hpos hlength hk, Finset.sum_range_succ]
        rfl
  rw [hcounts, hprefix buckets le_rfl]
  rfl

theorem mass_nonneg : 0 ≤ mass sorted buckets lo hi :=
  Finset.sum_nonneg fun _ _ =>
    mul_nonneg (Nat.cast_nonneg _)
      (share_nonneg Arithmetic.epsilonReal_pos)

/-- All slices together are the list. -/
theorem sum_size
    (hpos : 0 < buckets) :
    ∑ i ∈ Finset.range buckets, size sorted buckets i =
      sorted.length := by
  have hall :
      sorted.countP (fun _ => true) =
        ∑ i ∈ Finset.range buckets,
          (slice sorted buckets i).countP (fun _ => true) :=
    countP_eq_sum_slices hpos _
  rw [List.countP_true] at hall
  rw [hall]
  refine Finset.sum_congr rfl fun i hi => ?_
  exact (length_slice hpos (Finset.mem_range.mp hi)).symm

theorem mass_le_length
    (hpos : 0 < buckets) :
    mass sorted buckets lo hi ≤ sorted.length := by
  have hsize : ∑ i ∈ Finset.range buckets, size sorted buckets i = _ :=
    sum_size hpos
  rw [← hsize, Nat.cast_sum]
  exact
    Finset.sum_le_sum fun i _ =>
      mul_le_of_le_one_right (Nat.cast_nonneg _)
        (share_le_one Arithmetic.epsilonReal_pos)

/-- The estimate is the integer part of the interpolated mass. -/
theorem toNat_estimateRange_partition
    (hfinite : ∀ v ∈ sorted, v.isFinite = true)
    (hsorted : sorted.Pairwise (fun a b => b.lt a = false))
    (hquery : lo.le hi = true)
    (hpos : 0 < buckets)
    (hn : 0 < sorted.length)
    (hlength : sorted.length ≤ u64Max) :
    ((partition sorted buckets).estimateRange .exact lo hi).toNat =
      ⌊mass sorted buckets lo hi⌋₊ := by
  have hfloor : ⌊mass sorted buckets lo hi⌋₊ ≤ u64Max := by
    have hmass : mass sorted buckets lo hi ≤ sorted.length :=
      mass_le_length hpos
    exact (Nat.floor_le_of_le hmass).trans hlength
  have hnonempty :
      (partition sorted buckets).counts.isEmpty = false := by
    rw [counts_partition, List.isEmpty_map]
    cases buckets with
    | zero => exact absurd hpos (Nat.lt_irrefl 0)
    | succ buckets => simp [List.range_succ]
  have hmax :
      Arithmetic.exact.max (mass sorted buckets lo hi : EReal)
          (Arithmetic.exact.ofU64 0) =
        (mass sorted buckets lo hi : EReal) := by
    rw [Arithmetic.exact_ofU64, Arithmetic.exact_max]
    simp [mass_nonneg]
  rw [estimateRange, F64.not_lt_of_le hquery, hnonempty]
  simp only [Bool.or_self, Bool.false_eq_true, if_false]
  rw [foldl_bucketEstimate_eq_mass hfinite hsorted hquery hpos hn hlength,
    hmax, Arithmetic.exact_toU64]
  have hmin :
      Nat.min ⌊mass sorted buckets lo hi⌋₊ (2 ^ 64 - 1) =
        ⌊mass sorted buckets lo hi⌋₊ :=
    Nat.min_eq_left hfloor
  rw [hmin]
  exact toNat_ofNat_of_le hfloor

end Range

/-- What an equi-depth histogram promises of the column it is built of. -/
structure Guarantee
    (values : List F64)
    (buckets : Nat)
    (h : EquiDepthHistogram) : Prop where
  edges_sorted : h.boundaries.Pairwise (fun a b => a.le b = true)
  length_boundaries : h.boundaries.length = h.counts.length + 1
  length_counts : h.counts.length = Nat.min buckets values.length
  sum_counts : (h.counts.map UInt64.toNat).sum = values.length
  counts_near :
    ∀ c ∈ h.counts, ∀ d ∈ h.counts, c.toNat ≤ d.toNat + 1
  estimate_le :
    ∀ lo hi, lo.le hi = true →
      (h.estimateRange .exact lo hi).toNat ≤
        values.countP (inRange lo hi) +
          2 * (values.length ⌈/⌉ h.counts.length)
  le_estimate :
    ∀ lo hi, lo.le hi = true →
      values.countP (inRange lo hi) ≤
        (h.estimateRange .exact lo hi).toNat +
          2 * (values.length ⌈/⌉ h.counts.length)
  covering :
    ∀ lo hi, lo.le hi = true →
      (∀ v ∈ values, inRange lo hi v = true) →
      (h.estimateRange .exact lo hi).toNat = values.length
  le_length :
    ∀ lo hi, lo.le hi = true →
      (h.estimateRange .exact lo hi).toNat ≤ values.length
  widening :
    ∀ lo hi lo' hi', lo.le hi = true → lo'.le lo = true →
      hi.le hi' = true →
      (h.estimateRange .exact lo hi).toNat ≤
        (h.estimateRange .exact lo' hi').toNat

section Guarantee

variable {sorted : List F64} {buckets : Nat} {lo hi : F64}

/-- The interpolated mass is within two buckets of what the query holds. -/
theorem abs_mass_sub_le
    (hfinite : ∀ v ∈ sorted, v.isFinite = true)
    (hsorted : sorted.Pairwise (fun a b => b.lt a = false))
    (hquery : lo.le hi = true)
    (hpos : 0 < buckets)
    (hn : 0 < sorted.length) :
    |mass sorted buckets lo hi -
        (sorted.countP (inRange lo hi) : ℝ)| ≤
      2 * (sorted.length ⌈/⌉ buckets : Nat) := by
  have herror :=
    abs_sum_share_sub_le Arithmetic.epsilonReal_pos
      (monotone_edge hfinite hsorted hn)
      (truth_slices hfinite hsorted hquery hpos)
      (Nat.cast_nonneg (sorted.length ⌈/⌉ buckets))
      (fun i _ => Nat.cast_le.mpr (size_le_ceilDiv hpos i))
  rw [countP_eq_sum_slices hpos, Nat.cast_sum]
  exact herror

/-- A query that covers the column has the mass of all of it. -/
theorem mass_of_covering
    (hfinite : ∀ v ∈ sorted, v.isFinite = true)
    (hsorted : sorted.Pairwise (fun a b => b.lt a = false))
    (hquery : lo.le hi = true)
    (hpos : 0 < buckets)
    (hn : 0 < sorted.length)
    (hcovers : ∀ v ∈ sorted, inRange lo hi v = true) :
    mass sorted buckets lo hi = sorted.length := by
  obtain ⟨hlo, hhi, _⟩ := F64.not_isNaN_of_le hquery
  have hmono : Monotone (edge sorted buckets) :=
    monotone_edge hfinite hsorted hn
  have hedge :
      ∀ k,
        lo.toReal ≤ edge sorted buckets k ∧
          edge sorted buckets k ≤ hi.toReal := by
    intro k
    have hmem :=
      List.get_mem sorted
        ⟨edgeIndex sorted.length buckets k, edgeIndex_lt hn k⟩
    have hnumber := F64.isFinite_not_isNaN (hfinite _ hmem)
    have hrange := hcovers _ hmem
    rw [inRange, Bool.and_eq_true, F64.le_iff_toReal hlo hnumber,
      F64.le_iff_toReal hnumber hhi] at hrange
    rw [edge_eq_get hn]
    exact hrange
  have hsize : ∑ i ∈ Finset.range buckets, size sorted buckets i = _ :=
    sum_size hpos
  rw [← hsize, Nat.cast_sum, mass]
  refine Finset.sum_congr rfl fun i _ => ?_
  rw [share_eq_one (hmono (Nat.le_succ i)) (hedge i).1 (hedge (i + 1)).2,
    mul_one]

/-- A wider query has no less mass. -/
theorem mass_mono
    {lo' hi' : F64}
    (hfinite : ∀ v ∈ sorted, v.isFinite = true)
    (hsorted : sorted.Pairwise (fun a b => b.lt a = false))
    (hn : 0 < sorted.length)
    (hlo : lo'.le lo = true)
    (hhi : hi.le hi' = true) :
    mass sorted buckets lo hi ≤ mass sorted buckets lo' hi' := by
  have hmono : Monotone (edge sorted buckets) :=
    monotone_edge hfinite hsorted hn
  have hleft := F64.toReal_le_toReal_iff.mpr (F64.not_isNaN_of_le hlo).2.2
  have hright := F64.toReal_le_toReal_iff.mpr (F64.not_isNaN_of_le hhi).2.2
  refine Finset.sum_le_sum fun i _ => ?_
  exact
    mul_le_mul_of_nonneg_left
      (share_mono Arithmetic.epsilonReal_pos (hmono (Nat.le_succ i))
        hleft hright)
      (Nat.cast_nonneg _)

/-- The depths of two buckets differ by at most one item. -/
theorem counts_near_partition
    (hpos : 0 < buckets)
    (hlength : sorted.length ≤ u64Max) :
    ∀ c ∈ (partition sorted buckets).counts,
      ∀ d ∈ (partition sorted buckets).counts,
        c.toNat ≤ d.toNat + 1 := by
  have hcount :
      ∀ c ∈ (partition sorted buckets).counts,
        ∃ i, c.toNat = size sorted buckets i := by
    intro c hc
    obtain ⟨i, hi, rfl⟩ := List.mem_iff_getElem.mp hc
    have hlt : i < buckets := by
      simpa [counts_partition] using hi
    refine ⟨i, ?_⟩
    rw [← List.getD_eq_getElem _ 0 hi]
    exact toNat_getD_counts hpos hlength hlt
  intro c hc d hd
  obtain ⟨i, hi⟩ := hcount c hc
  obtain ⟨j, hj⟩ := hcount d hd
  rw [hi, hj]
  unfold size depth
  split_ifs <;> omega

/-- A sorted column of finite values, cut into buckets. -/
theorem guarantee_partition
    {values : List F64}
    {requested : Nat}
    (hperm : sorted.Perm values)
    (hfinite : ∀ v ∈ sorted, v.isFinite = true)
    (hsorted : sorted.Pairwise (fun a b => b.lt a = false))
    (htwo : minBuckets ≤ requested)
    (hvalues : minBuckets ≤ sorted.length)
    (hlength : sorted.length ≤ u64Max) :
    Guarantee values requested
      (partition sorted (Nat.min requested sorted.length)) := by
  have htwo_le : minBuckets ≤ Nat.min requested sorted.length :=
    Nat.le_min.mpr ⟨htwo, hvalues⟩
  have hpos : 0 < Nat.min requested sorted.length :=
    Nat.lt_of_lt_of_le (by decide) htwo_le
  have hn : 0 < sorted.length := Nat.lt_of_lt_of_le (by decide) hvalues
  have hcounts :
      (partition sorted
        (Nat.min requested sorted.length)).counts.length =
        Nat.min requested sorted.length := by
    rw [counts_partition, List.length_map, List.length_range]
  have hvalid :
      (partition sorted (Nat.min requested sorted.length)).Valid :=
    valid_partition htwo_le (Nat.min_le_right _ _) hlength hsorted
      (fun k _ =>
        F64.isFinite_not_isNaN (isFinite_edge hfinite hn _ k))
  have hestimate :
      ∀ lo hi, lo.le hi = true →
        ((partition sorted
            (Nat.min requested sorted.length)).estimateRange
              .exact lo hi).toNat =
          ⌊mass sorted (Nat.min requested sorted.length) lo hi⌋₊ :=
    fun lo hi hquery =>
      toNat_estimateRange_partition hfinite hsorted hquery hpos hn hlength
  have hnear :
      ∀ lo hi, lo.le hi = true →
        ⌊mass sorted (Nat.min requested sorted.length) lo hi⌋₊ ≤
            sorted.countP (inRange lo hi) +
              2 * (sorted.length ⌈/⌉
                Nat.min requested sorted.length) ∧
          sorted.countP (inRange lo hi) ≤
            ⌊mass sorted (Nat.min requested sorted.length) lo hi⌋₊ +
              2 * (sorted.length ⌈/⌉
                Nat.min requested sorted.length) := by
    intro lo hi hquery
    have habs := abs_mass_sub_le hfinite hsorted hquery hpos hn
    exact floor_near mass_nonneg (by simpa using habs)
  constructor
  · exact hvalid.pairwise
  · exact hvalid.length_eq
  · rw [hcounts, hperm.length_eq]
  · rw [sum_counts_partition hpos hlength, hperm.length_eq]
  · exact counts_near_partition hpos hlength
  · intro lo hi hquery
    rw [hestimate lo hi hquery, hcounts, ← hperm.length_eq,
      ← hperm.countP_eq]
    exact (hnear lo hi hquery).1
  · intro lo hi hquery
    rw [hestimate lo hi hquery, hcounts, ← hperm.length_eq,
      ← hperm.countP_eq]
    exact (hnear lo hi hquery).2
  · intro lo hi hquery hcovers
    rw [hestimate lo hi hquery,
      mass_of_covering hfinite hsorted hquery hpos hn
        (fun v hv => hcovers v (hperm.mem_iff.mp hv)),
      Nat.floor_natCast, hperm.length_eq]
  · intro lo hi hquery
    rw [hestimate lo hi hquery, ← hperm.length_eq]
    exact Nat.floor_le_of_le (mass_le_length hpos)
  · intro lo hi lo' hi' hquery hlo hhi
    have hwide := F64.le_trans hlo (F64.le_trans hquery hhi)
    rw [hestimate lo hi hquery, hestimate lo' hi' hwide]
    exact
      Nat.floor_le_floor (mass_mono hfinite hsorted hn hlo hhi)

end Guarantee

end EquiDepthHistogram

/--
**The error guarantee of equi-depth histograms.**  Two values and two buckets
are enough for `from_values` to build one; its buckets are of nearly equal
depth, and an estimate is within twice that depth of the truth, exact for a
query that covers the column, and larger for a wider query.
-/
theorem equiDepth_guarantee
    (sort : SortBy comparator)
    (values : F64Slice)
    (buckets : UInt64)
    (hfinite : ∀ v ∈ values.values, v.isFinite = true)
    (hvalues : 2 ≤ values.values.length)
    (hbuckets : 2 ≤ buckets.toNat) :
    ∃ h,
      EquiDepthHistogram.fromValues sort values buckets =
          some (.ok h) ∧
        EquiDepthHistogram.Guarantee values.values buckets.toNat h := by
  have htotal :=
    EquiDepthHistogram.totalOn_of_numbers
      (fun v hv => F64.isFinite_not_isNaN (hfinite v hv))
  have hrun := sort.sorts _ htotal
  have hperm := sort.perm _ _ hrun
  have hlength := hperm.length_eq
  have hbytes := values.length_le
  have hmax : isizeMax ≤ u64Max := by
    decide
  refine
    ⟨_, EquiDepthHistogram.fromValues_eq_ok_iff.mpr
      ⟨hbuckets, hvalues, _, hrun, rfl⟩, ?_⟩
  exact
    EquiDepthHistogram.guarantee_partition hperm
      (fun v hv => hfinite v (hperm.mem_iff.mp hv))
      (htotal.pairwise.imp EquiDepthHistogram.isLE_comparator_iff.mp)
      hbuckets (hvalues.trans_eq hlength.symm) (by omega)

/-- A column with a tie that fills a bucket. -/
def tiedColumn : F64Slice where
  values := [.one, .zero, .one, .one]
  length_le := by decide

theorem equiDepth_guarantee_tiedColumn :
    ∃ h,
      EquiDepthHistogram.fromValues
          (SortBy.rearranging comparator id List.Perm.refl)
          tiedColumn 2 =
        some (.ok h) ∧
      EquiDepthHistogram.Guarantee [.one, .zero, .one, .one] 2 h :=
  equiDepth_guarantee
    (SortBy.rearranging comparator id List.Perm.refl) tiedColumn 2
    (by decide +kernel) (by decide) (by decide)

end Samkhya
