import Mathlib
import Samkhya.Core.CorrelatedHistogram
import Samkhya.Core.EquiDepth

/-!
# What the total of a histogram says

A histogram is consistent when its total is the exact sum of its counts, and a
query that covers its whole support is estimated to match that total.  Both
constructors build consistent histograms.  The decoders accept others: the
one-column decoder compares the total with a sum that saturates, the two-column
decoder does not look at the total, nor at the order of the bounds.
-/

namespace Samkhya

open FieldCodec Binary64 Saturating StableSort CellArray

namespace EquiDepthHistogram

variable {h : EquiDepthHistogram} {lo hi : F64}

/-- The exact number of items in all buckets. -/
def countSum (h : EquiDepthHistogram) : Nat :=
  (h.counts.map UInt64.toNat).sum

/-- The query reaches from the smallest to the largest value. -/
def Covers (h : EquiDepthHistogram) (lo hi : F64) : Prop :=
  (∀ least ∈ h.min, lo.le least = true) ∧
  ∀ greatest ∈ h.max, greatest.le hi = true

/-- The total is the exact sum, and what a covering query is estimated to match. -/
def Consistent (h : EquiDepthHistogram) : Prop :=
  h.total.toNat = h.countSum ∧
  ∀ lo hi, h.Covers lo hi → h.estimateRange .exact lo hi = h.total

section Covering

/-- Bucket edges never decrease. -/
theorem Valid.pairwise
    (hvalid : h.Valid) :
    h.boundaries.Pairwise (fun a b => a.le b = true) := by
  have hchain : h.boundaries.IsChain (fun a b => a.le b = true) := by
    rw [List.isChain_iff_getElem]
    intro i hi
    exact
      F64.le_of_not_lt
        (hvalid.numbers _ (List.getElem_mem _))
        (hvalid.numbers _ (List.getElem_mem _))
        (List.isChain_iff_getElem.mp hvalid.increasing i hi)
  have htrans : IsTrans F64 (fun a b => a.le b = true) :=
    ⟨fun _ _ _ => F64.le_trans⟩
  exact hchain.pairwise

/-- A covering query covers every bucket edge. -/
theorem Covers.edges
    (hcovers : h.Covers lo hi)
    (hvalid : h.Valid)
    {b : F64}
    (hb : b ∈ h.boundaries) :
    lo.le b = true ∧ b.le hi = true := by
  obtain ⟨hleast, hgreatest⟩ := hcovers
  constructor
  · cases hedges : h.boundaries with
    | nil =>
        rw [hedges] at hb
        cases hb
    | cons least rest =>
        have hpairwise := hvalid.pairwise
        rw [EquiDepthHistogram.min, hedges] at hleast
        rw [hedges] at hb hpairwise
        have hlo := hleast least rfl
        rcases List.mem_cons.mp hb with rfl | hrest
        · exact hlo
        · exact
            F64.le_trans hlo
              (List.rel_of_pairwise_cons hpairwise hrest)
  · obtain ⟨rest, greatest, hedges⟩ :=
      List.eq_nil_or_concat h.boundaries |>.resolve_left
        (List.ne_nil_of_mem hb)
    have hpairwise := hvalid.pairwise
    rw [List.concat_eq_append] at hedges
    rw [EquiDepthHistogram.max, hedges] at hgreatest
    rw [hedges] at hb hpairwise
    have hhi := hgreatest greatest (by simp)
    rcases List.mem_append.mp hb with hrest | hlast
    · exact
        F64.le_trans
          ((List.pairwise_append.mp hpairwise).2.2 b hrest greatest
            (List.mem_singleton_self _)) hhi
    · rw [List.mem_singleton.mp hlast]
      exact hhi

/-- A bucket inside the query adds its count. -/
theorem bucketEstimate_of_inside
    {bLo bHi : F64}
    (hLo : lo.le bLo = true ∧ bLo.le hi = true)
    (hHi : lo.le bHi = true ∧ bHi.le hi = true)
    (count : UInt64)
    (estimate : EReal) :
    bucketEstimate .exact lo hi bLo bHi count estimate =
      Arithmetic.exact.add estimate
        (Arithmetic.exact.ofU64 count) := by
  simp only [bucketEstimate]
  rw [F64.not_lt_of_le hHi.1, F64.not_lt_of_le hLo.2, hLo.1, hHi.2,
    if_neg (by decide), if_pos (by decide)]

/-- The estimate of a covering query adds up the counts. -/
theorem foldl_bucketEstimate
    (hvalid : h.Valid)
    (hcovers : h.Covers lo hi)
    {k : Nat}
    (hk : k ≤ h.counts.length) :
    (List.range k).foldl
        (fun estimate i =>
          bucketEstimate .exact lo hi
            (h.boundaries.getD i F64.zero)
            (h.boundaries.getD (i + 1) F64.zero)
            (h.counts.getD i 0) estimate)
        (Arithmetic.exact.ofU64 0) =
      (((((List.range k).map
          (fun i => (h.counts.getD i 0).toNat)).sum : Nat) : ℝ) :
        EReal) := by
  have hedge :
      ∀ i ≤ h.counts.length,
        lo.le (h.boundaries.getD i F64.zero) = true ∧
          (h.boundaries.getD i F64.zero).le hi = true := by
    intro i hi
    have hlt : i < h.boundaries.length := by
      rw [hvalid.length_eq]
      exact Nat.lt_succ_of_le hi
    rw [List.getD_eq_getElem _ _ hlt]
    exact hcovers.edges hvalid (List.getElem_mem hlt)
  induction k with
  | zero =>
      simp [Arithmetic.exact]
  | succ k ih =>
      rw [List.range_succ, List.foldl_append, List.foldl_cons,
        List.foldl_nil, ih (Nat.le_of_succ_le hk),
        bucketEstimate_of_inside (hedge k (Nat.le_of_succ_le hk))
          (hedge (k + 1) hk),
        Arithmetic.exact_add_natCast]
      simp

/-- A covering query of a valid histogram is estimated to match all of it. -/
theorem estimateRange_of_covers
    (hvalid : h.Valid)
    (hcovers : h.Covers lo hi) :
    h.estimateRange .exact lo hi = h.total := by
  have htwo := hvalid.two_le
  have hsum :
      ((List.range h.counts.length).map
          (fun i => (h.counts.getD i 0).toNat)).sum =
        h.countSum := by
    have hmap := congrArg (List.map UInt64.toNat)
      (map_getD_range h.counts 0)
    rw [List.map_map] at hmap
    exact congrArg List.sum hmap
  have hlt : 0 < h.boundaries.length := by
    rw [hvalid.length_eq]
    exact Nat.succ_pos _
  obtain ⟨hlo, hhi⟩ :=
    hcovers.edges hvalid (List.getElem_mem hlt)
  have hnonempty : h.counts.isEmpty = false := by
    cases hcounts : h.counts with
    | nil =>
        rw [hcounts] at htwo
        exact absurd htwo (by decide)
    | cons _ _ =>
        rfl
  unfold estimateRange
  rw [F64.not_lt_of_le (F64.le_trans hlo hhi), hnonempty,
    if_neg (by decide)]
  simp only
  rw [foldl_bucketEstimate hvalid hcovers le_rfl, hsum,
    Arithmetic.exact_toU64_natCast]
  apply UInt64.toNat_inj.mp
  rw [toNat_ofNat_of_le (Nat.min_le_right _ _)]
  exact hvalid.total_eq.symm

end Covering

/-- A valid histogram is consistent unless its counts overflow. -/
theorem consistent_iff
    (hvalid : h.Valid) :
    h.Consistent ↔ h.countSum ≤ u64Max := by
  constructor
  · rintro ⟨htotal, _⟩
    rw [← htotal]
    exact toNat_le_u64Max _
  · intro hle
    refine ⟨?_, fun lo hi => estimateRange_of_covers hvalid⟩
    rw [hvalid.total_eq]
    exact Nat.min_eq_left hle

/-- What `from_values` builds of a column with numbers at its edges. -/
theorem consistent_of_fromValues
    {sort : SortBy comparator}
    {values : F64Slice}
    {buckets : UInt64}
    (hedges : NumberEdges values buckets)
    (hbuild : fromValues sort values buckets = some (.ok h)) :
    h.Consistent := by
  have hsurvives : h.Survives fun _ => "" :=
    survives_of_fromValues_iff.mpr hedges sort h hbuild
  obtain ⟨htwo, hvalues, sorted, hrun, rfl⟩ :=
    fromValues_eq_ok_iff.mp hbuild
  have hbytes := values.length_le
  rw [← sort.length_run hrun] at hbytes hvalues
  have hvalid :=
    (survives_iff (fits_partition (Nat.min_le_right _ _) hbytes)).mp
      hsurvives
  have hlength : sorted.length ≤ u64Max := by
    have hmax : isizeMax ≤ u64Max := by
      decide
    omega
  have hpos : 0 < Nat.min buckets.toNat sorted.length :=
    Nat.lt_of_lt_of_le (by decide : 0 < minBuckets)
      (Nat.le_min.mpr ⟨htwo, hvalues⟩)
  rw [consistent_iff hvalid, countSum,
    sum_counts_partition hpos hlength]
  exact hlength

end EquiDepthHistogram

namespace CorrelatedHistogram2D

variable {ρ : Type} {A : Arithmetic ρ} {h : CorrelatedHistogram2D}

/-- The exact number of rows in all cells. -/
def cellSum (s : CorrelatedFields) : Nat :=
  (s.cells.map UInt64.toNat).sum

/-- A query that reaches from the least to the greatest value of each column. -/
structure Covers
    (h : CorrelatedHistogram2D)
    (aLo aHi bLo bHi : F64) : Prop where
  aLo_le : aLo.le h.aMin = true
  le_aHi : h.aMax.le aHi = true
  bLo_le : bLo.le h.bMin = true
  le_bHi : h.bMax.le bHi = true

/-- The total is the exact sum, and what a covering query is estimated to match. -/
def Consistent (h : CorrelatedHistogram2D) : Prop :=
  h.total.toNat = cellSum h.toCorrelatedFields ∧
  ∀ aLo aHi bLo bHi, h.Covers aLo aHi bLo bHi →
    h.estimateRange .exact aLo aHi bLo bHi = h.total

/-- The total is the sum of the cells, and bounds of counted rows are in order. -/
structure Ordered (s : CorrelatedFields) : Prop where
  total_eq : s.total.toNat = cellSum s
  bounds_le :
    s.total = 0 ∨ s.aMin.le s.aMax = true ∧ s.bMin.le s.bMax = true

section Covering

variable {qLo qHi colMin colMax : F64} {nbins : UInt32}

/-- A covering range covers every bucket of a column in order. -/
theorem rangeBucketSpan_of_covers
    (hlo : qLo.le colMin = true)
    (hcol : colMin.le colMax = true)
    (hhi : colMax.le qHi = true)
    (hbins : nbins ≠ 0) :
    rangeBucketSpan A qLo qHi colMin colMax nbins =
      some (0, nbins.toNat - 1) := by
  have hpos : 0 < nbins.toNat := toNat_pos_of_ne hbins
  have hmin := F64.le_trans hcol hhi
  have hmax := F64.le_trans hlo hcol
  unfold rangeBucketSpan
  rw [F64.not_lt_of_le (F64.le_trans hlo hmin),
    F64.not_lt_of_le hcol, if_neg (by decide), if_neg hpos.ne',
    if_neg (by decide)]
  cases hflat : colMax.le colMin with
  | true =>
      rw [hlo, hmin]
      rfl
  | false =>
      -- the ends of the query fall into the outer buckets
      have hfirst : bucketIndex A qLo colMin colMax nbins = 0 := by
        simp only [bucketIndex]
        rw [if_neg hpos.ne', hflat, hlo]
        rfl
      have hlast :
          bucketIndex A qHi colMin colMax nbins =
            nbins.toNat - 1 := by
        have hnot : qHi.le colMin = false := by
          rw [← Bool.not_eq_true]
          intro hle
          rw [F64.le_trans hhi hle] at hflat
          cases hflat
        simp only [bucketIndex]
        rw [if_neg hpos.ne', hflat, hnot, hhi]
        rfl
      rw [hfirst, hlast, F64.not_lt_of_le hmin,
        F64.not_lt_of_le hmax]
      rfl

/-- A column whose bounds are out of order has no buckets to cover. -/
theorem rangeBucketSpan_of_lt
    (hcol : colMax.lt colMin = true) :
    rangeBucketSpan A qLo qHi colMin colMax nbins = none := by
  unfold rangeBucketSpan
  split_ifs <;> rfl

/-- All buckets of a column. -/
theorem inclusive_all
    (hbins : nbins ≠ 0) :
    inclusive (0, nbins.toNat - 1) = List.range nbins.toNat := by
  have hpos : 0 < nbins.toNat := toNat_pos_of_ne hbins
  rw [inclusive, List.range_eq_range']
  congr 1
  omega

/-- A covering query of a histogram with ordered bounds reads all its cells. -/
theorem toNat_estimateRange_of_covers
    {aLo aHi bLo bHi : F64}
    (hcovers : h.Covers aLo aHi bLo bHi)
    (htotal : h.total ≠ 0)
    (ha : h.aMin.le h.aMax = true)
    (hb : h.bMin.le h.bMax = true) :
    (h.estimateRange A aLo aHi bLo bHi).toNat =
      Nat.min (cellSum h.toCorrelatedFields) u64Max := by
  have hcells :
      (List.range h.colABins.toNat).flatMap
          (fun i =>
            (List.range h.colBBins.toNat).map
              (fun j =>
                h.cells.getD (position h.toCorrelatedFields i j)
                  0)) =
        h.cells :=
    flatMap_rowMajor h.wellFormed.length_eq 0
  have hestimate :
      h.estimateRange A aLo aHi bLo bHi =
        h.cells.foldl saturatingAddU64 0 := by
    unfold estimateRange
    rw [if_neg htotal,
      rangeBucketSpan_of_covers hcovers.aLo_le ha hcovers.le_aHi
        h.wellFormed.colABins_ne,
      rangeBucketSpan_of_covers hcovers.bLo_le hb hcovers.le_bHi
        h.wellFormed.colBBins_ne]
    simp only
    rw [inclusive_all h.wellFormed.colABins_ne,
      inclusive_all h.wellFormed.colBBins_ne]
    conv_rhs => rw [← hcells, List.foldl_flatMap]
    simp only [List.foldl_map]
  rw [hestimate, toNat_foldl_saturatingAddU64]
  simp [cellSum]

end Covering

/-- A histogram is consistent exactly when its fields are in order. -/
theorem consistent_iff :
    h.Consistent ↔ Ordered h.toCorrelatedFields := by
  constructor
  · rintro ⟨htotal, hestimate⟩
    refine ⟨htotal, ?_⟩
    by_contra hbounds
    rw [not_or, not_and_or] at hbounds
    obtain ⟨hne, hbounds⟩ := hbounds
    have hnumber :
        ∀ name v, (name, v) ∈ h.bounds → v.isNaN = false :=
      fun _ _ hmem => h.wellFormed.numbers _ hmem
    have haMin : h.aMin.isNaN = false :=
      hnumber "a_min" _ (by simp [CorrelatedFields.bounds])
    have haMax : h.aMax.isNaN = false :=
      hnumber "a_max" _ (by simp [CorrelatedFields.bounds])
    have hbMin : h.bMin.isNaN = false :=
      hnumber "b_min" _ (by simp [CorrelatedFields.bounds])
    have hbMax : h.bMax.isNaN = false :=
      hnumber "b_max" _ (by simp [CorrelatedFields.bounds])
    -- the query of the bounds themselves finds no bucket
    have hall :=
      hestimate h.aMin h.aMax h.bMin h.bMax
        ⟨F64.le_self haMin, F64.le_self haMax, F64.le_self hbMin,
          F64.le_self hbMax⟩
    rw [estimateRange, if_neg hne] at hall
    have hlt :
        h.aMax.lt h.aMin = true ∨ h.bMax.lt h.bMin = true := by
      by_contra hnot
      simp only [not_or, Bool.not_eq_true] at hnot
      rcases hbounds with hbound | hbound
      · exact hbound (F64.le_of_not_lt haMax haMin hnot.1)
      · exact hbound (F64.le_of_not_lt hbMax hbMin hnot.2)
    rcases hlt with hlt | hlt
    · rw [rangeBucketSpan_of_lt hlt] at hall
      exact hne hall.symm
    · rw [rangeBucketSpan_of_lt hlt] at hall
      split at hall <;> exact hne hall.symm
  · rintro ⟨htotal, hbounds⟩
    refine ⟨htotal, ?_⟩
    intro aLo aHi bLo bHi hcovers
    by_cases hzero : h.total = 0
    · rw [estimateRange, if_pos hzero, hzero]
    · obtain ⟨ha, hb⟩ := hbounds.resolve_left hzero
      rw [← UInt64.toNat_inj,
        toNat_estimateRange_of_covers hcovers hzero ha hb, ← htotal]
      exact Nat.min_eq_left (toNat_le_u64Max _)

section Counting

variable {s : Support} {k : Nat}

/-- What a scan keeps while it has counted at most `k` rows. -/
structure Counted (h : CorrelatedHistogram2D) (s : Support) (k : Nat) :
    Prop where
  total_eq : h.total.toNat = cellSum h.toCorrelatedFields
  total_le : h.total.toNat ≤ k
  aMin_eq : h.aMin = s.aMin
  aMax_eq : h.aMax = s.aMax
  bMin_eq : h.bMin = s.bMin
  bMax_eq : h.bMax = s.bMax

/-- No counter saturates while there are fewer rows than counts. -/
theorem Counted.next
    (hcounted : h.Counted s k)
    (hk : k < u64Max)
    (p : F64 × F64) :
    (countPair A s h p).Counted s (k + 1) := by
  unfold countPair
  split_ifs
  · have hlt :=
      h.position_lt
        (bucketIndex_lt A p.1 s.aMin s.aMax h.wellFormed.colABins_ne)
        (bucketIndex_lt A p.2 s.bMin s.bMax h.wellFormed.colBBins_ne)
    have hcell :
        (h.cells.get ⟨_, hlt⟩).toNat ≤ cellSum h.toCorrelatedFields :=
      List.single_le_sum (fun _ _ => Nat.zero_le _) _
        (List.mem_map_of_mem (List.get_mem h.cells ⟨_, hlt⟩))
    have htotal := hcounted.total_eq
    have hle := hcounted.total_le
    have hadd :
        ∀ c : UInt64, c.toNat ≤ k →
          (saturatingAddU64 c 1).toNat = c.toNat + 1 := by
      intro c hc
      rw [toNat_saturatingAddU64, satAdd]
      exact Nat.min_eq_left (Nat.succ_le_of_lt (hc.trans_lt hk))
    exact
      { total_eq := by
          change (saturatingAddU64 h.total 1).toNat =
            ((h.cells.modify _ _).map UInt64.toNat).sum
          rw [hadd h.total hle, htotal,
            sum_map_modify hlt
              (hadd (h.cells.get ⟨_, hlt⟩)
                ((hcell.trans htotal.ge).trans hle))]
          rfl
        total_le := by
          change (saturatingAddU64 h.total 1).toNat ≤ k + 1
          rw [hadd h.total hle]
          exact Nat.succ_le_succ hle
        aMin_eq := hcounted.aMin_eq
        aMax_eq := hcounted.aMax_eq
        bMin_eq := hcounted.bMin_eq
        bMax_eq := hcounted.bMax_eq }
  · exact
      { hcounted with
        total_le := Nat.le_succ_of_le hcounted.total_le }

theorem Counted.scan
    {pairs : List (F64 × F64)}
    (hcounted : h.Counted s k)
    (hk : k + pairs.length ≤ u64Max) :
    (pairs.foldl (countPair A s) h).Counted s (k + pairs.length) := by
  induction pairs generalizing h k with
  | nil =>
      exact hcounted
  | cons p pairs ih =>
      rw [List.length_cons, Nat.add_comm pairs.length 1,
        ← Nat.add_assoc] at hk ⊢
      exact ih (hcounted.next (by omega) p) hk

/-- The empty grid has counted nothing. -/
theorem counted_of_tryNew
    {colABins colBBins : UInt64}
    (hnew : tryNew colABins colBBins = some (.ok h)) :
    h.total = 0 ∧ cellSum h.toCorrelatedFields = 0 := by
  unfold tryNew at hnew
  split_ifs at hnew
  · cases hnew
  · cases hnew
  split at hnew
  · cases hnew
  · split_ifs at hnew
    cases hnew
    constructor
    · rfl
    · simp [cellSum, emptyFields]

/-- What `from_pairs` builds. -/
theorem consistent_of_fromPairs
    {slice : PairSlice}
    {colABins colBBins : UInt64}
    (hbuild : fromPairs A slice colABins colBBins = some (.ok h)) :
    h.Consistent := by
  rw [consistent_iff]
  unfold fromPairs new at hbuild
  split at hbuild
  · cases hbuild
  · cases hbuild
  · next empty hnew =>
      obtain ⟨htotal, hsum⟩ := counted_of_tryNew hnew
      have hempty : Ordered empty.toCorrelatedFields :=
        { total_eq := by
            rw [htotal, hsum]
            rfl
          bounds_le := Or.inl htotal }
      simp only at hbuild
      split_ifs at hbuild with hpairs hinfinite
      · cases hbuild
        exact hempty
      · cases hbuild
        exact hempty
      · rw [Bool.or_eq_true, not_or, Bool.not_eq_true',
          Bool.not_eq_false] at hinfinite
        obtain ⟨ha, hb⟩ := Support.ordered_scan hinfinite.1
        have hstart :
            (empty.withSupport (Support.scan slice.pairs)
                (Support.numbers_scan slice.pairs)).Counted
              (Support.scan slice.pairs) 0 :=
          { total_eq := hempty.total_eq
            total_le := by
              change empty.total.toNat ≤ 0
              rw [htotal]
              rfl
            aMin_eq := rfl
            aMax_eq := rfl
            bMin_eq := rfl
            bMax_eq := rfl }
        have hlength : 0 + slice.pairs.length ≤ u64Max := by
          have hbytes := slice.length_le
          have hmax : isizeMax ≤ u64Max := by
            decide
          omega
        have hcounted := hstart.scan (A := A) hlength
        cases hbuild
        exact
          { total_eq := hcounted.total_eq
            bounds_le := by
              rw [hcounted.aMin_eq, hcounted.aMax_eq,
                hcounted.bMin_eq, hcounted.bMax_eq]
              exact Or.inr ⟨ha, hb⟩ }

end Counting

section Decoding

variable
  {bincode : Bincode CorrelatedFields}
  {bytes : Bytes}
  {s : CorrelatedFields}

/-- Validation accepts exactly what it was given. -/
theorem toCorrelatedFields_of_validate
    (hok : validate s = .ok h) :
    h.toCorrelatedFields = s := by
  unfold validate at hok
  split_ifs at hok
  split at hok
  · cases hok
  · split_ifs at hok
    split at hok
    · cases hok
    · cases hok
      rfl

/-- What the decoder accepts. -/
theorem fromBytes_eq_ok_iff :
    fromBytes bincode bytes = .ok h ↔
      bincode.deserialize bytes = .ok h.toCorrelatedFields := by
  unfold fromBytes
  cases bincode.deserialize bytes with
  | error e =>
      constructor
      · intro hok
        cases hok
      · intro hok
        cases hok
  | ok s =>
      change validate s = _ ↔ _
      rw [Except.ok.injEq]
      constructor
      · intro hok
        exact (toCorrelatedFields_of_validate hok).symm
      · rintro rfl
        exact validate_toCorrelatedFields h

end Decoding

end CorrelatedHistogram2D

/--
**When the decoders accept only consistent histograms**: the one-column
payload may not count more than `u64::MAX` items, the two-column payload must
carry the right total and ordered bounds by itself.  Both constructors build
consistent histograms.
-/
theorem decodedTotals_iff
    (display : F64 → String)
    (equiDepth : Bincode EquiDepthHistogram)
    (correlated : Bincode CorrelatedFields)
    (bytes : Bytes) :
    ((∀ h,
        EquiDepthHistogram.fromBytes display equiDepth bytes = .ok h →
        h.Consistent) ↔
      ∀ h, equiDepth.deserialize bytes = .ok h → h.Valid →
        h.countSum ≤ u64Max) ∧
    ((∀ h,
        CorrelatedHistogram2D.fromBytes correlated bytes = .ok h →
        h.Consistent) ↔
      ∀ s, correlated.deserialize bytes = .ok s → s.WellFormed →
        CorrelatedHistogram2D.Ordered s) ∧
    (∀ sort values buckets h,
      EquiDepthHistogram.NumberEdges values buckets →
      EquiDepthHistogram.fromValues sort values buckets =
        some (.ok h) →
      h.Consistent) ∧
    ∀ (ρ : Type) (A : Arithmetic ρ) slice colABins colBBins h,
      CorrelatedHistogram2D.fromPairs A slice colABins colBBins =
        some (.ok h) →
      h.Consistent := by
  refine ⟨?_, ?_, ?_, ?_⟩
  · constructor
    · intro hall h hread hvalid
      rw [← EquiDepthHistogram.consistent_iff hvalid]
      exact
        hall h
          (EquiDepthHistogram.fromBytes_eq_ok_iff.mpr
            ⟨hread, hvalid⟩)
    · intro hall h hok
      obtain ⟨hread, hvalid⟩ :=
        EquiDepthHistogram.fromBytes_eq_ok_iff.mp hok
      rw [EquiDepthHistogram.consistent_iff hvalid]
      exact hall h hread hvalid
  · constructor
    · intro hall s hread hs
      have hok :
          CorrelatedHistogram2D.fromBytes correlated bytes =
            .ok ⟨s, hs⟩ :=
        CorrelatedHistogram2D.fromBytes_eq_ok_iff.mpr hread
      exact
        CorrelatedHistogram2D.consistent_iff.mp (hall _ hok)
    · intro hall h hok
      rw [CorrelatedHistogram2D.consistent_iff]
      exact
        hall _ (CorrelatedHistogram2D.fromBytes_eq_ok_iff.mp hok)
          h.wellFormed
  · intro sort values buckets h
    exact EquiDepthHistogram.consistent_of_fromValues
  · intro ρ A slice colABins colBBins h
    exact CorrelatedHistogram2D.consistent_of_fromPairs

/-- Two buckets with one item more than a total can say. -/
def overfullHistogram : EquiDepthHistogram where
  boundaries := [.zero, .zero, .zero]
  counts := [UInt64.ofNat u64Max, 1]
  total := UInt64.ofNat u64Max

/-- One cell with one row, and a total of two. -/
def miscountedHistogram : CorrelatedHistogram2D where
  colABins := 1
  colBBins := 1
  aMin := .zero
  aMax := .zero
  bMin := .zero
  bMax := .zero
  cells := [1]
  total := 2
  wellFormed :=
    { colABins_ne := by decide
      colBBins_ne := by decide
      length_eq := by decide
      numbers := by decide }

/-- Both decoders accept a histogram with a wrong total. -/
theorem decodedTotals_wrong :
    (EquiDepthHistogram.fromBytes (fun _ => "")
        (.ofCodec EquiDepthHistogram.codec)
        (EquiDepthHistogram.codec.encode overfullHistogram) =
      .ok overfullHistogram ∧
    overfullHistogram.total.toNat ≠ overfullHistogram.countSum) ∧
    CorrelatedHistogram2D.fromBytes
        (.ofCodec CorrelatedFields.codec)
        (CorrelatedFields.codec.encode
          miscountedHistogram.toCorrelatedFields) =
      .ok miscountedHistogram ∧
    miscountedHistogram.total.toNat ≠
      CorrelatedHistogram2D.cellSum
        miscountedHistogram.toCorrelatedFields ∧
    miscountedHistogram.estimateRange .exact .zero .zero .zero .zero ≠
      miscountedHistogram.total := by
  refine ⟨⟨?_, by decide⟩, ?_, by decide, ?_⟩
  · have hfits :
        EquiDepthHistogram.codec.Fits overfullHistogram :=
      ⟨⟨by decide, fun _ _ => trivial⟩,
        ⟨by decide, fun _ _ => trivial⟩, trivial⟩
    rw [EquiDepthHistogram.fromBytes_eq_ok_iff]
    refine ⟨Bincode.deserialize_encode hfits, ?_⟩
    exact
      { two_le := by decide
        length_eq := by decide
        numbers := by decide +kernel
        increasing := by decide +kernel
        total_eq := by decide }
  · have hfits :
        CorrelatedFields.codec.Fits
          miscountedHistogram.toCorrelatedFields :=
      ⟨trivial, trivial, trivial, trivial, trivial, trivial,
        ⟨by decide, fun _ _ => trivial⟩, trivial⟩
    rw [CorrelatedHistogram2D.fromBytes_eq_ok_iff]
    exact Bincode.deserialize_encode hfits
  · intro hestimate
    have hcovers :
        miscountedHistogram.Covers .zero .zero .zero .zero := by
      constructor <;> decide
    have hsum :=
      CorrelatedHistogram2D.toNat_estimateRange_of_covers
        (A := .exact) hcovers (by decide) (by decide) (by decide)
    rw [hestimate] at hsum
    exact absurd hsum (by decide)

end Samkhya
