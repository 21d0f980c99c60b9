import Mathlib
import Samkhya.Core.HistogramTotals
import Samkhya.Foundations.EqualWidth
import Samkhya.Foundations.ExactArithmetic
import Samkhya.Foundations.InPlace

/-!
# What a correlated histogram counts

Every finite pair is counted in the cell of its two buckets (`Tallied`), after
any tree of constructions and merges.  Without rounding a bucket is a monotone
function of the value, so the cells that a query touches hold every pair of the
query, whatever falls on an edge of a cell.
-/

namespace Samkhya

open FieldCodec Binary64 Saturating CellArray InPlace EqualWidth

namespace CorrelatedHistogram2D

section Buckets

variable {v lo hi : F64} {nbins : UInt32}

/-- Without rounding the bucket is a bin of equal width. -/
theorem bucketIndex_exact
    (hlo : lo.isFinite = true)
    (hhi : hi.isFinite = true)
    (hv : v.isNaN = false) :
    bucketIndex .exact v lo hi nbins =
      binIndex v.toReal lo.toReal hi.toReal nbins.toNat := by
  have hnlo := F64.isFinite_not_isNaN hlo
  have hnhi := F64.isFinite_not_isNaN hhi
  simp only [bucketIndex, binIndex, F64.le_iff_toReal hnhi hnlo,
    F64.le_iff_toReal hv hnlo, F64.le_iff_toReal hnhi hv]
  split_ifs with hzero hflat hleft hright
  · rfl
  · rfl
  · rfl
  · rfl
  · -- a value between finite bounds is finite
    have hfinite : v.isFinite = true := by
      apply F64.isFinite_of_le_of_le hlo hhi
      · exact (F64.le_iff_toReal hnlo hv).mpr (not_le.mp hleft).le
      · exact (F64.le_iff_toReal hv hnhi).mpr (not_le.mp hright).le
    have hbins : nbins.toNat - 1 ≤ u64Max := by
      have hlt := nbins.toNat_lt
      have hmax : u64Max = 2 ^ 64 - 1 := rfl
      omega
    rw [Arithmetic.exact_ofF64 hlo, Arithmetic.exact_ofF64 hhi,
      Arithmetic.exact_ofF64 hfinite, Arithmetic.exact_ofU64,
      Arithmetic.exact_sub, Arithmetic.exact_sub,
      Arithmetic.exact_div, Arithmetic.exact_mul,
      Arithmetic.exact_floor, Arithmetic.exact_toU64,
      UInt32.toNat_toUInt64]
    have hfloor :
        ∀ x : ℝ, ⌊((⌊x⌋ : ℤ) : ℝ)⌋₊ = ⌊x⌋₊ := by
      intro x
      rw [← Int.floor_toNat, Int.floor_intCast, Int.floor_toNat]
    rw [hfloor, toNat_ofNat_of_le (Nat.min_le_right _ _)]
    change min (min _ _) _ = _
    omega

/-- A greater value is not in a lesser bucket. -/
theorem bucketIndex_mono
    {w : F64}
    (hlo : lo.isFinite = true)
    (hhi : hi.isFinite = true)
    (h : v.le w = true) :
    bucketIndex .exact v lo hi nbins ≤
      bucketIndex .exact w lo hi nbins := by
  obtain ⟨hv, hw, _⟩ := F64.not_isNaN_of_le h
  rw [bucketIndex_exact hlo hhi hv, bucketIndex_exact hlo hhi hw]
  exact binIndex_mono ((F64.le_iff_toReal hv hw).mp h)

/-- Equal bounds give equal buckets, also where their zeros differ in sign. -/
theorem bucketIndex_congr
    {lo' hi' : F64}
    (hlo : lo.isFinite = true)
    (hhi : hi.isFinite = true)
    (hlo' : lo'.isFinite = true)
    (hhi' : hi'.isFinite = true)
    (hv : v.isNaN = false)
    (heq_lo : lo.partialEq lo' = true)
    (heq_hi : hi.partialEq hi' = true) :
    bucketIndex .exact v lo' hi' nbins =
      bucketIndex .exact v lo hi nbins := by
  have htoReal :
      ∀ x y : F64, x.partialEq y = true → x.toReal = y.toReal := by
    intro x y hxy
    simp only [F64.partialEq, Bool.and_eq_true,
      decide_eq_true_eq] at hxy
    rw [F64.toReal, F64.toReal, hxy.2]
  rw [bucketIndex_exact hlo hhi hv, bucketIndex_exact hlo' hhi' hv,
    htoReal lo lo' heq_lo, htoReal hi hi' heq_hi]

end Buckets

section Spans

variable {qLo qHi qLo' qHi' colMin colMax v : F64} {nbins : UInt32}

/-- A query whose range holds a value of the column covers its bucket. -/
theorem exists_span_of_mem
    (hmin : colMin.isFinite = true)
    (hmax : colMax.isFinite = true)
    (hbins : nbins ≠ 0)
    (hleft : colMin.le v = true)
    (hright : v.le colMax = true)
    (hlo : qLo.le v = true)
    (hhi : v.le qHi = true) :
    ∃ span,
      rangeBucketSpan .exact qLo qHi colMin colMax nbins = some span ∧
        span.1 ≤ bucketIndex .exact v colMin colMax nbins ∧
        bucketIndex .exact v colMin colMax nbins ≤ span.2 := by
  have hpos : nbins.toNat ≠ 0 := by
    intro hzero
    exact hbins (UInt32.toNat_inj.mp hzero)
  have hlt := bucketIndex_lt .exact v colMin colMax hbins
  have hquery := F64.not_lt_of_le (F64.le_trans hlo hhi)
  have hcolumn := F64.not_lt_of_le (F64.le_trans hleft hright)
  simp only [rangeBucketSpan, hquery, hcolumn, hpos, if_false,
    Bool.false_eq_true]
  cases hflat : colMax.le colMin
  · -- a column with some width
    have hmeets_lo := F64.not_lt_of_le (F64.le_trans hleft hhi)
    have hmeets_hi := F64.not_lt_of_le (F64.le_trans hlo hright)
    simp only [Bool.false_eq_true, if_false, hmeets_lo, hmeets_hi,
      Bool.or_self]
    exact
      ⟨_, rfl, bucketIndex_mono hmin hmax hlo,
        bucketIndex_mono hmin hmax hhi⟩
  · -- a column of one value
    have hmeets_lo := F64.le_trans (F64.le_trans hlo hright) hflat
    have hmeets_hi := F64.le_trans hleft hhi
    simp only [if_true, hmeets_lo, hmeets_hi, Bool.and_self]
    exact ⟨_, rfl, Nat.zero_le _, by omega⟩

/-- A wider query covers no fewer buckets. -/
theorem exists_wider_span
    {span : Nat × Nat}
    (hmin : colMin.isFinite = true)
    (hmax : colMax.isFinite = true)
    (hlo : qLo'.le qLo = true)
    (hhi : qHi.le qHi' = true)
    (hspan :
      rangeBucketSpan .exact qLo qHi colMin colMax nbins = some span) :
    ∃ span',
      rangeBucketSpan .exact qLo' qHi' colMin colMax nbins =
          some span' ∧
        span'.1 ≤ span.1 ∧ span.2 ≤ span'.2 := by
  obtain ⟨hnLo', hnLo, _⟩ := F64.not_isNaN_of_le hlo
  obtain ⟨hnHi, hnHi', _⟩ := F64.not_isNaN_of_le hhi
  have hnMin := F64.isFinite_not_isNaN hmin
  have hnMax := F64.isFinite_not_isNaN hmax
  unfold rangeBucketSpan at hspan
  split_ifs at hspan with hquery hzero hcolumn hflat hinside houtside
  · -- a column of one value, and the query holds it
    rw [Bool.and_eq_true] at hinside
    rw [Bool.not_eq_true] at hquery hcolumn
    have hwide_lo := F64.le_trans hlo hinside.1
    have hwide_hi := F64.le_trans hinside.2 hhi
    have hwide := F64.not_lt_of_le (F64.le_trans hwide_lo hwide_hi)
    simp only [rangeBucketSpan, hwide, hzero, hcolumn, hflat,
      hwide_lo, hwide_hi, Bool.false_eq_true, if_false, if_true,
      Bool.and_self]
    cases hspan
    exact ⟨_, rfl, le_rfl, le_rfl⟩
  · rw [Bool.or_eq_true, not_or, Bool.not_eq_true,
      Bool.not_eq_true] at houtside
    rw [Bool.not_eq_true] at hquery hcolumn hflat
    have hle := F64.le_of_not_lt hnHi hnLo hquery
    have hwide :=
      F64.not_lt_of_le (F64.le_trans hlo (F64.le_trans hle hhi))
    have hmeets_lo :=
      F64.not_lt_of_le
        (F64.le_trans (F64.le_of_not_lt hnHi hnMin houtside.1) hhi)
    have hmeets_hi :=
      F64.not_lt_of_le
        (F64.le_trans hlo (F64.le_of_not_lt hnMax hnLo houtside.2))
    simp only [rangeBucketSpan, hwide, hzero, hcolumn, hflat,
      hmeets_lo, hmeets_hi, Bool.false_eq_true, if_false, Bool.or_self]
    cases hspan
    exact
      ⟨_, rfl, bucketIndex_mono hmin hmax hlo,
        bucketIndex_mono hmin hmax hhi⟩

/-- A span ends in the grid. -/
theorem span_lt
    {span : Nat × Nat}
    {ρ : Type}
    {A : Arithmetic ρ}
    (hbins : nbins ≠ 0)
    (hspan :
      rangeBucketSpan A qLo qHi colMin colMax nbins = some span) :
    span.2 < nbins.toNat := by
  have hlt := bucketIndex_lt A qHi colMin colMax hbins
  unfold rangeBucketSpan at hspan
  split_ifs at hspan
  · cases hspan
    have hpos := Nat.zero_lt_of_lt hlt
    exact Nat.sub_lt hpos Nat.one_pos
  · cases hspan
    exact hlt

end Spans

/-- The pairs that are counted. -/
def kept (pairs : List (F64 × F64)) : List (F64 × F64) :=
  pairs.filter Support.counts

/-- The buckets of a pair. -/
noncomputable def cellOf
    (h : CorrelatedHistogram2D)
    (p : F64 × F64) : Nat × Nat :=
  (bucketIndex .exact p.1 h.aMin h.aMax h.colABins,
    bucketIndex .exact p.2 h.bMin h.bMax h.colBBins)

/-- Every finite pair is counted in its cell, and the bounds enclose it. -/
structure Tallied
    (pairs : List (F64 × F64))
    (h : CorrelatedHistogram2D) : Prop where
  cell :
    ∀ i < h.colABins.toNat, ∀ j < h.colBBins.toNat,
      (h.cells.getD (position h.toCorrelatedFields i j) 0).toNat =
        (kept pairs).countP (fun p => h.cellOf p = (i, j))
  total_eq : h.total.toNat = (kept pairs).length
  encloses :
    ∀ p ∈ kept pairs,
      (h.aMin.le p.1 = true ∧ p.1.le h.aMax = true) ∧
        h.bMin.le p.2 = true ∧ p.2.le h.bMax = true
  finite :
    kept pairs ≠ [] →
      (h.aMin.isFinite = true ∧ h.aMax.isFinite = true) ∧
        h.bMin.isFinite = true ∧ h.bMax.isFinite = true

section Estimate

variable
  {pairs : List (F64 × F64)}
  {h : CorrelatedHistogram2D}
  {aSpan bSpan : Nat × Nat}

/-- A pair that the cells of two spans hold. -/
noncomputable def inSpans
    (h : CorrelatedHistogram2D)
    (aSpan bSpan : Nat × Nat)
    (p : F64 × F64) : Bool :=
  (aSpan.1 ≤ (h.cellOf p).1 && (h.cellOf p).1 ≤ aSpan.2) &&
    (bSpan.1 ≤ (h.cellOf p).2 && (h.cellOf p).2 ≤ bSpan.2)

theorem mem_inclusive
    (span : Nat × Nat)
    (i : Nat) :
    i ∈ inclusive span ↔ span.1 ≤ i ∧ i ≤ span.2 := by
  rw [inclusive, List.mem_range'_1]
  omega

/-- The cells of two spans hold the pairs whose buckets are in them. -/
theorem sum_cells_of_spans
    (htallied : h.Tallied pairs)
    (ha : aSpan.2 < h.colABins.toNat)
    (hb : bSpan.2 < h.colBBins.toNat) :
    (((inclusive aSpan).flatMap
        (fun i =>
          (inclusive bSpan).map
            (fun j =>
              h.cells.getD (position h.toCorrelatedFields i j)
                0))).map UInt64.toNat).sum =
      (kept pairs).countP (h.inSpans aSpan bSpan) := by
  have hnodup :
      ((inclusive aSpan).product (inclusive bSpan)).Nodup :=
    List.Nodup.product List.nodup_range' List.nodup_range'
  have hkeys := sum_countP_keys h.cellOf (kept pairs) hnodup
  have hcells :
      ((inclusive aSpan).flatMap
          (fun i =>
            (inclusive bSpan).map
              (fun j =>
                h.cells.getD (position h.toCorrelatedFields i j)
                  0))).map UInt64.toNat =
        ((inclusive aSpan).product (inclusive bSpan)).map
          (fun k =>
            (kept pairs).countP (fun p => decide (h.cellOf p = k))) := by
    rw [List.product, List.map_flatMap, List.map_flatMap]
    apply List.flatMap_congr
    intro i hi
    rw [List.map_map, List.map_map]
    apply List.map_congr_left
    intro j hj
    exact
      htallied.cell i (((mem_inclusive _ _).mp hi).2.trans_lt ha)
        j (((mem_inclusive _ _).mp hj).2.trans_lt hb)
  rw [hcells, hkeys]
  apply List.countP_congr
  intro p _
  have hmem :
      h.cellOf p ∈ (inclusive aSpan).product (inclusive bSpan) ↔
        (h.cellOf p).1 ∈ inclusive aSpan ∧
          (h.cellOf p).2 ∈ inclusive bSpan :=
    List.mem_product
  simp only [decide_eq_true_eq, hmem, mem_inclusive, inSpans,
    Bool.and_eq_true]

/-- The estimate is the number of pairs in the cells of the two spans. -/
theorem toNat_estimateRange_of_spans
    {aLo aHi bLo bHi : F64}
    (htallied : h.Tallied pairs)
    (htotal : h.total ≠ 0)
    (ha :
      rangeBucketSpan .exact aLo aHi h.aMin h.aMax h.colABins =
        some aSpan)
    (hb :
      rangeBucketSpan .exact bLo bHi h.bMin h.bMax h.colBBins =
        some bSpan) :
    (h.estimateRange .exact aLo aHi bLo bHi).toNat =
      (kept pairs).countP (h.inSpans aSpan bSpan) := by
  have hsum :=
    sum_cells_of_spans htallied
      (span_lt h.wellFormed.colABins_ne ha)
      (span_lt h.wellFormed.colBBins_ne hb)
  have hestimate :
      h.estimateRange .exact aLo aHi bLo bHi =
        ((inclusive aSpan).flatMap
          (fun i =>
            (inclusive bSpan).map
              (fun j =>
                h.cells.getD (position h.toCorrelatedFields i j)
                  0))).foldl saturatingAddU64 0 := by
    rw [estimateRange, if_neg htotal, ha, hb, List.foldl_flatMap]
    simp only [List.foldl_map]
  have hle :
      (kept pairs).countP (h.inSpans aSpan bSpan) ≤ u64Max := by
    calc
      (kept pairs).countP (h.inSpans aSpan bSpan) ≤
          (kept pairs).length :=
        List.countP_le_length
      _ = h.total.toNat := htallied.total_eq.symm
      _ ≤ u64Max := toNat_le_u64Max _
  rw [hestimate, toNat_foldl_saturatingAddU64, hsum,
    UInt64.toNat_zero, Nat.zero_add]
  exact Nat.min_eq_left hle

/-- A query misses the grid, or it has a span on each side. -/
theorem estimateRange_cases
    {aLo aHi bLo bHi : F64} :
    h.estimateRange .exact aLo aHi bLo bHi = 0 ∨
      ∃ aSpan bSpan,
        rangeBucketSpan .exact aLo aHi h.aMin h.aMax h.colABins =
            some aSpan ∧
          rangeBucketSpan .exact bLo bHi h.bMin h.bMax h.colBBins =
            some bSpan := by
  unfold estimateRange
  split_ifs
  · exact Or.inl rfl
  · cases rangeBucketSpan .exact aLo aHi h.aMin h.aMax h.colABins with
    | none =>
        exact Or.inl rfl
    | some aSpan =>
        cases rangeBucketSpan .exact bLo bHi h.bMin h.bMax h.colBBins with
        | none =>
            exact Or.inl rfl
        | some bSpan =>
            exact Or.inr ⟨aSpan, bSpan, rfl, rfl⟩

end Estimate

/-- A pair inside a rectangle. -/
def inRectangle (aLo aHi bLo bHi : F64) (p : F64 × F64) : Bool :=
  (aLo.le p.1 && p.1.le aHi) && (bLo.le p.2 && p.2.le bHi)

/-- What a correlated histogram promises of the pairs put in. -/
structure NeverUndercounts
    (pairs : List (F64 × F64))
    (h : CorrelatedHistogram2D) : Prop where
  cells_sum : cellSum h.toCorrelatedFields = h.total.toNat
  total_eq : h.total.toNat = (kept pairs).length
  count_le :
    ∀ aLo aHi bLo bHi,
      (kept pairs).countP (inRectangle aLo aHi bLo bHi) ≤
        (h.estimateRange .exact aLo aHi bLo bHi).toNat
  le_total :
    ∀ aLo aHi bLo bHi,
      (h.estimateRange .exact aLo aHi bLo bHi).toNat ≤ h.total.toNat
  covering :
    ∀ aLo aHi bLo bHi,
      (∀ p ∈ kept pairs, inRectangle aLo aHi bLo bHi p = true) →
      h.estimateRange .exact aLo aHi bLo bHi = h.total
  covering_bounds :
    ∀ aLo aHi bLo bHi, h.Covers aLo aHi bLo bHi →
      h.estimateRange .exact aLo aHi bLo bHi = h.total
  widening :
    ∀ aLo aHi bLo bHi aLo' aHi' bLo' bHi',
      aLo'.le aLo = true → aHi.le aHi' = true →
      bLo'.le bLo = true → bHi.le bHi' = true →
      (h.estimateRange .exact aLo aHi bLo bHi).toNat ≤
        (h.estimateRange .exact aLo' aHi' bLo' bHi').toNat

section Promise

variable
  {pairs : List (F64 × F64)}
  {h : CorrelatedHistogram2D}
  {aLo aHi bLo bHi : F64}

/-- The total is zero exactly when no pair was kept. -/
theorem Tallied.kept_eq_nil_iff
    (htallied : h.Tallied pairs) :
    kept pairs = [] ↔ h.total = 0 := by
  rw [← List.length_eq_zero_iff, ← htallied.total_eq,
    ← UInt64.toNat_inj]
  rfl

/-- All cells together hold all pairs. -/
theorem Tallied.cellSum_eq
    (htallied : h.Tallied pairs) :
    cellSum h.toCorrelatedFields = (kept pairs).length := by
  have hlast :
      ∀ {n : UInt32}, n ≠ 0 → n.toNat - 1 < n.toNat :=
    fun hn => Nat.sub_one_lt_of_lt (toNat_pos_of_ne hn)
  have hsum :=
    @sum_cells_of_spans _ _ (0, h.colABins.toNat - 1)
      (0, h.colBBins.toNat - 1) htallied
      (hlast h.wellFormed.colABins_ne)
      (hlast h.wellFormed.colBBins_ne)
  have hcells := flatMap_rowMajor h.wellFormed.length_eq 0
  rw [inclusive_all h.wellFormed.colABins_ne,
    inclusive_all h.wellFormed.colBBins_ne] at hsum
  simp only [position, hcells] at hsum
  rw [cellSum, hsum, List.countP_eq_length]
  intro p _
  have ha :=
    bucketIndex_lt .exact p.1 h.aMin h.aMax h.wellFormed.colABins_ne
  have hb :=
    bucketIndex_lt .exact p.2 h.bMin h.bMax h.wellFormed.colBBins_ne
  rw [inSpans, Bool.and_eq_true, Bool.and_eq_true, Bool.and_eq_true]
  exact
    ⟨⟨decide_eq_true (Nat.zero_le _),
        decide_eq_true (Nat.le_sub_one_of_lt ha)⟩,
      decide_eq_true (Nat.zero_le _),
      decide_eq_true (Nat.le_sub_one_of_lt hb)⟩

/-- A pair of the query is in the cells that the query touches. -/
theorem Tallied.countP_inRectangle_le
    (htallied : h.Tallied pairs) :
    (kept pairs).countP (inRectangle aLo aHi bLo bHi) ≤
      (h.estimateRange .exact aLo aHi bLo bHi).toNat := by
  rcases Nat.eq_zero_or_pos
      ((kept pairs).countP (inRectangle aLo aHi bLo bHi)) with
    hnone | hsome
  · omega
  obtain ⟨q, hq, hqin⟩ := List.countP_pos_iff.mp hsome
  have hne : kept pairs ≠ [] := List.ne_nil_of_mem hq
  have htotal : h.total ≠ 0 := fun hzero =>
    hne (htallied.kept_eq_nil_iff.mpr hzero)
  obtain ⟨⟨haMin, haMax⟩, hbMin, hbMax⟩ := htallied.finite hne
  have hspans :
      ∀ p ∈ kept pairs, inRectangle aLo aHi bLo bHi p = true →
        (∃ span,
          rangeBucketSpan .exact aLo aHi h.aMin h.aMax h.colABins =
              some span ∧
            span.1 ≤ (h.cellOf p).1 ∧ (h.cellOf p).1 ≤ span.2) ∧
        ∃ span,
          rangeBucketSpan .exact bLo bHi h.bMin h.bMax h.colBBins =
              some span ∧
            span.1 ≤ (h.cellOf p).2 ∧ (h.cellOf p).2 ≤ span.2 := by
    intro p hp hin
    simp only [inRectangle, Bool.and_eq_true] at hin
    obtain ⟨⟨hpaMin, hpaMax⟩, hpbMin, hpbMax⟩ := htallied.encloses p hp
    exact
      ⟨exists_span_of_mem haMin haMax h.wellFormed.colABins_ne hpaMin
          hpaMax hin.1.1 hin.1.2,
        exists_span_of_mem hbMin hbMax h.wellFormed.colBBins_ne hpbMin
          hpbMax hin.2.1 hin.2.2⟩
  obtain ⟨⟨aSpan, ha, _⟩, bSpan, hb, _⟩ := hspans q hq hqin
  rw [toNat_estimateRange_of_spans htallied htotal ha hb]
  apply List.countP_mono_left
  intro p hp hin
  obtain ⟨⟨aSpan', ha', hpa⟩, bSpan', hb', hpb⟩ := hspans p hp hin
  obtain rfl := Option.some.inj (ha.symm.trans ha')
  obtain rfl := Option.some.inj (hb.symm.trans hb')
  simp only [inSpans, Bool.and_eq_true, decide_eq_true_eq]
  exact ⟨hpa, hpb⟩

theorem Tallied.estimateRange_le
    (htallied : h.Tallied pairs) :
    (h.estimateRange .exact aLo aHi bLo bHi).toNat ≤
      h.total.toNat := by
  by_cases htotal : h.total = 0
  · rw [estimateRange, if_pos htotal, htotal]
  rcases @estimateRange_cases h aLo aHi bLo bHi with
    hzero | ⟨aSpan, bSpan, ha, hb⟩
  · rw [hzero]
    exact Nat.zero_le _
  · rw [toNat_estimateRange_of_spans htallied htotal ha hb,
      htallied.total_eq]
    exact List.countP_le_length

/-- A wider query touches no fewer cells. -/
theorem Tallied.estimateRange_mono
    {aLo' aHi' bLo' bHi' : F64}
    (htallied : h.Tallied pairs)
    (haLo : aLo'.le aLo = true)
    (haHi : aHi.le aHi' = true)
    (hbLo : bLo'.le bLo = true)
    (hbHi : bHi.le bHi' = true) :
    (h.estimateRange .exact aLo aHi bLo bHi).toNat ≤
      (h.estimateRange .exact aLo' aHi' bLo' bHi').toNat := by
  by_cases htotal : h.total = 0
  · rw [estimateRange, if_pos htotal]
    exact Nat.zero_le _
  have hne : kept pairs ≠ [] := fun hnil =>
    htotal (htallied.kept_eq_nil_iff.mp hnil)
  obtain ⟨⟨haMin, haMax⟩, hbMin, hbMax⟩ := htallied.finite hne
  rcases @estimateRange_cases h aLo aHi bLo bHi with
    hzero | ⟨aSpan, bSpan, ha, hb⟩
  · rw [hzero]
    exact Nat.zero_le _
  · obtain ⟨aSpan', ha', haFirst, haLast⟩ :=
      exists_wider_span haMin haMax haLo haHi ha
    obtain ⟨bSpan', hb', hbFirst, hbLast⟩ :=
      exists_wider_span hbMin hbMax hbLo hbHi hb
    rw [toNat_estimateRange_of_spans htallied htotal ha hb,
      toNat_estimateRange_of_spans htallied htotal ha' hb']
    apply List.countP_mono_left
    intro p _ hin
    simp only [inSpans, Bool.and_eq_true, decide_eq_true_eq] at hin ⊢
    omega

theorem Tallied.neverUndercounts
    (htallied : h.Tallied pairs) :
    h.NeverUndercounts pairs := by
  have hcovering :
      ∀ aLo aHi bLo bHi,
        (∀ p ∈ kept pairs, inRectangle aLo aHi bLo bHi p = true) →
        h.estimateRange .exact aLo aHi bLo bHi = h.total := by
    intro aLo aHi bLo bHi hall
    have hcount := List.countP_eq_length.mpr hall
    have hle := @Tallied.estimateRange_le _ _ aLo aHi bLo bHi htallied
    have hge :=
      @Tallied.countP_inRectangle_le _ _ aLo aHi bLo bHi htallied
    rw [hcount, ← htallied.total_eq] at hge
    exact UInt64.toNat_inj.mp (Nat.le_antisymm hle hge)
  constructor
  · rw [htallied.cellSum_eq, htallied.total_eq]
  · exact htallied.total_eq
  · intro aLo aHi bLo bHi
    exact htallied.countP_inRectangle_le
  · intro aLo aHi bLo bHi
    exact htallied.estimateRange_le
  · exact hcovering
  · intro aLo aHi bLo bHi hcovers
    apply hcovering
    intro p hp
    obtain ⟨⟨haMin, haMax⟩, hbMin, hbMax⟩ := htallied.encloses p hp
    simp only [inRectangle, Bool.and_eq_true]
    exact
      ⟨⟨F64.le_trans hcovers.aLo_le haMin,
          F64.le_trans haMax hcovers.le_aHi⟩,
        F64.le_trans hcovers.bLo_le hbMin,
        F64.le_trans hbMax hcovers.le_bHi⟩
  · intro aLo aHi bLo bHi aLo' aHi' bLo' bHi' haLo haHi hbLo hbHi
    exact htallied.estimateRange_mono haLo haHi hbLo hbHi

end Promise

end CorrelatedHistogram2D

end Samkhya
