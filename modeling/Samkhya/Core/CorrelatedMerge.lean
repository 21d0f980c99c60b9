import Mathlib
import Samkhya.Core.CorrelatedCounts

/-!
# Building and merging correlated histograms

The first pass of `from_pairs` finds bounds that enclose every finite pair, the
second counts the pairs one by one.  A merge adds the cells of two grids with
equal bounds, or takes over the bounds when one of the two is empty, so that
every pair stays in its cell.  A merge that fails writes nothing.
-/

namespace Samkhya

open FieldCodec Binary64 Saturating CellArray InPlace

namespace Support

variable {s : Support} {v lo hi : F64} {seen : List (F64 × F64)}

/-- Bounds that a scan has learned of the pairs seen. -/
structure Extent
    (seen : List (F64 × F64))
    (s : Support) : Prop where
  encloses :
    ∀ p ∈ CorrelatedHistogram2D.kept seen,
      (s.aMin.le p.1 = true ∧ p.1.le s.aMax = true) ∧
        s.bMin.le p.2 = true ∧ p.2.le s.bMax = true
  learned :
    s = empty ∧ CorrelatedHistogram2D.kept seen = [] ∨
      (s.aMin.isFinite = true ∧ s.aMax.isFinite = true) ∧
        s.bMin.isFinite = true ∧ s.bMax.isFinite = true

/-- The lower bound of a column goes down to the value seen. -/
theorem lower_le
    (hlo : lo.isNaN = false)
    (hv : v.isNaN = false) :
    (if v.lt lo then v else lo).le v = true ∧
      (if v.lt lo then v else lo).le lo = true := by
  cases hlt : v.lt lo
  · exact ⟨F64.le_of_not_lt hv hlo hlt, F64.le_self hlo⟩
  · have hle : v.le lo = true :=
      (F64.le_iff hv hlo).mpr ((F64.lt_iff hv hlo).mp hlt).le
    exact ⟨F64.le_self hv, hle⟩

/-- The upper bound of a column goes up to the value seen. -/
theorem le_upper
    (hhi : hi.isNaN = false)
    (hv : v.isNaN = false) :
    v.le (if hi.lt v then v else hi) = true ∧
      hi.le (if hi.lt v then v else hi) = true := by
  cases hlt : hi.lt v
  · exact ⟨F64.le_of_not_lt hhi hv hlt, F64.le_self hhi⟩
  · have hle : hi.le v = true :=
      (F64.le_iff hhi hv).mpr ((F64.lt_iff hhi hv).mp hlt).le
    exact ⟨F64.le_self hv, hle⟩

/-- The first value seen replaces the infinities. -/
theorem isFinite_widen
    (hv : v.isFinite = true)
    (hlo : lo = .infinity ∨ lo.isFinite = true)
    (hhi : hi = .negInfinity ∨ hi.isFinite = true) :
    (if v.lt lo then v else lo).isFinite = true ∧
      (if hi.lt v then v else hi).isFinite = true := by
  have hbetween := F64.between_infinities hv
  constructor
  · rcases hlo with rfl | hlo
    · rw [hbetween.2]
      exact hv
    · split_ifs
      · exact hv
      · exact hlo
  · rcases hhi with rfl | hhi
    · rw [hbetween.1]
      exact hv
    · split_ifs
      · exact hv
      · exact hhi

theorem Extent.widen
    (hextent : s.Extent seen)
    (hs : s.Numbers)
    (p : F64 × F64) :
    (s.widen p).Extent (seen ++ [p]) := by
  unfold Support.widen
  cases hcounts : counts p with
  | false =>
      have hkept :
          CorrelatedHistogram2D.kept (seen ++ [p]) =
            CorrelatedHistogram2D.kept seen := by
        simp [CorrelatedHistogram2D.kept, hcounts]
      simp only [Bool.false_eq_true, if_false]
      exact
        { encloses := by
            rw [hkept]
            exact hextent.encloses
          learned := by
            rw [hkept]
            exact hextent.learned }
  | true =>
      have hkept :
          CorrelatedHistogram2D.kept (seen ++ [p]) =
            CorrelatedHistogram2D.kept seen ++ [p] := by
        simp [CorrelatedHistogram2D.kept, hcounts]
      rw [counts, Bool.and_eq_true] at hcounts
      have hnp1 := F64.isFinite_not_isNaN hcounts.1
      have hnp2 := F64.isFinite_not_isNaN hcounts.2
      simp only [if_true]
      constructor
      · rw [hkept]
        intro q hq
        rcases List.mem_append.mp hq with hq | hq
        · obtain ⟨⟨haMin, haMax⟩, hbMin, hbMax⟩ := hextent.encloses q hq
          exact
            ⟨⟨F64.le_trans (lower_le hs.aMin hnp1).2 haMin,
                F64.le_trans haMax (le_upper hs.aMax hnp1).2⟩,
              F64.le_trans (lower_le hs.bMin hnp2).2 hbMin,
              F64.le_trans hbMax (le_upper hs.bMax hnp2).2⟩
        · obtain rfl := List.mem_singleton.mp hq
          exact
            ⟨⟨(lower_le hs.aMin hnp1).1, (le_upper hs.aMax hnp1).1⟩,
              (lower_le hs.bMin hnp2).1, (le_upper hs.bMax hnp2).1⟩
      · right
        rcases hextent.learned with ⟨rfl, _⟩ | ⟨ha, hb⟩
        · exact
            ⟨isFinite_widen hcounts.1 (Or.inl rfl) (Or.inl rfl),
              isFinite_widen hcounts.2 (Or.inl rfl) (Or.inl rfl)⟩
        · exact
            ⟨isFinite_widen hcounts.1 (Or.inr ha.1) (Or.inr ha.2),
              isFinite_widen hcounts.2 (Or.inr hb.1) (Or.inr hb.2)⟩

theorem Extent.foldl
    (hextent : s.Extent seen)
    (hs : s.Numbers)
    (pairs : List (F64 × F64)) :
    (pairs.foldl Support.widen s).Extent (seen ++ pairs) := by
  induction pairs generalizing s seen with
  | nil =>
      rw [List.append_nil]
      exact hextent
  | cons p pairs ih =>
      have hnext := ih (hextent.widen hs p) (hs.widen p)
      rwa [List.append_assoc] at hnext

/-- The first pass learns bounds of all pairs. -/
theorem extent_scan
    (pairs : List (F64 × F64)) :
    (scan pairs).Extent pairs := by
  have hempty : empty.Extent [] :=
    { encloses := by
        intro p hp
        cases hp
      learned := Or.inl ⟨rfl, rfl⟩ }
  exact hempty.foldl (by constructor <;> decide) pairs

end Support

namespace CorrelatedHistogram2D

section Build

variable
  {s : Support}
  {seen pairs : List (F64 × F64)}
  {h : CorrelatedHistogram2D}

/-- What the second pass has counted of the pairs seen. -/
structure Scanned
    (s : Support)
    (seen : List (F64 × F64))
    (h : CorrelatedHistogram2D) : Prop where
  aMin_eq : h.aMin = s.aMin
  aMax_eq : h.aMax = s.aMax
  bMin_eq : h.bMin = s.bMin
  bMax_eq : h.bMax = s.bMax
  cell :
    ∀ i < h.colABins.toNat, ∀ j < h.colBBins.toNat,
      (h.cells.getD (position h.toCorrelatedFields i j) 0).toNat =
        (kept seen).countP (fun p => h.cellOf p = (i, j))
  total_eq : h.total.toNat = (kept seen).length

/-- A counter that has room counts one more. -/
theorem toNat_saturatingAddU64_of_lt
    {c d : UInt64}
    (hroom : c.toNat + d.toNat ≤ u64Max) :
    (saturatingAddU64 c d).toNat = c.toNat + d.toNat := by
  rw [toNat_saturatingAddU64, satAdd]
  exact Nat.min_eq_left hroom

theorem length_kept_le
    (pairs : List (F64 × F64)) :
    (kept pairs).length ≤ pairs.length :=
  List.length_filter_le _ _

theorem kept_append
    (xs ys : List (F64 × F64)) :
    kept (xs ++ ys) = kept xs ++ kept ys :=
  List.filter_append ..

/-- A cell with room counts one more when it is the one written. -/
theorem toNat_getD_modify_one
    {cells : List UInt64}
    {k i : Nat}
    (hi : i < cells.length)
    (hroom : (cells.getD i 0).toNat < u64Max) :
    ((cells.modify k (fun c => saturatingAddU64 c 1)).getD i 0).toNat =
      (cells.getD i 0).toNat + if k = i then 1 else 0 := by
  rw [getD_modify _ _ _ _ _ hi]
  split_ifs
  · exact toNat_saturatingAddU64_of_lt hroom
  · rfl

/-- A pair that counts goes to its cell. -/
theorem Scanned.fields_countPair
    (hscanned : h.Scanned s seen)
    {p : F64 × F64}
    (hcounts : Support.counts p = true) :
    (countPair .exact s h p).toCorrelatedFields =
      { h.toCorrelatedFields with
        cells :=
          h.cells.modify
            (position h.toCorrelatedFields (h.cellOf p).1
              (h.cellOf p).2)
            (fun c => saturatingAddU64 c 1)
        total := saturatingAddU64 h.total 1 } := by
  simp only [countPair, hcounts, if_true, cellOf, hscanned.aMin_eq,
    hscanned.aMax_eq, hscanned.bMin_eq, hscanned.bMax_eq]

theorem Scanned.next
    (hscanned : h.Scanned s seen)
    (hfew : seen.length < u64Max)
    (p : F64 × F64) :
    (countPair .exact s h p).Scanned s (seen ++ [p]) := by
  have hkept_le := length_kept_le seen
  cases hcounts : Support.counts p with
  | false =>
      have hkept : kept (seen ++ [p]) = kept seen := by
        simp [kept, hcounts]
      have hsame : countPair .exact s h p = h := by
        simp [countPair, hcounts]
      rw [hsame]
      exact
        { hscanned with
          cell := by
            rw [hkept]
            exact hscanned.cell
          total_eq := by
            rw [hkept]
            exact hscanned.total_eq }
  | true =>
      have hkept : kept (seen ++ [p]) = kept seen ++ [p] := by
        simp [kept, hcounts]
      have hfields := hscanned.fields_countPair hcounts
      generalize countPair .exact s h p = next at hfields ⊢
      obtain ⟨grid, hgrid⟩ := next
      subst hfields
      refine
        ⟨hscanned.aMin_eq, hscanned.aMax_eq, hscanned.bMin_eq,
          hscanned.bMax_eq, ?_, ?_⟩
      · intro i hi j hj
        have hold := hscanned.cell i hi j hj
        have hcount_le :
            (kept seen).countP (fun p => h.cellOf p = (i, j)) ≤
              (kept seen).length :=
          List.countP_le_length
        have hwritten :
            position h.toCorrelatedFields (h.cellOf p).1
                  (h.cellOf p).2 =
                position h.toCorrelatedFields i j ↔
              h.cellOf p = (i, j) := by
          rw [Prod.ext_iff]
          exact
            rowMajor_inj
              (bucketIndex_lt .exact p.2 h.bMin h.bMax
                h.wellFormed.colBBins_ne) hj
        have hcell :=
          @toNat_getD_modify_one h.cells
            (position h.toCorrelatedFields (h.cellOf p).1
              (h.cellOf p).2)
            (position h.toCorrelatedFields i j)
            (h.position_lt hi hj) (by omega)
        simp only [hwritten, hold] at hcell
        rw [hkept, List.countP_append, List.countP_singleton]
        simp only [decide_eq_true_eq]
        exact hcell
      · change (saturatingAddU64 h.total 1).toNat = _
        have htotal := hscanned.total_eq
        rw [hkept, List.length_append, List.length_singleton,
          toNat_saturatingAddU64_of_lt, htotal]
        · rfl
        · rw [htotal, UInt64.toNat_one]
          omega

theorem Scanned.scan
    (hscanned : h.Scanned s seen)
    (hfew : seen.length + pairs.length ≤ u64Max) :
    (pairs.foldl (countPair .exact s) h).Scanned s (seen ++ pairs) := by
  induction pairs generalizing h seen with
  | nil =>
      rw [List.append_nil]
      exact hscanned
  | cons p pairs ih =>
      rw [List.length_cons] at hfew
      have hnext := hscanned.next (by omega) p
      have hrest :=
        ih hnext (by
          rw [List.length_append, List.length_singleton]
          omega)
      rwa [List.append_assoc] at hrest

/-- An empty grid holds no pair. -/
theorem getD_cells_of_tryNew
    {colABins colBBins : UInt64}
    (hnew : tryNew colABins colBBins = some (.ok h))
    (k : Nat) :
    h.total = 0 ∧ h.cells.getD k 0 = 0 := by
  unfold tryNew at hnew
  split_ifs at hnew
  · cases hnew
  · cases hnew
  split at hnew
  · cases hnew
  · split_ifs at hnew
    cases hnew
    constructor
    · rfl
    · simp [emptyFields, List.getD_eq_getElem?_getD,
        List.getElem?_replicate]
      split_ifs <;> rfl

/-- Nothing is counted in an empty grid. -/
theorem tallied_of_empty
    (hempty : kept pairs = [])
    (htotal : h.total = 0)
    (hcells : ∀ k, h.cells.getD k 0 = 0) :
    h.Tallied pairs where
  cell := by
    intro i _ j _
    rw [hcells, hempty]
    rfl
  total_eq := by
    rw [htotal, hempty]
    rfl
  encloses := by
    rw [hempty]
    intro p hp
    cases hp
  finite := fun hne => absurd hempty hne

/-- What `from_pairs` builds. -/
theorem tallied_of_fromPairs
    {slice : PairSlice}
    {colABins colBBins : UInt64}
    (hbuild :
      fromPairs .exact slice colABins colBBins = some (.ok h)) :
    h.Tallied slice.pairs := by
  have hextent := Support.extent_scan slice.pairs
  unfold fromPairs new at hbuild
  split at hbuild
  · cases hbuild
  · cases hbuild
  · next empty hnew =>
      have htotal := (getD_cells_of_tryNew hnew 0).1
      have hcells := fun k => (getD_cells_of_tryNew hnew k).2
      simp only at hbuild
      split_ifs at hbuild with hpairs hinfinite
      · cases hbuild
        have hnil := List.isEmpty_iff.mp hpairs
        exact tallied_of_empty (by rw [hnil]; rfl) htotal hcells
      · cases hbuild
        rcases hextent.learned with ⟨_, hnone⟩ | ⟨ha, hb⟩
        · exact tallied_of_empty hnone htotal hcells
        · rw [ha.1, hb.1] at hinfinite
          exact absurd hinfinite (by decide)
      · cases hbuild
        have hfew : 0 + slice.pairs.length ≤ u64Max := by
          have hbytes := slice.length_le
          have hmax : isizeMax ≤ u64Max := by
            decide
          omega
        have hstart :
            (empty.withSupport (Support.scan slice.pairs)
              (Support.numbers_scan slice.pairs)).Scanned
              (Support.scan slice.pairs) [] :=
          { aMin_eq := rfl
            aMax_eq := rfl
            bMin_eq := rfl
            bMax_eq := rfl
            cell := by
              intro i _ j _
              change (empty.cells.getD _ 0).toNat = _
              rw [hcells]
              rfl
            total_eq := by
              change empty.total.toNat = _
              rw [htotal]
              rfl }
        have hscanned := hstart.scan hfew
        rw [List.nil_append] at hscanned
        exact
          { cell := hscanned.cell
            total_eq := hscanned.total_eq
            encloses := by
              rw [hscanned.aMin_eq, hscanned.aMax_eq,
                hscanned.bMin_eq, hscanned.bMax_eq]
              exact hextent.encloses
            finite := by
              intro hne
              rw [hscanned.aMin_eq, hscanned.aMax_eq,
                hscanned.bMin_eq, hscanned.bMax_eq]
              exact
                hextent.learned.resolve_left
                  (fun hnone => hne hnone.2) }

end Build

section Merge

variable
  {pairs pairs' : List (F64 × F64)}
  {h other r : CorrelatedHistogram2D}

/-- Adding the cells of a grid whose pairs have the same cells here. -/
theorem Tallied.addCells
    (hh : h.Tallied pairs)
    (ho : other.Tallied pairs')
    (ha : h.colABins = other.colABins)
    (hb : h.colBBins = other.colBBins)
    (hcell : ∀ p ∈ kept pairs', other.cellOf p = h.cellOf p)
    (hencloses :
      ∀ p ∈ kept pairs',
        (h.aMin.le p.1 = true ∧ p.1.le h.aMax = true) ∧
          h.bMin.le p.2 = true ∧ p.2.le h.bMax = true)
    (hfinite :
      kept pairs' ≠ [] →
        (h.aMin.isFinite = true ∧ h.aMax.isFinite = true) ∧
          h.bMin.isFinite = true ∧ h.bMax.isFinite = true)
    (hfew : (pairs ++ pairs').length ≤ u64Max) :
    (addCells h other).Tallied (pairs ++ pairs') := by
  have hkept := length_kept_le pairs
  have hkept' := length_kept_le pairs'
  have hlength : h.cells.length = other.cells.length := by
    rw [h.wellFormed.length_eq, other.wellFormed.length_eq, ha, hb]
  rw [List.length_append] at hfew
  constructor
  · intro i hi j hj
    have hposition : position h.toCorrelatedFields i j < h.cells.length :=
      h.position_lt hi hj
    have hhere := hh.cell i hi j hj
    have hthere := ho.cell i (ha ▸ hi) j (hb ▸ hj)
    have hsame_position :
        position other.toCorrelatedFields i j =
          position h.toCorrelatedFields i j := by
      rw [position, position, hb]
    have hcongr :
        (kept pairs').countP (fun p => other.cellOf p = (i, j)) =
          (kept pairs').countP (fun p => h.cellOf p = (i, j)) := by
      apply List.countP_congr
      intro p hp
      rw [hcell p hp]
    have hle :
        (kept pairs).countP (fun p => h.cellOf p = (i, j)) ≤
          (kept pairs).length :=
      List.countP_le_length
    have hle' :
        (kept pairs').countP (fun p => h.cellOf p = (i, j)) ≤
          (kept pairs').length :=
      List.countP_le_length
    rw [hsame_position, hcongr] at hthere
    change
      ((zipInto saturatingAddU64 h.cells other.cells).getD
        (position h.toCorrelatedFields i j) 0).toNat =
        (kept (pairs ++ pairs')).countP (fun p => h.cellOf p = (i, j))
    rw [getD_zipInto _ hlength _ hposition, kept_append,
      List.countP_append, toNat_saturatingAddU64_of_lt, hhere, hthere]
    rw [hhere, hthere]
    omega
  · have htotal := hh.total_eq
    have htotal' := ho.total_eq
    change (saturatingAddU64 h.total other.total).toNat = _
    rw [kept_append, List.length_append, toNat_saturatingAddU64_of_lt,
      htotal, htotal']
    rw [htotal, htotal']
    omega
  · rw [kept_append]
    intro p hp
    rcases List.mem_append.mp hp with hp | hp
    · exact hh.encloses p hp
    · exact hencloses p hp
  · intro hne
    rw [kept_append] at hne
    by_cases hhere : kept pairs = []
    · rw [hhere, List.nil_append] at hne
      exact hfinite hne
    · exact hh.finite hhere

theorem le_of_partialEq
    {x y : F64}
    (h : x.partialEq y = true) :
    x.le y = true ∧ y.le x = true := by
  simp only [F64.partialEq, Bool.and_eq_true, Bool.not_eq_true',
    decide_eq_true_eq] at h
  obtain ⟨⟨hx, hy⟩, hscaled⟩ := h
  exact
    ⟨(F64.le_iff hx hy).mpr hscaled.le,
      (F64.le_iff hy hx).mpr hscaled.ge⟩

/-- A merge that succeeds counts the pairs of both. -/
theorem Tallied.merge
    (hh : h.Tallied pairs)
    (ho : other.Tallied pairs')
    (hfew : (pairs ++ pairs').length ≤ u64Max)
    (hmerge : h.merge other = .ok r) :
    r.Tallied (pairs ++ pairs') := by
  unfold CorrelatedHistogram2D.merge at hmerge
  split_ifs at hmerge with hbins hzero hlayout
  · -- the receiver is empty and takes over the bounds
    rw [not_or, not_not, not_not] at hbins
    cases hmerge
    have hempty := hh.kept_eq_nil_iff.mpr hzero
    have hinherits : (h.inheritSupport other).Tallied pairs :=
      { cell := by
          intro i hi j hj
          have hcount := hh.cell i hi j hj
          rw [hempty] at hcount ⊢
          exact hcount
        total_eq := hh.total_eq
        encloses := by
          rw [hempty]
          intro p hp
          cases hp
        finite := fun hne => absurd hempty hne }
    refine
      hinherits.addCells ho hbins.1 hbins.2 ?_ ho.encloses ho.finite
        hfew
    intro p _
    change (_, _) = (_, _)
    rw [← hbins.1, ← hbins.2]
    rfl
  · rw [not_or, not_not, not_not] at hbins
    cases hmerge
    by_cases hempty : other.total = 0
    · -- the other one is empty and adds nothing
      have hnil := ho.kept_eq_nil_iff.mpr hempty
      refine
        hh.addCells ho hbins.1 hbins.2 ?_ ?_ ?_ hfew
      · rw [hnil]
        intro p hp
        cases hp
      · rw [hnil]
        intro p hp
        cases hp
      · intro hne
        exact absurd hnil hne
    · -- both count pairs, within equal bounds
      rw [not_and] at hlayout
      have hequal := hlayout hempty
      simp only [Bool.or_eq_true, Bool.not_eq_true', not_or,
        Bool.not_eq_false] at hequal
      obtain ⟨⟨⟨haMin, haMax⟩, hbMin⟩, hbMax⟩ := hequal
      obtain ⟨ha, hb⟩ := hh.finite (mt hh.kept_eq_nil_iff.mp hzero)
      obtain ⟨ha', hb'⟩ := ho.finite (mt ho.kept_eq_nil_iff.mp hempty)
      refine
        hh.addCells ho hbins.1 hbins.2 ?_ ?_ (fun _ => ⟨ha, hb⟩) hfew
      · intro p hp
        have hcounts := (List.mem_filter.mp hp).2
        rw [Support.counts, Bool.and_eq_true] at hcounts
        rw [cellOf, cellOf, ← hbins.1, ← hbins.2,
          bucketIndex_congr ha.1 ha.2 ha'.1 ha'.2
            (F64.isFinite_not_isNaN hcounts.1) haMin haMax,
          bucketIndex_congr hb.1 hb.2 hb'.1 hb'.2
            (F64.isFinite_not_isNaN hcounts.2) hbMin hbMax]
      · intro p hp
        obtain ⟨hpa, hpb⟩ := ho.encloses p hp
        exact
          ⟨⟨F64.le_trans (le_of_partialEq haMin).1 hpa.1,
              F64.le_trans hpa.2 (le_of_partialEq haMax).2⟩,
            F64.le_trans (le_of_partialEq hbMin).1 hpb.1,
            F64.le_trans hpb.2 (le_of_partialEq hbMax).2⟩

end Merge

section InPlace

/-- `merge` on the receiver: both checks run before the first cell is added. -/
def mergeInPlace
    (other : CorrelatedFields) : EStateM Error CorrelatedFields Unit := do
  let s ← get
  if s.colABins ≠ other.colABins ∨ s.colBBins ≠ other.colBBins then
    throw
      (.invalidSketch
        "CorrelatedHistogram2D bin dimension mismatch in merge")
  if s.total = 0 then
    modify fun s =>
      { s with
        aMin := other.aMin
        aMax := other.aMax
        bMin := other.bMin
        bMax := other.bMax }
  else if
      other.total ≠ 0 ∧
        (!s.aMin.partialEq other.aMin ||
          !s.aMax.partialEq other.aMax ||
          !s.bMin.partialEq other.bMin ||
          !s.bMax.partialEq other.bMax) then
    throw
      (.invalidSketch
        "CorrelatedHistogram2D bin layout mismatch (min/max differ) in merge")
  forEach other.cells.zipIdx fun b s =>
    { s with
      cells := s.cells.modify b.2 (fun a => saturatingAddU64 a b.1) }
  modify fun s =>
    { s with total := saturatingAddU64 s.total other.total }

/-- The loop writes the cells that `merge` returns. -/
theorem run_mergeLoop
    (s : CorrelatedFields)
    (cells : List UInt64) :
    (forEach cells.zipIdx
        (fun b (s : CorrelatedFields) =>
          { s with
            cells :=
              s.cells.modify b.2 (fun a => saturatingAddU64 a b.1) }) :
        EStateM Error CorrelatedFields Unit).run s =
      .ok ()
        { s with cells := zipInto saturatingAddU64 s.cells cells } :=
  run_forEach_zipIdx CorrelatedFields.cells
    (fun s cells => { s with cells := cells })
    (fun _ _ => rfl) (fun _ _ _ => rfl) (fun _ => rfl)
    saturatingAddU64 cells s

theorem mergeInPlace_computes
    (h other : CorrelatedHistogram2D) :
    Computes (mergeInPlace other.toCorrelatedFields)
      h.toCorrelatedFields
      ((h.merge other).map CorrelatedHistogram2D.toCorrelatedFields) := by
  unfold Computes mergeInPlace CorrelatedHistogram2D.merge
  split_ifs with hbins hzero hlayout
  · simp [hbins, Except.map]
  · simp [hbins, hzero, run_mergeLoop, Except.map, addCells,
      inheritSupport]
  · simp only [Bool.or_eq_true, Bool.not_eq_true'] at hlayout
    simp [hbins, hzero, hlayout, Except.map]
  · simp only [ne_eq, Bool.or_eq_true, Bool.not_eq_true'] at hlayout
    simp [hbins, hzero, hlayout, run_mergeLoop, Except.map, addCells]

/-- Both checks are made before a field is written. -/
theorem eq_of_mergeInPlace_error
    (s other t : CorrelatedFields)
    (e : Error)
    (h : (mergeInPlace other).run s = .error e t) :
    t = s := by
  unfold mergeInPlace at h
  by_cases hbins :
      s.colABins ≠ other.colABins ∨ s.colBBins ≠ other.colBBins
  · simp [hbins] at h
    exact h.2.symm
  by_cases hzero : s.total = 0
  · simp [hbins, hzero, run_forEach] at h
  by_cases hlayout :
      ¬other.total = 0 ∧
        (((s.aMin.partialEq other.aMin = false ∨
          s.aMax.partialEq other.aMax = false) ∨
          s.bMin.partialEq other.bMin = false) ∨
          s.bMax.partialEq other.bMax = false)
  · simp [hbins, hzero, hlayout] at h
    exact h.2.symm
  · simp [hbins, hzero, hlayout, run_forEach] at h

end InPlace

/-- Histograms of pairs: empty, of a slice, and merged. -/
inductive Built :
    List (F64 × F64) → CorrelatedHistogram2D → Prop
  | new
      {colABins colBBins : UInt64}
      {h : CorrelatedHistogram2D}
      (hnew : tryNew colABins colBBins = some (.ok h)) :
      Built [] h
  | fromPairs
      {slice : PairSlice}
      {colABins colBBins : UInt64}
      {h : CorrelatedHistogram2D}
      (hbuild :
        fromPairs .exact slice colABins colBBins = some (.ok h)) :
      Built slice.pairs h
  | merge
      {pairs pairs' : List (F64 × F64)}
      {h other r : CorrelatedHistogram2D}
      (receiver : Built pairs h)
      (argument : Built pairs' other)
      (hmerge : h.merge other = .ok r) :
      Built (pairs ++ pairs') r

/-- Every tree of merges counts every pair in its cell. -/
theorem Built.tallied
    {pairs : List (F64 × F64)}
    {h : CorrelatedHistogram2D}
    (hbuilt : Built pairs h)
    (hfew : pairs.length ≤ u64Max) :
    h.Tallied pairs := by
  induction hbuilt with
  | new hnew =>
      exact
        tallied_of_empty rfl (getD_cells_of_tryNew hnew 0).1
          (fun k => (getD_cells_of_tryNew hnew k).2)
  | fromPairs hbuild =>
      exact tallied_of_fromPairs hbuild
  | merge receiver argument hmerge ihr iha =>
      have hlength := hfew
      rw [List.length_append] at hlength
      exact (ihr (by omega)).merge (iha (by omega)) hfew hmerge

end CorrelatedHistogram2D

/--
**A correlated histogram never undercounts a rectangle**, over every tree of
constructions and merges, with empty histograms anywhere in it.  A merge that
fails leaves its receiver as it was.
-/
theorem correlated_never_undercounts :
    (∀ pairs h,
      CorrelatedHistogram2D.Built pairs h →
      pairs.length < 2 ^ 64 →
      h.NeverUndercounts pairs) ∧
    (∀ h other : CorrelatedHistogram2D,
      Computes
        (CorrelatedHistogram2D.mergeInPlace other.toCorrelatedFields)
        h.toCorrelatedFields
        ((h.merge other).map
          CorrelatedHistogram2D.toCorrelatedFields)) ∧
    ∀ (s other t : CorrelatedFields) (e : Error),
      (CorrelatedHistogram2D.mergeInPlace other).run s = .error e t →
      t = s := by
  refine
    ⟨?_, CorrelatedHistogram2D.mergeInPlace_computes,
      CorrelatedHistogram2D.eq_of_mergeInPlace_error⟩
  intro pairs h hbuilt hfew
  exact (hbuilt.tallied (Nat.le_pred_of_lt hfew)).neverUndercounts

/-- Two corners of the support, and a pair that is skipped. -/
def cornerPairs : PairSlice where
  pairs := [(.one, .zero), (.zero, .nan), (.zero, .one)]
  length_le := by decide

/-- A histogram merges with a histogram of its own pairs. -/
theorem exists_merge_self
    (h : CorrelatedHistogram2D) :
    ∃ r, h.merge h = .ok r := by
  have hbounds :
      ∀ bound ∈ h.bounds, bound.2.partialEq bound.2 = true := by
    intro bound hbound
    simp [F64.partialEq, h.wellFormed.numbers bound hbound]
  simp only [CorrelatedFields.bounds, List.forall_mem_cons] at hbounds
  obtain ⟨haMin, haMax, hbMin, hbMax, _⟩ := hbounds
  unfold CorrelatedHistogram2D.merge
  rw [if_neg (by simp)]
  split_ifs with hzero hlayout
  · exact ⟨_, rfl⟩
  · simp [haMin, haMax, hbMin, hbMax] at hlayout
  · exact ⟨_, rfl⟩

theorem correlated_never_undercounts_cornerPairs :
    ∃ h r,
      CorrelatedHistogram2D.fromPairs .exact cornerPairs 2 3 =
          some (.ok h) ∧
        h.merge h = .ok r ∧
        r.NeverUndercounts (cornerPairs.pairs ++ cornerPairs.pairs) := by
  obtain ⟨empty, hnew⟩ :
      ∃ empty, CorrelatedHistogram2D.new 2 3 = some (.ok empty) :=
    ⟨_, rfl⟩
  obtain ⟨h, hbuild⟩ :
      ∃ h,
        CorrelatedHistogram2D.fromPairs .exact cornerPairs 2 3 =
          some (.ok h) := by
    simp only [CorrelatedHistogram2D.fromPairs, hnew]
    split_ifs <;> exact ⟨_, rfl⟩
  obtain ⟨r, hmerge⟩ := exists_merge_self h
  exact
    ⟨h, r, hbuild, hmerge,
      correlated_never_undercounts.1 _ _
        (.merge (.fromPairs hbuild) (.fromPairs hbuild) hmerge)
        (by decide)⟩

end Samkhya
