import Mathlib
import Samkhya.Core.Sketch
import Samkhya.Foundations.Binary64
import Samkhya.Foundations.CellArray
import Samkhya.Foundations.Saturating

/-!
# Correlated histograms

A grid of counters over two numeric columns, cut into buckets of equal width.
The bounds of the grid are the smallest and largest finite values seen, so they
are never NaN; the bucket of a value is computed in floating point and then cut
off, so it always lies in the grid.
-/

namespace Samkhya

open FieldCodec Binary64 Saturating CellArray

/-- The fields of a histogram, as the serializer reads them. -/
structure CorrelatedFields where
  colABins : UInt32
  colBBins : UInt32
  aMin : F64
  aMax : F64
  bMin : F64
  bMax : F64
  cells : List UInt64
  total : UInt64
deriving DecidableEq

/-- The fields in the order in which they are written. -/
def CorrelatedFields.codec : Codec CorrelatedFields :=
  (Codec.u32.pair (Codec.u32.pair (f64.pair (f64.pair (f64.pair
    (f64.pair (Codec.u64.vec.pair Codec.u64))))))).iso
    (fun s =>
      (s.colABins, s.colBBins, s.aMin, s.aMax, s.bMin, s.bMax,
        s.cells, s.total))
    (fun p =>
      ⟨p.1, p.2.1, p.2.2.1, p.2.2.2.1, p.2.2.2.2.1,
        p.2.2.2.2.2.1, p.2.2.2.2.2.2.1, p.2.2.2.2.2.2.2⟩)
    (fun _ => rfl)

/-- The bounds of both columns with their names. -/
def CorrelatedFields.bounds (s : CorrelatedFields) :
    List (String × F64) :=
  [("a_min", s.aMin), ("a_max", s.aMax), ("b_min", s.bMin),
    ("b_max", s.bMax)]

/-- The cells form a non-empty grid and its bounds are numbers. -/
structure CorrelatedFields.WellFormed (s : CorrelatedFields) : Prop where
  colABins_ne : s.colABins ≠ 0
  colBBins_ne : s.colBBins ≠ 0
  length_eq :
    s.cells.length = s.colABins.toNat * s.colBBins.toNat
  numbers : ∀ bound ∈ s.bounds, bound.2.isNaN = false

/-- Two-column histogram with its grid. -/
structure CorrelatedHistogram2D extends CorrelatedFields where
  wellFormed : toCorrelatedFields.WellFormed
deriving DecidableEq

/-- A slice of pairs of doubles; it never exceeds `isize::MAX` bytes. -/
structure PairSlice where
  pairs : List (F64 × F64)
  length_le : pairs.length * 16 ≤ isizeMax

/-- The extent of both columns while a scan learns it. -/
structure Support where
  aMin : F64
  aMax : F64
  bMin : F64
  bMax : F64

namespace Support

/-- The support of no pair at all. -/
def empty : Support where
  aMin := .infinity
  aMax := .negInfinity
  bMin := .infinity
  bMax := .negInfinity

/-- Whether a scan takes notice of a pair. -/
def counts (p : F64 × F64) : Bool :=
  p.1.isFinite && p.2.isFinite

/-- Widen the support to a pair. -/
def widen (s : Support) (p : F64 × F64) : Support :=
  if counts p then
    { aMin := if p.1.lt s.aMin then p.1 else s.aMin
      aMax := if s.aMax.lt p.1 then p.1 else s.aMax
      bMin := if p.2.lt s.bMin then p.2 else s.bMin
      bMax := if s.bMax.lt p.2 then p.2 else s.bMax }
  else
    s

/-- The support of a list of pairs. -/
def scan (pairs : List (F64 × F64)) : Support :=
  pairs.foldl widen empty

/-- All four bounds are numbers. -/
structure Numbers (s : Support) : Prop where
  aMin : s.aMin.isNaN = false
  aMax : s.aMax.isNaN = false
  bMin : s.bMin.isNaN = false
  bMax : s.bMax.isNaN = false

theorem Numbers.widen
    {s : Support}
    (h : s.Numbers)
    (p : F64 × F64) :
    (s.widen p).Numbers := by
  unfold Support.widen
  cases hcounts : counts p with
  | false =>
      exact h
  | true =>
      rw [counts, Bool.and_eq_true] at hcounts
      have ha := F64.isFinite_not_isNaN hcounts.1
      have hb := F64.isFinite_not_isNaN hcounts.2
      constructor
      · simp only [if_true]
        split_ifs
        exacts [ha, h.aMin]
      · simp only [if_true]
        split_ifs
        exacts [ha, h.aMax]
      · simp only [if_true]
        split_ifs
        exacts [hb, h.bMin]
      · simp only [if_true]
        split_ifs
        exacts [hb, h.bMax]

/-- A scan never learns a NaN. -/
theorem numbers_scan
    (pairs : List (F64 × F64)) :
    (scan pairs).Numbers := by
  have hfold :
      ∀ s : Support, s.Numbers → (pairs.foldl widen s).Numbers := by
    induction pairs with
    | nil =>
        intro s hs
        exact hs
    | cons p pairs ih =>
        intro s hs
        exact ih (s.widen p) (hs.widen p)
  apply hfold
  constructor <;> decide

/-- Nothing has been seen yet, or the bounds are in order. -/
def Known (s : Support) : Prop :=
  s = empty ∨ s.aMin.le s.aMax = true ∧ s.bMin.le s.bMax = true

/-- Both new bounds of a column enclose the value that was seen. -/
theorem widen_encloses
    {lo hi v : F64}
    (hlo : lo.isNaN = false)
    (hhi : hi.isNaN = false)
    (hv : v.isNaN = false) :
    (if v.lt lo then v else lo).le (if hi.lt v then v else hi) =
      true := by
  have hleft : (if v.lt lo then v else lo).le v = true := by
    split_ifs with h
    · exact F64.le_self hv
    · rw [Bool.not_eq_true] at h
      exact F64.le_of_not_lt hv hlo h
  have hright : v.le (if hi.lt v then v else hi) = true := by
    split_ifs with h
    · exact F64.le_self hv
    · rw [Bool.not_eq_true] at h
      exact F64.le_of_not_lt hhi hv h
  exact F64.le_trans hleft hright

theorem Known.widen
    {s : Support}
    (hknown : s.Known)
    (hs : s.Numbers)
    (p : F64 × F64) :
    (s.widen p).Known := by
  unfold Support.widen
  cases hcounts : counts p with
  | false =>
      exact hknown
  | true =>
      rw [counts, Bool.and_eq_true] at hcounts
      have ha := F64.isFinite_not_isNaN hcounts.1
      have hb := F64.isFinite_not_isNaN hcounts.2
      exact
        Or.inr
          ⟨widen_encloses hs.aMin hs.aMax ha,
            widen_encloses hs.bMin hs.bMax hb⟩

/-- A scan that has learned a finite bound has learned ordered bounds. -/
theorem ordered_scan
    {pairs : List (F64 × F64)}
    (h : (scan pairs).aMin.isFinite = true) :
    (scan pairs).aMin.le (scan pairs).aMax = true ∧
      (scan pairs).bMin.le (scan pairs).bMax = true := by
  have hfold :
      ∀ s : Support, s.Numbers → s.Known →
        (pairs.foldl widen s).Known := by
    clear h
    induction pairs with
    | nil =>
        intro s _ hknown
        exact hknown
    | cons p pairs ih =>
        intro s hs hknown
        exact ih (s.widen p) (hs.widen p) (hknown.widen hs p)
  have hknown : (scan pairs).Known :=
    hfold empty (by constructor <;> decide) (Or.inl rfl)
  rcases hknown with hempty | hordered
  · rw [hempty] at h
    exact absurd h (by decide)
  · exact hordered

end Support

namespace CorrelatedHistogram2D

/-- The fields of a grid that has counted nothing. -/
def emptyFields (colABins colBBins : UInt64) (size : Nat) :
    CorrelatedFields where
  colABins := UInt32.ofNat colABins.toNat
  colBBins := UInt32.ofNat colBBins.toNat
  aMin := .zero
  aMax := .zero
  bMin := .zero
  bMax := .zero
  cells := List.replicate size 0
  total := 0

theorem toNat_bins
    {bins : UInt64}
    (h : ¬ u32Max < bins.toNat) :
    (UInt32.ofNat bins.toNat).toNat = bins.toNat :=
  UInt32.toNat_ofNat_of_lt' (Nat.lt_succ_of_le (not_lt.mp h))

theorem bins_ne
    {bins : UInt64}
    (hne : bins ≠ 0)
    (h : ¬ u32Max < bins.toNat) :
    UInt32.ofNat bins.toNat ≠ 0 := by
  intro hzero
  apply hne
  rw [← UInt64.toNat_inj, ← toNat_bins h, hzero]
  rfl

theorem wellFormed_emptyFields
    {colABins colBBins : UInt64}
    {size : Nat}
    (hzero : ¬ (colABins = 0 ∨ colBBins = 0))
    (hlarge : ¬ (u32Max < colABins.toNat ∨ u32Max < colBBins.toNat))
    (hsize :
      checkedMulUsize colABins.toNat colBBins.toNat = some size) :
    (emptyFields colABins colBBins size).WellFormed := by
  rw [not_or] at hzero hlarge
  constructor
  · exact bins_ne hzero.1 hlarge.1
  · exact bins_ne hzero.2 hlarge.2
  · unfold checkedMulUsize at hsize
    split_ifs at hsize
    change (List.replicate size _).length = _ * _
    rw [List.length_replicate]
    change size = (UInt32.ofNat _).toNat * (UInt32.ofNat _).toNat
    rw [toNat_bins hlarge.1, toNat_bins hlarge.2]
    exact (Option.some.inj hsize).symm
  · simp only [CorrelatedFields.bounds, emptyFields]
    decide

/-- Fallible constructor; `none` is the panic of a too large allocation. -/
def tryNew
    (colABins colBBins : UInt64) :
    Option (Except Error CorrelatedHistogram2D) :=
  if hzero : colABins = 0 ∨ colBBins = 0 then
    some
      (.error
        (.invalidSketch
          "CorrelatedHistogram2D bin counts must be > 0"))
  else if
      hlarge : u32Max < colABins.toNat ∨ u32Max < colBBins.toNat then
    some
      (.error
        (.invalidSketch
          "CorrelatedHistogram2D bin counts must fit in u32"))
  else
    match hsize : checkedMulUsize colABins.toNat colBBins.toNat with
    | none =>
        some
          (.error
            (.invalidSketch "CorrelatedHistogram2D size overflow"))
    | some size =>
        if isizeMax < size * 8 then
          none
        else
          some
            (.ok
              { emptyFields colABins colBBins size with
                wellFormed :=
                  wellFormed_emptyFields hzero hlarge hsize })

def new
    (colABins colBBins : UInt64) :
    Option (Except Error CorrelatedHistogram2D) :=
  tryNew colABins colBBins

/-- Structural validation of a deserialised payload. -/
def validate
    (s : CorrelatedFields) : Except Error CorrelatedHistogram2D :=
  if hzero : s.colABins = 0 ∨ s.colBBins = 0 then
    .error
      (.invalidSketch
        "CorrelatedHistogram2D decoded bins must both be > 0")
  else
    match hsize :
        checkedMulUsize s.colABins.toNat s.colBBins.toNat with
    | none =>
        .error
          (.invalidSketch
            "CorrelatedHistogram2D decoded cells overflow")
    | some expected =>
        if hlength : s.cells.length ≠ expected then
          .error
            (.invalidSketch
              ("CorrelatedHistogram2D cells.len() " ++
                toString s.cells.length ++
                " != col_a_bins*col_b_bins = " ++
                toString expected))
        else
          match hnan : s.bounds.find? (fun bound => bound.2.isNaN) with
          | some (name, _) =>
              .error
                (.invalidSketch
                  ("CorrelatedHistogram2D " ++ name ++ " is NaN"))
          | none =>
              .ok
                { s with
                  wellFormed :=
                    { colABins_ne := fun h => hzero (Or.inl h)
                      colBBins_ne := fun h => hzero (Or.inr h)
                      length_eq := by
                        rw [checkedMulUsize_toNat] at hsize
                        rw [not_not.mp hlength]
                        exact (Option.some.inj hsize).symm
                      numbers := by
                        simpa using hnan } }

/-- Bucket of a value in a column with known bounds. -/
def bucketIndex
    {ρ : Type}
    (A : Arithmetic ρ)
    (v lo hi : F64)
    (nbins : UInt32) : Nat :=
  let n := nbins.toNat
  if n = 0 then 0
  else if hi.le lo then 0
  else if v.le lo then 0
  else if hi.le v then n - 1
  else
    let frac :=
      A.div (A.sub (A.ofF64 v) (A.ofF64 lo))
        (A.sub (A.ofF64 hi) (A.ofF64 lo))
    let idx :=
      A.toU64 (A.floor (A.mul frac (A.ofU64 nbins.toUInt64)))
    min idx.toNat (n - 1)

/-- A bucket lies in the grid, whatever the arithmetic yields. -/
theorem bucketIndex_lt
    {ρ : Type}
    (A : Arithmetic ρ)
    (v lo hi : F64)
    {nbins : UInt32}
    (h : nbins ≠ 0) :
    bucketIndex A v lo hi nbins < nbins.toNat := by
  have hpos : 0 < nbins.toNat := toNat_pos_of_ne h
  unfold bucketIndex
  simp only
  split_ifs
  · exact hpos
  · exact hpos
  · exact hpos
  · exact Nat.sub_lt hpos Nat.one_pos
  · exact
      (Nat.min_le_right _ _).trans_lt (Nat.sub_lt hpos Nat.one_pos)

/-- The buckets that a query range covers; `none` when it misses the column. -/
def rangeBucketSpan
    {ρ : Type}
    (A : Arithmetic ρ)
    (qLo qHi colMin colMax : F64)
    (nbins : UInt32) : Option (Nat × Nat) :=
  if qHi.lt qLo then none
  else if nbins.toNat = 0 then none
  else if colMax.lt colMin then none
  else if colMax.le colMin then
    -- a column of one value
    if qLo.le colMin && colMin.le qHi then
      some (0, nbins.toNat - 1)
    else
      none
  else if qHi.lt colMin || colMax.lt qLo then none
  else
    some
      (bucketIndex A qLo colMin colMax nbins,
        bucketIndex A qHi colMin colMax nbins)

/-- The indices `lo..=hi` of a loop. -/
def inclusive (span : Nat × Nat) : List Nat :=
  List.range' span.1 (span.2 + 1 - span.1)

/-- Position of a cell. -/
def position (s : CorrelatedFields) (i j : Nat) : Nat :=
  rowMajor s.colBBins.toNat i j

/-- Number of rows in the cells that a two-column range touches. -/
def estimateRange
    {ρ : Type}
    (A : Arithmetic ρ)
    (h : CorrelatedHistogram2D)
    (aLo aHi bLo bHi : F64) : UInt64 :=
  if h.total = 0 then 0
  else
    match rangeBucketSpan A aLo aHi h.aMin h.aMax h.colABins with
    | none => 0
    | some aSpan =>
        match rangeBucketSpan A bLo bHi h.bMin h.bMax h.colBBins with
        | none => 0
        | some bSpan =>
            (inclusive aSpan).foldl
              (fun sum i =>
                (inclusive bSpan).foldl
                  (fun sum j =>
                    saturatingAddU64 sum
                      (h.cells.getD
                        (position h.toCorrelatedFields i j) 0))
                  sum)
              0

/-- Give an empty grid the support of a column pair. -/
def withSupport
    (h : CorrelatedHistogram2D)
    (s : Support)
    (hs : s.Numbers) : CorrelatedHistogram2D :=
  { h with
    aMin := s.aMin
    aMax := s.aMax
    bMin := s.bMin
    bMax := s.bMax
    wellFormed :=
      { h.wellFormed with
        numbers := by
          simp [CorrelatedFields.bounds, hs.aMin, hs.aMax,
            hs.bMin, hs.bMax] } }

/-- Count one pair. -/
def countPair
    {ρ : Type}
    (A : Arithmetic ρ)
    (s : Support)
    (h : CorrelatedHistogram2D)
    (p : F64 × F64) : CorrelatedHistogram2D :=
  if Support.counts p then
    let i := bucketIndex A p.1 s.aMin s.aMax h.colABins
    let j := bucketIndex A p.2 s.bMin s.bMax h.colBBins
    { h with
      cells :=
        h.cells.modify (position h.toCorrelatedFields i j)
          (fun c => saturatingAddU64 c 1)
      total := saturatingAddU64 h.total 1
      wellFormed :=
        { h.wellFormed with
          length_eq := by
            rw [List.length_modify]
            exact h.wellFormed.length_eq } }
  else
    h

/-- Learn the support of the pairs, then count them. -/
def fromPairs
    {ρ : Type}
    (A : Arithmetic ρ)
    (slice : PairSlice)
    (colABins colBBins : UInt64) :
    Option (Except Error CorrelatedHistogram2D) :=
  match new colABins colBBins with
  | none => none
  | some (.error e) => some (.error e)
  | some (.ok h) =>
      let s := Support.scan slice.pairs
      if slice.pairs.isEmpty then
        some (.ok h)
      else if !s.aMin.isFinite || !s.bMin.isFinite then
        some (.ok h)
      else
        some
          (.ok
            (slice.pairs.foldl (countPair A s)
              (h.withSupport s (Support.numbers_scan slice.pairs))))

/-- Take over the support of another histogram. -/
def inheritSupport
    (h other : CorrelatedHistogram2D) : CorrelatedHistogram2D :=
  { h with
    aMin := other.aMin
    aMax := other.aMax
    bMin := other.bMin
    bMax := other.bMax
    wellFormed :=
      { h.wellFormed with
        numbers := other.wellFormed.numbers } }

/-- Cell-wise saturating sum of two histograms of one shape. -/
def addCells
    (h other : CorrelatedHistogram2D) : CorrelatedHistogram2D :=
  { h with
    cells := zipInto saturatingAddU64 h.cells other.cells
    total := saturatingAddU64 h.total other.total
    wellFormed :=
      { h.wellFormed with
        length_eq := by
          rw [length_zipInto]
          exact h.wellFormed.length_eq } }

/-- Merge two histograms of one shape and support. -/
def merge
    (h other : CorrelatedHistogram2D) :
    Except Error CorrelatedHistogram2D :=
  if h.colABins ≠ other.colABins ∨ h.colBBins ≠ other.colBBins then
    .error
      (.invalidSketch
        "CorrelatedHistogram2D bin dimension mismatch in merge")
  else if h.total = 0 then
    -- an empty histogram inherits the support of the other
    .ok (addCells (h.inheritSupport other) other)
  else if
      other.total ≠ 0 ∧
        (!h.aMin.partialEq other.aMin ||
          !h.aMax.partialEq other.aMax ||
          !h.bMin.partialEq other.bMin ||
          !h.bMax.partialEq other.bMax) then
    .error
      (.invalidSketch
        "CorrelatedHistogram2D bin layout mismatch (min/max differ) in merge")
  else
    .ok (addCells h other)

def toBytes
    (bincode : Bincode CorrelatedFields)
    (h : CorrelatedHistogram2D) : Except Error Bytes :=
  (bincode.serialize h.toCorrelatedFields).mapError Error.serde

def fromBytes
    (bincode : Bincode CorrelatedFields)
    (bytes : Bytes) : Except Error CorrelatedHistogram2D := do
  let s ← (bincode.deserialize bytes).mapError Error.serde
  validate s

/-- Every cell that is written or read exists. -/
theorem position_lt
    (h : CorrelatedHistogram2D)
    {i j : Nat}
    (hi : i < h.colABins.toNat)
    (hj : j < h.colBBins.toNat) :
    position h.toCorrelatedFields i j < h.cells.length := by
  rw [h.wellFormed.length_eq]
  exact rowMajor_lt hi hj

theorem validate_toCorrelatedFields
    (h : CorrelatedHistogram2D) :
    validate h.toCorrelatedFields = .ok h := by
  have hzero : ¬ (h.colABins = 0 ∨ h.colBBins = 0) := by
    rw [not_or]
    exact ⟨h.wellFormed.colABins_ne, h.wellFormed.colBBins_ne⟩
  have hnumbers :
      h.bounds.find? (fun bound => bound.2.isNaN) = none := by
    rw [List.find?_eq_none]
    intro bound hbound
    rw [h.wellFormed.numbers bound hbound]
    decide
  unfold validate
  rw [dif_neg hzero]
  split
  · next hsize =>
      rw [checkedMulUsize_toNat] at hsize
      cases hsize
  · next expected hsize =>
      rw [checkedMulUsize_toNat] at hsize
      obtain rfl := Option.some.inj hsize
      rw [dif_neg (not_not.mpr h.wellFormed.length_eq)]
      split
      · next hsome =>
          rw [hnumbers] at hsome
          cases hsome
      · rfl

/-- Every histogram is read back as it was written. -/
theorem hop_self
    (h : CorrelatedHistogram2D) :
    (h.toBytes (.ofCodec CorrelatedFields.codec) >>=
        fromBytes (.ofCodec CorrelatedFields.codec)) =
      .ok h := by
  have hlength : h.cells.length < 256 ^ 8 := by
    rw [h.wellFormed.length_eq]
    calc
      h.colABins.toNat * h.colBBins.toNat < 2 ^ 32 * 2 ^ 32 :=
        Nat.mul_lt_mul'' h.colABins.toNat_lt h.colBBins.toNat_lt
      _ = 256 ^ 8 := by decide
  have hfits : CorrelatedFields.codec.Fits h.toCorrelatedFields :=
    ⟨trivial, trivial, trivial, trivial, trivial, trivial,
      ⟨hlength, fun _ _ => trivial⟩, trivial⟩
  exact
    (Bincode.hop_eq hfits validate).trans
      (validate_toCorrelatedFields h)

end CorrelatedHistogram2D

end Samkhya
