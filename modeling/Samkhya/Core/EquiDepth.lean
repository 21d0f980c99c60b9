import Mathlib
import Samkhya.Core.Sketch
import Samkhya.Foundations.Binary64
import Samkhya.Foundations.Saturating
import Samkhya.Foundations.StableSort

/-!
# Equi-depth histograms

`from_values` sorts a column and cuts it into buckets of nearly equal depth;
the edges of the buckets are values at fixed indices of the sorted list.  The
comparator of the sort treats a NaN as equal to everything, so it orders the
column only when there is none, or when all other values are the same.

`Valid` is what the decoder checks.  The decoder rejects a NaN edge and a
decreasing one, the constructor rules out neither.
-/

namespace Samkhya

open FieldCodec Binary64 Saturating StableSort

/-- Bucket edges, bucket counts and their total. -/
structure EquiDepthHistogram where
  boundaries : List F64
  counts : List UInt64
  total : UInt64
deriving DecidableEq

/-- The fields in the order in which they are written. -/
def EquiDepthHistogram.codec : Codec EquiDepthHistogram :=
  (f64.vec.pair (Codec.u64.vec.pair Codec.u64)).iso
    (fun h => (h.boundaries, h.counts, h.total))
    (fun p => ⟨p.1, p.2.1, p.2.2⟩)
    (fun _ => rfl)

/-- A slice of doubles; it never exceeds `isize::MAX` bytes. -/
structure F64Slice where
  values : List F64
  length_le : values.length * 8 ≤ isizeMax

/-- The comparator of the sort: what is not comparable is equal. -/
def comparator (a b : F64) : Ordering :=
  (a.partialCmp b).getD .eq

namespace EquiDepthHistogram

def minBuckets : Nat :=
  2

/-- The error for fewer than two buckets. -/
def tooFewBuckets (buckets : Nat) : Error :=
  .invalidSketch
    ("EquiDepthHistogram requires buckets >= " ++ toString minBuckets ++
      " (Ioannidis-Poosala 1996, Jagadish 1998); got " ++
      toString buckets)

/-- An empty shell; `none` is the panic of an allocation that is too large. -/
def tryNew (buckets : UInt64) : Option (Except Error EquiDepthHistogram) :=
  if buckets.toNat < minBuckets then
    some (.error (tooFewBuckets buckets.toNat))
  else if isizeMax < (buckets.toNat + 1) * 8 then
    none
  else
    some
      (.ok
        { boundaries := List.replicate (buckets.toNat + 1) F64.zero
          counts := List.replicate buckets.toNat 0
          total := 0 })

/-- The variables of the bucket loop. -/
structure Fill where
  remainder : Nat
  cursor : Nat
  boundaries : List F64
  counts : List UInt64

/-- One bucket: an item more while the remainder lasts. -/
def fillBucket (sorted : List F64) (perBucket : Nat) (s : Fill) : Fill :=
  let take := if 0 < s.remainder then perBucket + 1 else perBucket
  let cursor := s.cursor + take
  let edgeIdx := min cursor sorted.length - 1
  { remainder := s.remainder - 1
    cursor := cursor
    boundaries := s.boundaries ++ [sorted.getD edgeIdx F64.zero]
    counts := s.counts ++ [UInt64.ofNat take] }

/-- Cut a sorted list into buckets. -/
def partition (sorted : List F64) (buckets : Nat) : EquiDepthHistogram :=
  let n := sorted.length
  let start : Fill :=
    { remainder := n % buckets
      cursor := 0
      boundaries := [sorted.getD 0 F64.zero]
      counts := [] }
  let s := (fillBucket sorted (n / buckets))^[buckets] start
  { boundaries := s.boundaries
    counts := s.counts
    total := UInt64.ofNat n }

/-- Build a histogram of a column; `none` is a panic of the sort. -/
def fromValues
    (sort : SortBy comparator)
    (values : F64Slice)
    (buckets : UInt64) : Option (Except Error EquiDepthHistogram) :=
  if buckets.toNat < minBuckets then
    some (.error (tooFewBuckets buckets.toNat))
  else if values.values.length < minBuckets then
    some
      (.error
        (.invalidSketch
          ("EquiDepthHistogram requires values.len() >= " ++
            toString minBuckets ++
            " to populate a non-trivial equi-depth partition; got " ++
            toString values.values.length)))
  else
    match sort.run values.values with
    | none => none
    | some sorted =>
        some (.ok (partition sorted (min buckets.toNat sorted.length)))

section Estimate

variable {ρ : Type}

/-- What one bucket adds to the estimate. -/
def bucketEstimate
    (A : Arithmetic ρ)
    (lo hi bLo bHi : F64)
    (count : UInt64)
    (estimate : ρ) : ρ :=
  let cnt := A.ofU64 count
  if bHi.lt lo || hi.lt bLo then
    estimate
  else if lo.le bLo && bHi.le hi then
    A.add estimate cnt
  else
    let overlapLo := bLo.max lo
    let overlapHi := bHi.min hi
    let bucketWidth :=
      A.max (A.sub (A.ofF64 bHi) (A.ofF64 bLo)) A.epsilon
    let overlapWidth :=
      A.max (A.sub (A.ofF64 overlapHi) (A.ofF64 overlapLo))
        (A.ofU64 0)
    A.add estimate (A.mul cnt (A.div overlapWidth bucketWidth))

/-- Estimated number of items in `[lo, hi]`. -/
def estimateRange
    (A : Arithmetic ρ)
    (h : EquiDepthHistogram)
    (lo hi : F64) : UInt64 :=
  if hi.lt lo || h.counts.isEmpty then
    0
  else
    let estimate :=
      (List.range h.counts.length).foldl
        (fun estimate i =>
          bucketEstimate A lo hi
            (h.boundaries.getD i F64.zero)
            (h.boundaries.getD (i + 1) F64.zero)
            (h.counts.getD i 0) estimate)
        (A.ofU64 0)
    A.toU64 (A.max estimate (A.ofU64 0))

end Estimate

/-- The first two neighbours in decreasing order. -/
def firstDecrease : List F64 → Option (F64 × F64)
  | a :: b :: rest =>
      if b.lt a then some (a, b) else firstDecrease (b :: rest)
  | _ => none

/-- Structural validation of a deserialised payload. -/
def validate
    (display : F64 → String)
    (h : EquiDepthHistogram) : Except Error Unit :=
  if h.counts.length < minBuckets then
    .error
      (.invalidSketch
        ("EquiDepthHistogram requires >= " ++ toString minBuckets ++
          " buckets (Ioannidis-Poosala 1996, Jagadish 1998); got " ++
          toString h.counts.length))
  else if h.boundaries.length ≠ h.counts.length + 1 then
    .error
      (.invalidSketch
        ("EquiDepthHistogram boundaries.len() " ++
          toString h.boundaries.length ++ " != counts.len()+1 = " ++
          toString (h.counts.length + 1)))
  else
    match h.boundaries.findIdx? F64.isNaN with
    | some i =>
        .error
          (.invalidSketch
            ("EquiDepthHistogram boundary[" ++ toString i ++
              "] is NaN"))
    | none =>
        match firstDecrease h.boundaries with
        | some (a, b) =>
            .error
              (.invalidSketch
                ("EquiDepthHistogram boundaries not non-decreasing: " ++
                  display a ++ " > " ++ display b))
        | none =>
            let sum := h.counts.foldl saturatingAddU64 0
            if sum ≠ h.total then
              .error
                (.invalidSketch
                  ("EquiDepthHistogram total " ++ toString h.total ++
                    " != sum(counts) " ++ toString sum))
            else
              .ok ()

def toBytes
    (bincode : Bincode EquiDepthHistogram)
    (h : EquiDepthHistogram) : Except Error Bytes :=
  (bincode.serialize h).mapError Error.serde

def fromBytes
    (display : F64 → String)
    (bincode : Bincode EquiDepthHistogram)
    (bytes : Bytes) : Except Error EquiDepthHistogram := do
  let h ← (bincode.deserialize bytes).mapError Error.serde
  validate display h
  pure h

section Partition

/-- Items in the first `k` buckets. -/
def cursorAfter (perBucket remainder k : Nat) : Nat :=
  k * perBucket + min k remainder

/-- Index of the `k`-th bucket edge in the sorted list. -/
def edgeIndex (n buckets k : Nat) : Nat :=
  min (cursorAfter (n / buckets) (n % buckets) k) n - 1

/-- Items in the `k`-th bucket. -/
def depth (perBucket remainder k : Nat) : Nat :=
  if k < remainder then perBucket + 1 else perBucket

theorem cursorAfter_succ
    (perBucket remainder k : Nat) :
    cursorAfter perBucket remainder (k + 1) =
      cursorAfter perBucket remainder k +
        depth perBucket remainder k := by
  unfold cursorAfter depth
  rw [Nat.succ_mul]
  split_ifs <;> omega

theorem sum_depth
    (perBucket remainder k : Nat) :
    ((List.range k).map (depth perBucket remainder)).sum =
      cursorAfter perBucket remainder k := by
  induction k with
  | zero =>
      simp [cursorAfter]
  | succ k ih =>
      rw [List.range_succ, List.map_append, List.sum_append, ih,
        cursorAfter_succ]
      simp

/-- All buckets together hold all items. -/
theorem cursorAfter_all
    {n buckets : Nat}
    (h : 0 < buckets) :
    cursorAfter (n / buckets) (n % buckets) buckets = n := by
  have hlt := Nat.mod_lt n h
  unfold cursorAfter
  rw [min_eq_right hlt.le, Nat.mul_comm, Nat.div_add_mod' n buckets]

/-- What the bucket loop has built after `k` turns. -/
theorem iterate_fillBucket
    (sorted : List F64)
    (perBucket remainder k : Nat) :
    (fillBucket sorted perBucket)^[k]
        { remainder := remainder
          cursor := 0
          boundaries := [sorted.getD 0 F64.zero]
          counts := [] } =
      { remainder := remainder - k
        cursor := cursorAfter perBucket remainder k
        boundaries :=
          (List.range (k + 1)).map
            (fun i =>
              sorted.getD
                (min (cursorAfter perBucket remainder i)
                    sorted.length - 1) F64.zero)
        counts :=
          (List.range k).map
            (fun i =>
              UInt64.ofNat (depth perBucket remainder i)) } := by
  induction k with
  | zero =>
      simp [cursorAfter]
  | succ k ih =>
      have htake :
          (if 0 < remainder - k then perBucket + 1 else perBucket) =
            depth perBucket remainder k := by
        unfold depth
        split_ifs <;> omega
      rw [Function.iterate_succ_apply', ih, fillBucket]
      simp only [htake, ← cursorAfter_succ]
      rw [List.range_succ (n := k + 1), List.range_succ (n := k)]
      simp [Nat.sub_sub]

variable {sorted : List F64} {buckets : Nat}

theorem boundaries_partition :
    (partition sorted buckets).boundaries =
      (List.range (buckets + 1)).map
        (fun k =>
          sorted.getD (edgeIndex sorted.length buckets k)
            F64.zero) := by
  unfold partition
  simp only [iterate_fillBucket]
  rfl

theorem counts_partition :
    (partition sorted buckets).counts =
      (List.range buckets).map
        (fun k =>
          UInt64.ofNat
            (depth (sorted.length / buckets)
              (sorted.length % buckets) k)) := by
  unfold partition
  simp only [iterate_fillBucket]

theorem cursorAfter_mono
    {perBucket remainder i j : Nat}
    (h : i ≤ j) :
    cursorAfter perBucket remainder i ≤
      cursorAfter perBucket remainder j := by
  unfold cursorAfter
  have hmul : i * perBucket ≤ j * perBucket :=
    Nat.mul_le_mul_right _ h
  omega

theorem edgeIndex_mono
    {n buckets i j : Nat}
    (h : i ≤ j) :
    edgeIndex n buckets i ≤ edgeIndex n buckets j := by
  have hcursor :
      cursorAfter (n / buckets) (n % buckets) i ≤
        cursorAfter (n / buckets) (n % buckets) j :=
    cursorAfter_mono h
  unfold edgeIndex
  omega

/-- Every edge is an element of the list. -/
theorem edgeIndex_lt
    {n buckets : Nat}
    (hn : 0 < n)
    (k : Nat) :
    edgeIndex n buckets k < n := by
  unfold edgeIndex
  omega

end Partition

section Validity

/-- What the decoder checks. -/
structure Valid (h : EquiDepthHistogram) : Prop where
  two_le : minBuckets ≤ h.counts.length
  length_eq : h.boundaries.length = h.counts.length + 1
  numbers : ∀ b ∈ h.boundaries, b.isNaN = false
  increasing : h.boundaries.IsChain (fun a b => b.lt a = false)
  total_eq :
    h.total.toNat = Nat.min (h.counts.map UInt64.toNat).sum u64Max

theorem firstDecrease_eq_none_iff
    (bs : List F64) :
    firstDecrease bs = none ↔
      bs.IsChain (fun a b => b.lt a = false) := by
  induction bs with
  | nil =>
      simp [firstDecrease]
  | cons a bs ih =>
      cases bs with
      | nil =>
          simp [firstDecrease]
      | cons b bs =>
          rw [firstDecrease, List.isChain_cons_cons]
          split_ifs with hlt
          · simp [hlt]
          · simpa [hlt] using ih

/-- Validation accepts exactly the valid histograms. -/
theorem validate_eq_ok_iff
    {display : F64 → String}
    {h : EquiDepthHistogram} :
    validate display h = .ok () ↔ h.Valid := by
  have hsum :
      h.counts.foldl saturatingAddU64 0 = h.total ↔
        h.total.toNat =
          Nat.min (h.counts.map UInt64.toNat).sum u64Max := by
    rw [← UInt64.toNat_inj, toNat_foldl_saturatingAddU64]
    simp [eq_comm]
  unfold validate
  constructor
  · intro hok
    split_ifs at hok with hfew hlength
    split at hok
    · cases hok
    · next hnan =>
        split at hok
        · cases hok
        · next hchain =>
            simp only at hok
            split_ifs at hok with htotal
            exact
              { two_le := not_lt.mp hfew
                length_eq := not_not.mp hlength
                numbers := List.findIdx?_eq_none_iff.mp hnan
                increasing :=
                  (firstDecrease_eq_none_iff _).mp hchain
                total_eq := hsum.mp (not_not.mp htotal) }
  · intro hvalid
    rw [if_neg (not_lt.mpr hvalid.two_le),
      if_neg (not_not.mpr hvalid.length_eq),
      List.findIdx?_eq_none_iff.mpr hvalid.numbers]
    simp only
    rw [(firstDecrease_eq_none_iff _).mpr hvalid.increasing]
    simp only
    rw [if_neg (not_not.mpr (hsum.mpr hvalid.total_eq))]

variable {sorted : List F64} {buckets : Nat}

/-- The counts add up to the length of the list. -/
theorem sum_counts_partition
    (hpos : 0 < buckets)
    (hlength : sorted.length ≤ u64Max) :
    ((partition sorted buckets).counts.map UInt64.toNat).sum =
      sorted.length := by
  have hcounts :
      (partition sorted buckets).counts.map UInt64.toNat =
        (List.range buckets).map
          (depth (sorted.length / buckets)
            (sorted.length % buckets)) := by
    rw [counts_partition, List.map_map]
    apply List.map_congr_left
    intro k hk
    apply toNat_ofNat_of_le
    have hk : k + 1 ≤ buckets := List.mem_range.mp hk
    calc
      depth (sorted.length / buckets) (sorted.length % buckets) k ≤
          cursorAfter (sorted.length / buckets)
            (sorted.length % buckets) (k + 1) := by
        rw [cursorAfter_succ]
        exact Nat.le_add_left _ _
      _ ≤ cursorAfter (sorted.length / buckets)
            (sorted.length % buckets) buckets :=
        cursorAfter_mono hk
      _ = sorted.length := cursorAfter_all hpos
      _ ≤ u64Max := hlength
  rw [hcounts, sum_depth, cursorAfter_all hpos]

/-- A partition is valid when the list is sorted and its edges are numbers. -/
theorem valid_partition
    (htwo : minBuckets ≤ buckets)
    (hle : buckets ≤ sorted.length)
    (hlength : sorted.length ≤ u64Max)
    (hsorted : sorted.Pairwise (fun a b => b.lt a = false))
    (hnumbers :
      ∀ k ≤ buckets,
        (sorted.getD (edgeIndex sorted.length buckets k)
          F64.zero).isNaN = false) :
    (partition sorted buckets).Valid := by
  have hpos : 0 < buckets := Nat.lt_of_lt_of_le (by decide) htwo
  have hn : 0 < sorted.length := hpos.trans_le hle
  constructor
  · rw [counts_partition, List.length_map, List.length_range]
    exact htwo
  · rw [counts_partition, boundaries_partition, List.length_map,
      List.length_map, List.length_range, List.length_range]
  · intro b hb
    rw [boundaries_partition] at hb
    obtain ⟨k, hk, rfl⟩ := List.mem_map.mp hb
    exact hnumbers k (Nat.le_of_lt_succ (List.mem_range.mp hk))
  · rw [boundaries_partition]
    apply List.Pairwise.isChain
    rw [List.pairwise_map]
    refine List.pairwise_lt_range.imp ?_
    intro i j hij
    have hi : edgeIndex sorted.length buckets i < sorted.length :=
      edgeIndex_lt hn i
    have hj : edgeIndex sorted.length buckets j < sorted.length :=
      edgeIndex_lt hn j
    have hmono :
        edgeIndex sorted.length buckets i ≤
          edgeIndex sorted.length buckets j :=
      edgeIndex_mono hij.le
    rw [List.getD_eq_getElem _ _ hi, List.getD_eq_getElem _ _ hj]
    rcases hmono.eq_or_lt with heq | hlt
    · simp only [heq]
      exact F64.lt_irrefl _
    · exact List.pairwise_iff_getElem.mp hsorted _ _ hi hj hlt
  · rw [sum_counts_partition hpos hlength]
    change (UInt64.ofNat sorted.length).toNat = _
    rw [toNat_ofNat_of_le hlength]
    exact (Nat.min_eq_left hlength).symm

/-- A valid partition has numbers as edges. -/
theorem Valid.numbers_partition
    (h : (partition sorted buckets).Valid)
    {k : Nat}
    (hk : k ≤ buckets) :
    (sorted.getD (edgeIndex sorted.length buckets k)
      F64.zero).isNaN = false := by
  apply h.numbers
  rw [boundaries_partition]
  exact
    List.mem_map.mpr
      ⟨k, List.mem_range.mpr (Nat.lt_succ_of_le hk), rfl⟩

end Validity

section Codec

/-- What the decoder accepts. -/
theorem fromBytes_eq_ok_iff
    {display : F64 → String}
    {bincode : Bincode EquiDepthHistogram}
    {bytes : Bytes}
    {h : EquiDepthHistogram} :
    fromBytes display bincode bytes = .ok h ↔
      bincode.deserialize bytes = .ok h ∧ h.Valid := by
  unfold fromBytes
  cases bincode.deserialize bytes with
  | error e =>
      constructor
      · intro hok
        cases hok
      · rintro ⟨hok, _⟩
        cases hok
  | ok fields =>
      change (validate display fields >>= fun _ => pure fields) = _ ↔ _
      rw [Except.ok.injEq, ← @validate_eq_ok_iff display h]
      cases hvalidate : validate display fields with
      | error e =>
          constructor
          · intro hok
            cases hok
          · rintro ⟨rfl, hok⟩
            rw [hvalidate] at hok
            cases hok
      | ok _ =>
          constructor
          · intro hok
            cases hok
            exact ⟨rfl, hvalidate⟩
          · rintro ⟨rfl, _⟩
            rfl

/-- A histogram is read back as it was written. -/
def Survives
    (display : F64 → String)
    (h : EquiDepthHistogram) : Prop :=
  (h.toBytes (.ofCodec codec) >>=
      fromBytes display (.ofCodec codec)) =
    .ok h

/-- It is when the decoder's checks pass. -/
theorem survives_iff
    {display : F64 → String}
    {h : EquiDepthHistogram}
    (hfits : codec.Fits h) :
    h.Survives display ↔ h.Valid := by
  have hhop :
      (h.toBytes (.ofCodec codec) >>=
          fromBytes display (.ofCodec codec)) =
        (validate display h >>= fun _ => pure h) :=
    Bincode.hop_eq hfits
      (fun h => validate display h >>= fun _ => pure h)
  rw [Survives, hhop, ← @validate_eq_ok_iff display h]
  cases validate display h with
  | error e =>
      constructor
      · intro hok
        cases hok
      · intro hok
        cases hok
  | ok _ =>
      exact iff_of_true rfl rfl

end Codec

section Comparator

variable {a b : F64} {values : List F64}

theorem isLE_comparator_iff :
    (comparator a b).isLE = true ↔ b.lt a = false := by
  unfold comparator F64.partialCmp F64.lt
  cases a.isNaN <;> cases b.isNaN <;> simp [Int.isLE_compare]

theorem comparator_swap
    (a b : F64) :
    comparator b a = (comparator a b).swap := by
  unfold comparator F64.partialCmp
  cases a.isNaN <;> cases b.isNaN <;> simp [Int.compare_swap]

/-- Numbers are ordered by their values. -/
theorem totalOn_of_numbers
    (h : ∀ v ∈ values, v.isNaN = false) :
    TotalOn comparator values where
  swap a _ b _ := comparator_swap a b
  trans a ha b hb c hc hab hbc := by
    rw [isLE_comparator_iff] at hab hbc ⊢
    have hle :=
      F64.le_trans (F64.le_of_not_lt (h b hb) (h a ha) hab)
        (F64.le_of_not_lt (h c hc) (h b hb) hbc)
    exact F64.not_lt_of_le hle

/-- So are values among which none is less than another. -/
theorem totalOn_of_same
    (h : ∀ a ∈ values, ∀ b ∈ values, a.lt b = false) :
    TotalOn comparator values where
  swap a _ b _ := comparator_swap a b
  trans a ha _ _ c hc _ _ := isLE_comparator_iff.mpr (h c hc a ha)

/-- A NaN besides two different numbers leaves no order. -/
theorem not_totalOn
    {nan : F64}
    (hmem : nan ∈ values)
    (hnan : nan.isNaN = true)
    (ha : a ∈ values)
    (hb : b ∈ values)
    (hlt : a.lt b = true) :
    ¬ TotalOn comparator values := by
  intro htotal
  have hbn : (comparator b nan).isLE = true := by
    rw [isLE_comparator_iff]
    simp [F64.lt, hnan]
  have hna : (comparator nan a).isLE = true := by
    rw [isLE_comparator_iff]
    simp [F64.lt, hnan]
  have hba := htotal.trans b hb nan hmem a ha hbn hna
  rw [isLE_comparator_iff, hlt] at hba
  cases hba

/-- An arrangement that an unordered sort may return. -/
def nanFirst (values : List F64) : List F64 :=
  values.filter F64.isNaN ++ values.filter (fun v => !v.isNaN)

theorem perm_nanFirst
    (values : List F64) :
    (nanFirst values).Perm values :=
  List.filter_append_perm _ values

theorem isNaN_nanFirst
    {nan : F64}
    (hmem : nan ∈ values)
    (hnan : nan.isNaN = true) :
    ((nanFirst values).getD 0 F64.zero).isNaN = true := by
  have hne : values.filter F64.isNaN ≠ [] :=
    List.ne_nil_of_mem (List.mem_filter.mpr ⟨hmem, hnan⟩)
  unfold nanFirst
  cases hfilter : values.filter F64.isNaN with
  | nil =>
      exact absurd hfilter hne
  | cons v vs =>
      have hv : v ∈ values.filter F64.isNaN := by
        rw [hfilter]
        exact List.mem_cons_self
      exact (List.mem_filter.mp hv).2

end Comparator

section FromValues

/--
The inputs of `from_values` that leave no NaN at an edge: it refuses them, or
there is no NaN, or all numbers are the same and stand where the edges are.
-/
def NumberEdges (values : F64Slice) (buckets : UInt64) : Prop :=
  buckets.toNat < minBuckets ∨
  values.values.length < minBuckets ∨
  (∀ v ∈ values.values, v.isNaN = false) ∨
  ((∀ a ∈ values.values, ∀ b ∈ values.values, a.lt b = false) ∧
    ∀ k ≤ Nat.min buckets.toNat values.values.length,
      (values.values.getD
        (edgeIndex values.values.length
          (Nat.min buckets.toNat values.values.length) k)
        F64.zero).isNaN = false)

variable
  {sort : SortBy comparator}
  {values : F64Slice}
  {buckets : UInt64}
  {display : F64 → String}

/-- What `from_values` returns when it returns. -/
theorem fromValues_eq_ok_iff
    {h : EquiDepthHistogram} :
    fromValues sort values buckets = some (.ok h) ↔
      minBuckets ≤ buckets.toNat ∧
      minBuckets ≤ values.values.length ∧
      ∃ sorted,
        sort.run values.values = some sorted ∧
        h = partition sorted (Nat.min buckets.toNat sorted.length) := by
  unfold fromValues
  split_ifs with hbuckets hvalues
  · simp [hbuckets]
  · simp [hvalues]
  · cases hrun : sort.run values.values with
    | none =>
        simp
    | some sorted =>
        simp only [Option.some.injEq, Except.ok.injEq]
        constructor
        · intro hpartition
          exact
            ⟨not_lt.mp hbuckets, not_lt.mp hvalues, sorted, rfl,
              hpartition.symm⟩
        · rintro ⟨_, _, _, rfl, rfl⟩
          rfl

theorem fits_partition
    {sorted : List F64}
    {buckets : Nat}
    (hle : buckets ≤ sorted.length)
    (hlength : sorted.length * 8 ≤ isizeMax) :
    codec.Fits (partition sorted buckets) := by
  have hmax : isizeMax < 256 ^ 8 := by
    decide
  refine ⟨⟨?_, fun _ _ => trivial⟩, ⟨?_, fun _ _ => trivial⟩, trivial⟩
  · change (partition sorted buckets).boundaries.length < _
    rw [boundaries_partition, List.length_map, List.length_range]
    omega
  · change (partition sorted buckets).counts.length < _
    rw [counts_partition, List.length_map, List.length_range]
    omega

/-- An empty shell survives. -/
theorem survives_of_tryNew
    {h : EquiDepthHistogram}
    (hnew : tryNew buckets = some (.ok h)) :
    h.Survives display := by
  unfold tryNew at hnew
  split_ifs at hnew with hfew hlarge
  · cases hnew
  rw [not_lt] at hfew hlarge
  obtain rfl := Except.ok.inj (Option.some.inj hnew)
  have hmax : isizeMax < 256 ^ 8 := by
    decide
  rw [survives_iff]
  · constructor
    · rw [List.length_replicate]
      exact hfew
    · simp
    · intro b hb
      rw [List.eq_of_mem_replicate hb]
      decide
    · apply List.Pairwise.isChain
      rw [List.pairwise_replicate]
      exact Or.inr (F64.lt_irrefl _)
    · simp
  · refine
      ⟨⟨?_, fun _ _ => trivial⟩, ⟨?_, fun _ _ => trivial⟩, trivial⟩
    · change (List.replicate (buckets.toNat + 1) _).length < _
      rw [List.length_replicate]
      omega
    · change (List.replicate buckets.toNat _).length < _
      rw [List.length_replicate]
      omega

/-- A sorted column whose edges are numbers survives. -/
theorem survives_partition
    {sorted : List F64}
    (htwo : minBuckets ≤ buckets.toNat)
    (hvalues : minBuckets ≤ sorted.length)
    (hlength : sorted.length * 8 ≤ isizeMax)
    (hsorted : sorted.Pairwise (fun a b => b.lt a = false))
    (hnumbers :
      ∀ k ≤ Nat.min buckets.toNat sorted.length,
        (sorted.getD
          (edgeIndex sorted.length
            (Nat.min buckets.toNat sorted.length) k)
          F64.zero).isNaN = false) :
    (partition sorted
      (Nat.min buckets.toNat sorted.length)).Survives display := by
  have hmax : isizeMax ≤ u64Max := by
    decide
  have hle := Nat.min_le_right buckets.toNat sorted.length
  rw [survives_iff (fits_partition hle hlength)]
  exact
    valid_partition (Nat.le_min.mpr ⟨htwo, hvalues⟩) hle (by omega)
      hsorted hnumbers

/-- A column of one number and NaNs counts as sorted. -/
theorem pairwise_of_same
    (hsame :
      ∀ a ∈ values.values, ∀ b ∈ values.values, a.lt b = false) :
    values.values.Pairwise
      (fun a b => (comparator a b).isLE = true) :=
  List.pairwise_of_forall_mem_list fun a ha b hb =>
    isLE_comparator_iff.mpr (hsame b hb a ha)

/-- So every sort leaves it as it is. -/
theorem run_of_same
    (sort : SortBy comparator)
    (hsame :
      ∀ a ∈ values.values, ∀ b ∈ values.values, a.lt b = false) :
    sort.run values.values = some values.values := by
  rw [sort.sorts _ (totalOn_of_same hsame),
    stableSort_of_pairwise (pairwise_of_same hsame)]

/-- A histogram that survives has numbers at its edges. -/
theorem valid_of_survives
    (hall :
      ∀ sort h, fromValues sort values buckets = some (.ok h) →
        h.Survives display)
    (htwo : minBuckets ≤ buckets.toNat)
    (hvalues : minBuckets ≤ values.values.length)
    (sort : SortBy comparator)
    {sorted : List F64}
    (hrun : sort.run values.values = some sorted) :
    (partition sorted (Nat.min buckets.toNat sorted.length)).Valid := by
  have hlength := sort.length_run hrun
  have hfits :
      codec.Fits
        (partition sorted (Nat.min buckets.toNat sorted.length)) :=
    fits_partition (Nat.min_le_right _ _)
      (by rw [hlength]; exact values.length_le)
  rw [← @survives_iff display _ hfits]
  exact
    hall sort _
      (fromValues_eq_ok_iff.mpr ⟨htwo, hvalues, sorted, hrun, rfl⟩)

/-- Some sort puts a NaN at an edge wherever one can get there. -/
theorem numberEdges_of_survives
    (hall :
      ∀ sort h, fromValues sort values buckets = some (.ok h) →
        h.Survives display) :
    NumberEdges values buckets := by
  by_contra hedges
  simp only [NumberEdges, not_or, not_lt] at hedges
  obtain ⟨htwo, hvalues, hnan, hedges⟩ := hedges
  by_cases hsame :
      ∀ a ∈ values.values, ∀ b ∈ values.values, a.lt b = false
  · -- the sort leaves the column as it is
    have hrun :=
      run_of_same
        (SortBy.rearranging comparator id List.Perm.refl) hsame
    exact
      hedges
        ⟨hsame, fun k hk =>
          (valid_of_survives hall htwo hvalues _ hrun).numbers_partition
            hk⟩
  · -- the sort may put a NaN first
    push Not at hnan hsame
    obtain ⟨nan, hmem, hnan⟩ := hnan
    obtain ⟨a, ha, b, hb, hlt⟩ := hsame
    rw [ne_eq, Bool.not_eq_false] at hnan hlt
    have hrun :
        (SortBy.rearranging comparator nanFirst
          perm_nanFirst).run values.values =
          some (nanFirst values.values) :=
      SortBy.run_rearranging (not_totalOn hmem hnan ha hb hlt)
    have hfirst :=
      (valid_of_survives hall htwo hvalues _ hrun).numbers_partition
        (Nat.zero_le _)
    have hzero :
        edgeIndex (nanFirst values.values).length
            (Nat.min buckets.toNat
              (nanFirst values.values).length) 0 =
          0 := by
      simp [edgeIndex, cursorAfter]
    rw [hzero, isNaN_nanFirst hmem hnan] at hfirst
    cases hfirst

/-- Numbers at the edges are enough, whatever the sort does. -/
theorem survives_of_numberEdges
    (hedges : NumberEdges values buckets)
    {h : EquiDepthHistogram}
    (hh : fromValues sort values buckets = some (.ok h)) :
    h.Survives display := by
  obtain ⟨htwo, hvalues, sorted, hrun, rfl⟩ :=
    fromValues_eq_ok_iff.mp hh
  have hperm := sort.perm _ _ hrun
  have hlength := sort.length_run hrun
  have hbytes := values.length_le
  rw [← hlength] at hbytes hvalues
  rcases hedges with hfew | hfew | hnumbers | ⟨hsame, hnumbers⟩
  · exact absurd hfew (not_lt.mpr htwo)
  · exact absurd hfew (not_lt.mpr (hlength ▸ hvalues))
  · have htotal := totalOn_of_numbers hnumbers
    have hsorted := htotal.pairwise
    rw [sort.sorts _ htotal] at hrun
    rw [Option.some.inj hrun] at hsorted
    refine
      survives_partition htwo hvalues hbytes
        (hsorted.imp isLE_comparator_iff.mp) ?_
    intro k hk
    have hlt :
        edgeIndex sorted.length
            (Nat.min buckets.toNat sorted.length) k <
          sorted.length :=
      edgeIndex_lt
        (Nat.lt_of_lt_of_le (by decide : 0 < minBuckets) hvalues) k
    rw [List.getD_eq_getElem _ _ hlt]
    exact hnumbers _ (hperm.mem_iff.mp (List.getElem_mem hlt))
  · rw [run_of_same sort hsame] at hrun
    obtain rfl := Option.some.inj hrun
    exact
      survives_partition htwo hvalues hbytes
        ((pairwise_of_same hsame).imp isLE_comparator_iff.mp) hnumbers

/--
**When `from_values` builds a histogram that can be read back**, whatever the
sort does with values that its comparator does not order.
-/
theorem survives_of_fromValues_iff :
    (∀ sort h, fromValues sort values buckets = some (.ok h) →
      h.Survives display) ↔
      NumberEdges values buckets :=
  ⟨numberEdges_of_survives, fun hedges _ _ =>
    survives_of_numberEdges hedges⟩

end FromValues

/-- Smallest value represented by the histogram. -/
def min (h : EquiDepthHistogram) : Option F64 :=
  h.boundaries.head?

/-- Largest value represented by the histogram. -/
def max (h : EquiDepthHistogram) : Option F64 :=
  h.boundaries.getLast?

end EquiDepthHistogram

end Samkhya
