import Mathlib
import Samkhya.Core.Degree
import Samkhya.Core.Sketch
import Samkhya.Foundations.CellArray
import Samkhya.Foundations.Multiplicity
import Samkhya.Foundations.SummaryHistory

/-!
# Count-Min sketches and the degree they justify

A sketch is a matrix of saturating `u32` counters; adding an item bumps one
counter in every row, the estimate is the smallest of them.  The hash is an
arbitrary function of item and row.

Every history of constructions, additions, merges and codec hops keeps
`Covers`: each counter an item reaches is at least its true total count, cut
off at `u32::MAX`.  A sketch without a counter at `u32::MAX` therefore bounds
every count, also when a counter saturated before a merge, and its largest
counter is a sound degree of the column it was built from.
-/

namespace Samkhya

open Saturating Multiplicity CellArray FieldCodec

/-- The fields of a sketch, as the serializer reads them. -/
structure CountMinFields where
  depth : UInt32
  width : UInt32
  counters : List UInt32
  total : UInt64
deriving DecidableEq

/-- The counters form a non-empty `depth` by `width` matrix. -/
structure CountMinFields.WellFormed (s : CountMinFields) : Prop where
  depth_ne : s.depth ≠ 0
  width_ne : s.width ≠ 0
  length_eq : s.counters.length = s.depth.toNat * s.width.toNat

/-- The fields in the order in which they are written. -/
def CountMinFields.codec : Codec CountMinFields :=
  (Codec.u32.pair (Codec.u32.pair (Codec.u32.vec.pair Codec.u64))).iso
    (fun s => (s.depth, s.width, s.counters, s.total))
    (fun p => ⟨p.1, p.2.1, p.2.2.1, p.2.2.2⟩)
    (fun _ => rfl)

/-- Count-Min sketch with its matrix shape. -/
structure CountMinSketch extends CountMinFields where
  wellFormed : toCountMinFields.WellFormed
deriving DecidableEq

/-- `XxHash64` of an item, seeded by the row. -/
abbrev RowHash := Bytes → UInt32 → UInt64

namespace CountMinSketch

/--
Fallible constructor; the shape is checked before allocating.  The allocation
itself panics from 2^61 counters on; such sketches are among those of the model.
-/
def tryNew (depth width : UInt32) : Except Error CountMinSketch :=
  if hzero : depth = 0 ∨ width = 0 then
    .error (.invalidSketch "CMS depth and width must be > 0")
  else
    match hsize : checkedMulUsize depth.toNat width.toNat with
    | none =>
        .error (.invalidSketch "CMS depth*width overflows usize")
    | some size =>
        .ok
          { depth := depth
            width := width
            counters := List.replicate size 0
            total := 0
            wellFormed :=
              { depth_ne := fun h => hzero (Or.inl h)
                width_ne := fun h => hzero (Or.inr h)
                length_eq := by
                  unfold checkedMulUsize at hsize
                  split_ifs at hsize
                  simpa using (Option.some.inj hsize).symm } }

/-- Structural validation of a deserialised payload. -/
def validate (s : CountMinFields) : Except Error CountMinSketch :=
  if hzero : s.depth = 0 ∨ s.width = 0 then
    .error
      (.invalidSketch "CMS decoded depth/width must both be > 0")
  else
    match hsize : checkedMulUsize s.depth.toNat s.width.toNat with
    | none =>
        .error
          (.invalidSketch "CMS decoded depth*width overflows")
    | some expected =>
        if hlength : s.counters.length ≠ expected then
          .error
            (.invalidSketch
              ("CMS counter length " ++ toString s.counters.length ++
                " != depth*width = " ++ toString expected))
        else
          .ok
            { s with
              wellFormed :=
                { depth_ne := fun h => hzero (Or.inl h)
                  width_ne := fun h => hzero (Or.inr h)
                  length_eq := by
                    unfold checkedMulUsize at hsize
                    split_ifs at hsize
                    rw [not_not.mp hlength]
                    exact (Option.some.inj hsize).symm } }

/-- Column of the counter an item reaches in a row. -/
def column
    (hash : RowHash)
    (s : CountMinSketch)
    (item : Bytes)
    (row : Nat) : Nat :=
  (hash item (UInt32.ofNat row) % s.width.toUInt64).toNat

/-- Position of that counter. -/
def position
    (hash : RowHash)
    (s : CountMinSketch)
    (item : Bytes)
    (row : Nat) : Nat :=
  rowMajor s.width.toNat row (s.column hash item row)

/-- The positions an item reaches, one for every row. -/
def positions
    (hash : RowHash)
    (s : CountMinSketch)
    (item : Bytes) : List Nat :=
  (List.range s.depth.toNat).map (s.position hash item)

/-- Add `count` occurrences; every counter saturates at `u32::MAX`. -/
def add
    (hash : RowHash)
    (s : CountMinSketch)
    (item : Bytes)
    (count : UInt32) : CountMinSketch :=
  { s with
    counters :=
      modifyAll (fun c => saturatingAddU32 c count)
        (s.positions hash item) s.counters
    total := saturatingAddU64 s.total count.toUInt64
    wellFormed :=
      { s.wellFormed with
        length_eq := by
          rw [length_modifyAll]
          exact s.wellFormed.length_eq } }

/-- Counter at a position; positions in use are always in range. -/
def counterAt (s : CountMinSketch) (position : Nat) : UInt32 :=
  s.counters.getD position 0

/-- Smallest counter the item reaches. -/
def estimate
    (hash : RowHash)
    (s : CountMinSketch)
    (item : Bytes) : UInt32 :=
  ((s.positions hash item).map s.counterAt).min?.getD 0

/-- Whether any counter has reached `u32::MAX`. -/
def isSaturated (s : CountMinSketch) : Bool :=
  s.counters.contains (UInt32.ofNat u32Max)

/-- The largest counter, unless one has saturated. -/
def maxFrequencyBound (s : CountMinSketch) : Option UInt32 :=
  if s.isSaturated then
    none
  else
    some (s.counters.max?.getD 0)

/-- Counter-wise saturating sum of two sketches of one shape. -/
def merge (s other : CountMinSketch) : Except Error CountMinSketch :=
  if s.depth ≠ other.depth ∨ s.width ≠ other.width then
    .error (.invalidSketch "CMS depth/width mismatch in merge")
  else
    .ok
      { s with
        counters := zipInto saturatingAddU32 s.counters other.counters
        total := saturatingAddU64 s.total other.total
        wellFormed :=
          { s.wellFormed with
            length_eq := by
              rw [length_zipInto]
              exact s.wellFormed.length_eq } }

def toBytes
    (bincode : Bincode CountMinFields)
    (s : CountMinSketch) : Except Error Bytes :=
  (bincode.serialize s.toCountMinFields).mapError Error.serde

def fromBytes
    (bincode : Bincode CountMinFields)
    (bytes : Bytes) : Except Error CountMinSketch := do
  let s ← (bincode.deserialize bytes).mapError Error.serde
  validate s

section Cells

variable (hash : RowHash) (s : CountMinSketch)

theorem depth_pos : 0 < s.depth.toNat :=
  toNat_pos_of_ne s.wellFormed.depth_ne

theorem width_pos : 0 < s.width.toNat :=
  toNat_pos_of_ne s.wellFormed.width_ne

/-- The hashed column lies in the matrix. -/
theorem column_lt
    (item : Bytes)
    (row : Nat) :
    s.column hash item row < s.width.toNat := by
  unfold column
  rw [UInt64.toNat_mod, UInt32.toNat_toUInt64]
  exact Nat.mod_lt _ s.width_pos

/-- Every position that `add` writes or `estimate` reads is in range. -/
theorem position_lt
    (item : Bytes)
    {row : Nat}
    (hrow : row < s.depth.toNat) :
    s.position hash item row < s.counters.length := by
  rw [s.wellFormed.length_eq]
  exact rowMajor_lt hrow (s.column_lt hash item row)

theorem positions_nodup
    (item : Bytes) :
    (s.positions hash item).Nodup := by
  unfold positions
  apply List.Nodup.map_on _ List.nodup_range
  intro row _ row' _ h
  exact
    ((rowMajor_inj (s.column_lt hash item row)
      (s.column_lt hash item row')).mp h).1

/-- A position of the matrix is reached in its own row only. -/
theorem mem_positions_iff
    (item : Bytes)
    {row column : Nat}
    (hrow : row < s.depth.toNat)
    (hcolumn : column < s.width.toNat) :
    rowMajor s.width.toNat row column ∈ s.positions hash item ↔
      s.column hash item row = column := by
  unfold positions
  simp only [List.mem_map, List.mem_range]
  constructor
  · rintro ⟨row', _, h⟩
    obtain ⟨rfl, hcol⟩ :=
      (rowMajor_inj (s.column_lt hash item row') hcolumn).mp h
    exact hcol
  · rintro rfl
    exact ⟨row, hrow, rfl⟩

/-- What an addition does to one counter of the matrix. -/
theorem counterAt_add
    (item : Bytes)
    (count : UInt32)
    {row column : Nat}
    (hrow : row < s.depth.toNat)
    (hcolumn : column < s.width.toNat) :
    (s.add hash item count).counterAt
        (rowMajor s.width.toNat row column) =
      if s.column hash item row = column then
        saturatingAddU32
          (s.counterAt (rowMajor s.width.toNat row column)) count
      else
        s.counterAt (rowMajor s.width.toNat row column) := by
  have hlt :
      rowMajor s.width.toNat row column < s.counters.length := by
    rw [s.wellFormed.length_eq]
    exact rowMajor_lt hrow hcolumn
  have hmem := s.mem_positions_iff hash item hrow hcolumn
  split_ifs with h
  · exact
      getD_modifyAll_of_mem _ (s.positions_nodup hash item)
        s.counters 0 hlt (hmem.mpr h)
  · exact
      getD_modifyAll_of_not_mem _ s.counters 0 hlt
        (fun hin => h (hmem.mp hin))

/-- What a successful merge does: one shape, and every counter summed. -/
theorem counterAt_merge
    {s other r : CountMinSketch}
    (h : s.merge other = .ok r) :
    s.depth = other.depth ∧ s.width = other.width ∧
      r.depth = s.depth ∧ r.width = s.width ∧
      ∀ position < s.counters.length,
        r.counterAt position =
          saturatingAddU32 (s.counterAt position)
            (other.counterAt position) := by
  unfold merge at h
  split_ifs at h with hshape
  obtain ⟨hdepth, hwidth⟩ :
      s.depth = other.depth ∧ s.width = other.width := by
    rw [not_or, not_not, not_not] at hshape
    exact hshape
  have hlength : s.counters.length = other.counters.length := by
    rw [s.wellFormed.length_eq, other.wellFormed.length_eq,
      hdepth, hwidth]
  cases h
  exact
    ⟨hdepth, hwidth, rfl, rfl,
      fun position hlt => getD_zipInto _ hlength 0 hlt⟩

end Cells

/-- Validation accepts exactly what it was given. -/
theorem toCountMinFields_of_validate
    {s : CountMinFields}
    {t : CountMinSketch}
    (h : validate s = .ok t) :
    t.toCountMinFields = s := by
  unfold validate at h
  split_ifs at h
  split at h
  · cases h
  · split_ifs at h
    cases h
    rfl

/-- A codec hop that succeeds returns the sketch that was written. -/
theorem eq_of_hop
    {bincode : Bincode CountMinFields}
    (hround : bincode.RoundTrips)
    {s t : CountMinSketch}
    (h : (s.toBytes bincode >>= fromBytes bincode) = .ok t) :
    t = s := by
  have hvalidate : validate s.toCountMinFields = .ok t :=
    Bincode.next_of_hop hround h
  have hfields := toCountMinFields_of_validate hvalidate
  cases s
  cases t
  cases hfields
  rfl

theorem validate_toCountMinFields
    (s : CountMinSketch) :
    validate s.toCountMinFields = .ok s := by
  have hshape : ¬ (s.depth = 0 ∨ s.width = 0) :=
    not_or.mpr ⟨s.wellFormed.depth_ne, s.wellFormed.width_ne⟩
  unfold validate
  rw [dif_neg hshape]
  split
  · next hsize =>
      rw [checkedMulUsize_toNat] at hsize
      cases hsize
  · next expected hsize =>
      rw [checkedMulUsize_toNat] at hsize
      have hlength := s.wellFormed.length_eq
      rw [Option.some.inj hsize] at hlength
      rw [dif_neg (not_not.mpr hlength)]

/-- Every sketch is read back as it was written. -/
theorem hop_self
    (s : CountMinSketch) :
    (s.toBytes (.ofCodec CountMinFields.codec) >>=
        fromBytes (.ofCodec CountMinFields.codec)) =
      .ok s := by
  have hlength : s.counters.length < 256 ^ 8 := by
    rw [s.wellFormed.length_eq]
    calc
      s.depth.toNat * s.width.toNat < 2 ^ 32 * 2 ^ 32 :=
        Nat.mul_lt_mul'' s.depth.toNat_lt s.width.toNat_lt
      _ = 256 ^ 8 := by decide
  have hfits : CountMinFields.codec.Fits s.toCountMinFields :=
    ⟨trivial, trivial, ⟨hlength, fun _ _ => trivial⟩, trivial⟩
  exact
    (Bincode.hop_eq hfits validate).trans (validate_toCountMinFields s)

section Histories

/-- One step of a sketch's life after its construction. -/
inductive Op
  | add (item : Bytes) (count : UInt32)
  | hop

/-- `try_new`, `add`, `merge` and the codec hop, as a summary. -/
def summary
    (hash : RowHash)
    (bincode : Bincode CountMinFields) :
    Summary (UInt32 × UInt32) Op CountMinSketch Error where
  fresh p := tryNew p.1 p.2
  step s op :=
    match op with
    | .add item count => .ok (s.add hash item count)
    | .hop => s.toBytes bincode >>= fromBytes bincode
  merge := merge

/-- Occurrences of an item that one operation records. -/
def Op.countOf (item : Bytes) : Op → Nat
  | .add i count => if i = item then count.toNat else 0
  | .hop => 0

/-- True total count of an item. -/
def trueCount
    (ops : List Op)
    (item : Bytes) : Nat :=
  (ops.map (Op.countOf item)).sum

/-- The operation adds the item with a count of at least one. -/
def Op.records (item : Bytes) : Op → Bool
  | .add i count => decide (i = item ∧ count ≠ 0)
  | .hop => false

@[simp] theorem trueCount_nil
    (item : Bytes) :
    trueCount [] item = 0 :=
  rfl

@[simp] theorem trueCount_append
    (os os' : List Op)
    (item : Bytes) :
    trueCount (os ++ os') item =
      trueCount os item + trueCount os' item := by
  simp [trueCount]

@[simp] theorem trueCount_singleton
    (op : Op)
    (item : Bytes) :
    trueCount [op] item = op.countOf item := by
  simp [trueCount]

/-- Every recording addition counts at least once. -/
theorem countP_records_le_trueCount
    (ops : List Op)
    (item : Bytes) :
    ops.countP (Op.records item) ≤ trueCount ops item := by
  unfold trueCount
  induction ops with
  | nil =>
      rfl
  | cons op ops ih =>
      have hop :
          (if op.records item then 1 else 0) ≤ op.countOf item := by
        cases op with
        | hop =>
            exact Nat.le_refl 0
        | add i count =>
            by_cases hi : i = item
            · by_cases hc : count = 0
              · simp [Op.records, hc]
              · have hpos : 0 < count.toNat :=
                  UInt32.lt_iff_toNat_lt.mp
                    (UInt32.pos_iff_ne_zero.mpr hc)
                simp [Op.records, Op.countOf, hi, hc]
                omega
            · simp [Op.records, hi]
      rw [List.countP_cons, List.map_cons, List.sum_cons]
      omega

/-- Adding every non-null key with one positive count covers their shares. -/
theorem share_le_trueCount
    {count : UInt32}
    (hcount : count ≠ 0)
    (keys : List (Option Bytes))
    (k : Bytes) :
    share keys k ≤
      trueCount
        ((nonNulls keys).map (fun item => Op.add item count)) k := by
  calc
    share keys k
        = ((nonNulls keys).map
            (fun item => Op.add item count)).countP
              (Op.records k) := by
      rw [share_eq_count_nonNulls, List.countP_map]
      unfold List.count
      apply List.countP_congr
      intro item _
      simp [Op.records, hcount]
    _ ≤ _ := countP_records_le_trueCount _ k

/--
Every counter an item reaches holds at least its true count, cut off at
`u32::MAX`.
-/
def Covers
    (hash : RowHash)
    (ops : List Op)
    (s : CountMinSketch) : Prop :=
  ∀ item, ∀ row < s.depth.toNat,
    min (trueCount ops item) u32Max ≤
      (s.counterAt (s.position hash item row)).toNat

/-- An addition keeps the invariant. -/
theorem Covers.add
    {hash : RowHash}
    {ops : List Op}
    {s : CountMinSketch}
    (hs : s.Covers hash ops)
    (item : Bytes)
    (count : UInt32) :
    (s.add hash item count).Covers hash
      (ops ++ [Op.add item count]) := by
  intro k row hrow
  have hold := hs k row hrow
  have hcell :=
    s.counterAt_add hash item count hrow (s.column_lt hash k row)
  change
    _ ≤ ((s.add hash item count).counterAt
      (rowMajor s.width.toNat row (s.column hash k row))).toNat
  change
    _ ≤ (s.counterAt
      (rowMajor s.width.toNat row (s.column hash k row))).toNat
    at hold
  rw [hcell, trueCount_append, trueCount_singleton, Op.countOf]
  by_cases hk : item = k
  · subst hk
    rw [if_pos rfl, if_pos rfl, toNat_saturatingAddU32]
    unfold satAdd
    omega
  · rw [if_neg hk, Nat.add_zero]
    -- another item may reach the same counter, which then only grows
    split_ifs
    · rw [toNat_saturatingAddU32]
      unfold satAdd
      omega
    · exact hold

/-- Adding a list of items to a covering sketch. -/
theorem Covers.foldl_add
    {hash : RowHash}
    {ops : List Op}
    {s : CountMinSketch}
    (hs : s.Covers hash ops)
    (count : UInt32)
    (added : List Bytes) :
    (added.foldl (fun s item => s.add hash item count) s).Covers hash
      (ops ++ added.map (fun item => .add item count)) := by
  induction added generalizing ops s with
  | nil =>
      simpa using hs
  | cons item added ih =>
      have hrest := ih (hs.add item count)
      simpa using hrest

/-- A merge keeps the invariant. -/
theorem Covers.merge
    {hash : RowHash}
    {ops ops' : List Op}
    {s other r : CountMinSketch}
    (hs : s.Covers hash ops)
    (hother : other.Covers hash ops')
    (h : s.merge other = .ok r) :
    r.Covers hash (ops ++ ops') := by
  obtain ⟨hdepth, hwidth, hrdepth, hrwidth, hcell⟩ :=
    counterAt_merge h
  intro k row hrow
  rw [hrdepth] at hrow
  have hleft := hs k row hrow
  have hright := hother k row (hdepth ▸ hrow)
  have hposition :
      r.position hash k row = s.position hash k row := by
    unfold position column
    rw [hrwidth]
  have hposition' :
      other.position hash k row = s.position hash k row := by
    unfold position column
    rw [hwidth]
  rw [hposition'] at hright
  rw [hposition, hcell _ (s.position_lt hash k hrow),
    trueCount_append, toNat_saturatingAddU32]
  unfold satAdd
  omega

/-- Construction, addition, merge and hop keep the invariant. -/
theorem covers_invariant
    (hash : RowHash)
    {bincode : Bincode CountMinFields}
    (hround : bincode.RoundTrips) :
    (summary hash bincode).Invariant
      (fun ops s => s.Covers hash ops) where
  fresh := by
    intro p s _ item row _
    simp
  step := by
    intro ops s op t hs h
    cases op with
    | add item count =>
        cases h
        exact hs.add item count
    | hop =>
        rw [eq_of_hop hround h]
        intro item row hrow
        rw [trueCount_append, trueCount_singleton, Op.countOf,
          Nat.add_zero]
        exact hs item row hrow
  merge := by
    intro ops s ops' t r hs ht h
    exact hs.merge ht h

end Histories

section Bounds

variable {hash : RowHash} {ops : List Op} {s : CountMinSketch}

/-- The estimate is one of the counters that the item reaches. -/
theorem exists_estimate_eq
    (hash : RowHash)
    (s : CountMinSketch)
    (item : Bytes) :
    ∃ row < s.depth.toNat,
      s.estimate hash item =
        s.counterAt (s.position hash item row) := by
  have hne :
      (s.positions hash item).map s.counterAt ≠ [] := by
    have hpos := s.depth_pos
    simp only [positions, ne_eq, List.map_eq_nil_iff,
      List.range_eq_nil]
    omega
  obtain ⟨m, hm⟩ :=
    Option.isSome_iff_exists.mp (List.isSome_min?_of_ne_nil hne)
  have hmem := List.min?_mem hm
  simp only [positions, List.map_map, List.mem_map, List.mem_range,
    Function.comp_apply] at hmem
  obtain ⟨row, hrow, hvalue⟩ := hmem
  refine ⟨row, hrow, ?_⟩
  rw [estimate, hm, Option.getD_some, hvalue]

/-- A counter in range is one of the counters. -/
theorem counterAt_mem
    {position : Nat}
    (h : position < s.counters.length) :
    s.counterAt position ∈ s.counters := by
  unfold counterAt
  rw [List.getD_eq_getElem _ _ h]
  exact List.getElem_mem h

/-- What `max_frequency_bound` answers: a bound below `u32::MAX` on all counters. -/
theorem counter_le_of_maxFrequencyBound
    {b : UInt32}
    (h : s.maxFrequencyBound = some b)
    {c : UInt32}
    (hc : c ∈ s.counters) :
    c ≤ b ∧ c.toNat < u32Max := by
  unfold maxFrequencyBound at h
  split_ifs at h with hsat
  obtain ⟨m, hm⟩ :=
    Option.isSome_iff_exists.mp (List.isSome_max?_of_mem hc)
  rw [hm, Option.getD_some] at h
  refine ⟨?_, ?_⟩
  · rw [← Option.some.inj h]
    exact (List.max?_le_iff hm).mp (UInt32.le_refl m) c hc
  · have hle := toNat_le_u32Max c
    have hne : c.toNat ≠ u32Max := by
      intro heq
      apply hsat
      unfold isSaturated
      rw [List.contains_iff_mem, ← heq, UInt32.ofNat_toNat]
      exact hc
    omega

/-- A fresh sketch bounds every frequency by zero. -/
theorem maxFrequencyBound_tryNew
    {depth width : UInt32}
    {s : CountMinSketch}
    (h : tryNew depth width = .ok s) :
    s.maxFrequencyBound = some 0 := by
  have hzero : ∀ c ∈ s.counters, c = 0 := by
    unfold tryNew at h
    split_ifs at h
    split at h
    · cases h
    · cases h
      intro c hc
      exact List.eq_of_mem_replicate hc
  have hsat : ¬ s.isSaturated = true := by
    unfold isSaturated
    rw [List.contains_iff_mem]
    intro hmem
    exact absurd (hzero _ hmem) (by decide)
  unfold maxFrequencyBound
  rw [if_neg hsat]
  cases hmax : s.counters.max? with
  | none =>
      rfl
  | some m =>
      rw [Option.getD_some, hzero m (List.max?_mem hmax)]

/-- The estimate never undercounts, up to the counter width. -/
theorem Covers.le_estimate
    (hs : s.Covers hash ops)
    (item : Bytes) :
    min (trueCount ops item) u32Max ≤
      (s.estimate hash item).toNat := by
  obtain ⟨row, hrow, hestimate⟩ := exists_estimate_eq hash s item
  rw [hestimate]
  exact hs item row hrow

/-- An unsaturated sketch bounds every count by its largest counter. -/
theorem Covers.le_maxFrequencyBound
    (hs : s.Covers hash ops)
    {b : UInt32}
    (hb : s.maxFrequencyBound = some b)
    (item : Bytes) :
    trueCount ops item ≤ (s.estimate hash item).toNat ∧
      s.estimate hash item ≤ b := by
  obtain ⟨row, hrow, hestimate⟩ := exists_estimate_eq hash s item
  have hmem := s.counterAt_mem (s.position_lt hash item hrow)
  obtain ⟨hle, hlt⟩ := counter_le_of_maxFrequencyBound hb hmem
  have hcover := hs item row hrow
  rw [hestimate]
  exact ⟨by omega, hle⟩

end Bounds

end CountMinSketch

/-- Degree of the column behind a Count-Min sketch. -/
def AttributeDegree.fromCountMin
    (rows : UInt64)
    (sketch : CountMinSketch) : AttributeDegree :=
  match sketch.maxFrequencyBound with
  | some bound => fromUpperBound rows bound.toUInt64
  | none => unknown rows

open CountMinSketch in
/--
A sketch that covers the key counts of a column of at most `rows` rows gives a
sound degree.
-/
theorem AttributeDegree.maxShare_le_fromCountMin
    {hash : RowHash}
    {ops : List Op}
    {s : CountMinSketch}
    (hs : s.Covers hash ops)
    {rows : UInt64}
    {keys : List (Option Bytes)}
    (hrows : keys.length ≤ rows.toNat)
    (hkeys : ∀ k, share keys k ≤ trueCount ops k) :
    maxShare keys ≤ (fromCountMin rows s).maxDegree.toNat := by
  have hlength := maxShare_le_length keys
  unfold fromCountMin
  cases hb : s.maxFrequencyBound with
  | none =>
      exact hlength.trans hrows
  | some b =>
      simp only
      rw [toNat_fromUpperBound, UInt32.toNat_toUInt64, le_min_iff]
      refine ⟨?_, hlength.trans hrows⟩
      apply (maxShare_le_iff keys _).mpr
      intro k
      obtain ⟨hcount, hle⟩ := hs.le_maxFrequencyBound hb k
      have hle := UInt32.le_iff_toNat_le.mp hle
      exact (hkeys k).trans (hcount.trans hle)

open CountMinSketch in
/--
**A Count-Min sketch never undercounts, and its degree is sound.**  For every
history of constructions, additions, merges and codec hops that runs to a
sketch.
-/
theorem countMin_sound
    (hash : RowHash)
    (bincode : Bincode CountMinFields)
    (hround : bincode.RoundTrips)
    (h : History (UInt32 × UInt32) Op)
    (s : CountMinSketch)
    (hrun : h.run (summary hash bincode) = .ok s) :
    (∀ k,
      min (trueCount h.ops k) u32Max ≤ (s.estimate hash k).toNat) ∧
    (∀ b, s.maxFrequencyBound = some b →
      ∀ k,
        trueCount h.ops k ≤ (s.estimate hash k).toNat ∧
          s.estimate hash k ≤ b) ∧
    (∀ (rows : UInt64) (keys : List (Option Bytes)),
      keys.length ≤ rows.toNat →
      (∀ k, share keys k ≤ h.ops.countP (Op.records k)) →
      maxShare keys ≤
        (AttributeDegree.fromCountMin rows s).maxDegree.toNat) := by
  have hs := (covers_invariant hash hround).of_run hrun
  refine ⟨hs.le_estimate, fun b hb k => ?_, ?_⟩
  · exact hs.le_maxFrequencyBound hb k
  · intro rows keys hrows hkeys
    apply AttributeDegree.maxShare_le_fromCountMin hs hrows
    intro k
    exact (hkeys k).trans (countP_records_le_trueCount h.ops k)

section MergedPair

open CountMinSketch

/-- Rows hash the length of the item, shifted by the row. -/
def lengthHash : RowHash :=
  fun item row => UInt64.ofNat item.length + row.toUInt64

/-- Two sketches of one item, the first written and read back, merged. -/
def mergedPair : History (UInt32 × UInt32) Op :=
  .merge
    (.step (.step (.fresh (2, 3)) (.add [7] 1)) .hop)
    (.step (.fresh (2, 3)) (.add [7] 2))

def mergedPairSketch : CountMinSketch where
  depth := 2
  width := 3
  counters := [0, 3, 0, 0, 0, 3]
  total := 3
  wellFormed := ⟨by decide, by decide, rfl⟩

theorem mergedPair_run :
    mergedPair.run
        (summary lengthHash (Bincode.ofCodec CountMinFields.codec)) =
      .ok mergedPairSketch := by
  decide +kernel

theorem countMin_sound_mergedPair :
    trueCount mergedPair.ops [7] = 3 ∧
      3 ≤ (mergedPairSketch.estimate lengthHash [7]).toNat ∧
      maxShare ([some [7], none, some [7]] : List (Option Bytes)) ≤
        (AttributeDegree.fromCountMin 3
          mergedPairSketch).maxDegree.toNat := by
  have h :=
    countMin_sound lengthHash (Bincode.ofCodec CountMinFields.codec)
      (Bincode.ofCodec_roundTrips CountMinFields.codec) mergedPair
      mergedPairSketch mergedPair_run
  have hcount : trueCount mergedPair.ops [7] = 3 := by
    decide
  refine ⟨hcount, ?_, ?_⟩
  · have hestimate := h.1 [7]
    rw [hcount] at hestimate
    exact hestimate
  · refine h.2.2 3 [some [7], none, some [7]] (by decide) ?_
    intro k
    by_cases hk : [7] = k
    · subst hk
      decide
    · have hshare : share [some [7], none, some [7]] k = 0 := by
        simp [share, hk]
      rw [hshare]
      exact Nat.zero_le _

end MergedPair

end Samkhya
