import Mathlib
import Samkhya.Core.CountMin
import Samkhya.Core.Hll

/-!
# Degrees of ingested Arrow columns

`for_each_value` dispatches once on the array's data type and walks its
non-null values in their canonical byte form; a type it does not recognise is
skipped without an error.  The sketches of a skipped column are empty.  The
HyperLogLog floor then says nothing and the degree falls back to the row
count, while the largest counter of an empty Count-Min sketch is zero and is
taken for a bound: `ingest_sound_iff` says exactly when both degrees cover the
column.
-/

namespace Samkhya

open Saturating Multiplicity FieldCodec

/-- `arrow::datatypes::TimeUnit`. -/
inductive TimeUnit
  | second
  | millisecond
  | microsecond
  | nanosecond
deriving DecidableEq

/--
`arrow::datatypes::DataType`.  The types that the ingestion never looks into
(structs, lists, dictionaries, intervals and so on) are the parameter `ο`.
-/
inductive DataType (ο : Type)
  | int8
  | int16
  | int32
  | int64
  | uInt8
  | uInt16
  | uInt32
  | uInt64
  | float32
  | float64
  | utf8
  | largeUtf8
  | binary
  | largeBinary
  | date32
  | date64
  | timestamp (unit : TimeUnit) (timezone : Option String)
  | boolean
  | other (t : ο)

namespace DataType

variable {ο : Type} (ν : Type)

/-- Values of an array of the type; a float is its bit pattern. -/
def Native : DataType ο → Type
  | int8 => Int8
  | int16 => Int16
  | int32 => Int32
  | int64 => Int64
  | uInt8 => UInt8
  | uInt16 => UInt16
  | uInt32 => UInt32
  | uInt64 => UInt64
  | float32 => UInt32
  | float64 => UInt64
  | utf8 => String
  | largeUtf8 => String
  | binary => Bytes
  | largeBinary => Bytes
  | date32 => Int32
  | date64 => Int64
  | timestamp _ _ => Int64
  | boolean => Bool
  | other _ => ν

instance [DecidableEq ν] (t : DataType ο) : DecidableEq (t.Native ν) :=
  match t with
  | int8 => inferInstanceAs (DecidableEq Int8)
  | int16 => inferInstanceAs (DecidableEq Int16)
  | int32 => inferInstanceAs (DecidableEq Int32)
  | int64 => inferInstanceAs (DecidableEq Int64)
  | uInt8 => inferInstanceAs (DecidableEq UInt8)
  | uInt16 => inferInstanceAs (DecidableEq UInt16)
  | uInt32 => inferInstanceAs (DecidableEq UInt32)
  | uInt64 => inferInstanceAs (DecidableEq UInt64)
  | float32 => inferInstanceAs (DecidableEq UInt32)
  | float64 => inferInstanceAs (DecidableEq UInt64)
  | utf8 => inferInstanceAs (DecidableEq String)
  | largeUtf8 => inferInstanceAs (DecidableEq String)
  | binary => inferInstanceAs (DecidableEq Bytes)
  | largeBinary => inferInstanceAs (DecidableEq Bytes)
  | date32 => inferInstanceAs (DecidableEq Int32)
  | date64 => inferInstanceAs (DecidableEq Int64)
  | timestamp _ _ => inferInstanceAs (DecidableEq Int64)
  | boolean => inferInstanceAs (DecidableEq Bool)
  | other _ => inferInstanceAs (DecidableEq ν)

end DataType

/-- `dyn Array`: a data type and one optional value for every row. -/
structure ArrowArray (ο ν : Type) where
  dataType : DataType ο
  rows : List (Option (dataType.Native ν))
  length_lt : rows.length < 2 ^ 64

/-- `Array::len`. -/
def ArrowArray.len {ο ν : Type} (array : ArrowArray ο ν) : UInt64 :=
  UInt64.ofNat array.rows.length

/-- Little-endian bytes of a primitive value. -/
class ToLeBytes (α : Type) where
  toLeBytes : α → Bytes

instance : ToLeBytes UInt8 := ⟨fun v => encodeLE 1 v.toNat⟩
instance : ToLeBytes UInt16 := ⟨fun v => encodeLE 2 v.toNat⟩
instance : ToLeBytes UInt32 := ⟨fun v => encodeLE 4 v.toNat⟩
instance : ToLeBytes UInt64 := ⟨fun v => encodeLE 8 v.toNat⟩
instance : ToLeBytes Int8 := ⟨fun v => encodeLE 1 v.toUInt8.toNat⟩
instance : ToLeBytes Int16 := ⟨fun v => encodeLE 2 v.toUInt16.toNat⟩
instance : ToLeBytes Int32 := ⟨fun v => encodeLE 4 v.toUInt32.toNat⟩
instance : ToLeBytes Int64 := ⟨fun v => encodeLE 8 v.toUInt64.toNat⟩

section Walks

variable {σ α : Type}

/-- Apply `f` to the bytes of every non-null value, in row order. -/
def walk
    (bytes : α → Bytes)
    (rows : List (Option α))
    (f : σ → Bytes → σ)
    (s : σ) : σ :=
  rows.reduceOption.foldl (fun s v => f s (bytes v)) s

def leWalk
    [ToLeBytes α]
    (rows : List (Option α))
    (f : σ → Bytes → σ)
    (s : σ) : σ :=
  walk ToLeBytes.toLeBytes rows f s

def bytesWalk
    (rows : List (Option Bytes))
    (f : σ → Bytes → σ)
    (s : σ) : σ :=
  walk id rows f s

def strWalk
    (rows : List (Option String))
    (f : σ → Bytes → σ)
    (s : σ) : σ :=
  walk asBytes rows f s

end Walks

variable {ο ν : Type}

/--
Drive a callback over the values of every supported type.  The flag tells
whether the data type was recognised; the callback's state is passed along.
-/
def forEachValue
    {σ : Type}
    (array : ArrowArray ο ν)
    (f : σ → Bytes → σ)
    (s : σ) : σ × Bool :=
  match array with
  | ⟨.int8, rows, _⟩ => (leWalk (α := Int8) rows f s, true)
  | ⟨.int16, rows, _⟩ => (leWalk (α := Int16) rows f s, true)
  | ⟨.int32, rows, _⟩ => (leWalk (α := Int32) rows f s, true)
  | ⟨.int64, rows, _⟩ => (leWalk (α := Int64) rows f s, true)
  | ⟨.uInt8, rows, _⟩ => (leWalk (α := UInt8) rows f s, true)
  | ⟨.uInt16, rows, _⟩ => (leWalk (α := UInt16) rows f s, true)
  | ⟨.uInt32, rows, _⟩ => (leWalk (α := UInt32) rows f s, true)
  | ⟨.uInt64, rows, _⟩ => (leWalk (α := UInt64) rows f s, true)
  | ⟨.float32, rows, _⟩ => (leWalk (α := UInt32) rows f s, true)
  | ⟨.float64, rows, _⟩ => (leWalk (α := UInt64) rows f s, true)
  | ⟨.utf8, rows, _⟩ => (strWalk rows f s, true)
  | ⟨.largeUtf8, rows, _⟩ => (strWalk rows f s, true)
  | ⟨.binary, rows, _⟩ => (bytesWalk rows f s, true)
  | ⟨.largeBinary, rows, _⟩ => (bytesWalk rows f s, true)
  | ⟨.date32, rows, _⟩ => (leWalk (α := Int32) rows f s, true)
  | ⟨.date64, rows, _⟩ => (leWalk (α := Int64) rows f s, true)
  | ⟨.timestamp .nanosecond _, rows, _⟩ =>
      (leWalk (α := Int64) rows f s, true)
  | ⟨.boolean, rows, _⟩ =>
      (walk (fun v : Bool => [if v then 1 else 0]) rows f s, true)
  | _ => (s, false)

/-- Ingest every non-null value; an unsupported type contributes none. -/
def ingestArrayIntoHll
    (hash : ItemHash)
    (array : ArrowArray ο ν)
    (hll : HllSketch) : HllSketch :=
  (forEachValue array (fun s bytes => s.add hash bytes) hll).1

/-- Ingest every non-null value with a fixed count. -/
def ingestArrayIntoCms
    (hash : RowHash)
    (array : ArrowArray ο ν)
    (cms : CountMinSketch)
    (countPerValue : UInt32) : CountMinSketch :=
  (forEachValue array
    (fun s bytes => s.add hash bytes countPerValue) cms).1

namespace DataType

/-- The types `for_each_value` looks into. -/
def recognised : DataType ο → Bool
  | timestamp .nanosecond _ => true
  | timestamp _ _ => false
  | other _ => false
  | _ => true

/-- Canonical byte form of a value of a recognised type. -/
def keyBytes : (t : DataType ο) → t.Native ν → Bytes
  | int8 => ToLeBytes.toLeBytes (α := Int8)
  | int16 => ToLeBytes.toLeBytes (α := Int16)
  | int32 => ToLeBytes.toLeBytes (α := Int32)
  | int64 => ToLeBytes.toLeBytes (α := Int64)
  | uInt8 => ToLeBytes.toLeBytes (α := UInt8)
  | uInt16 => ToLeBytes.toLeBytes (α := UInt16)
  | uInt32 => ToLeBytes.toLeBytes (α := UInt32)
  | uInt64 => ToLeBytes.toLeBytes (α := UInt64)
  | float32 => ToLeBytes.toLeBytes (α := UInt32)
  | float64 => ToLeBytes.toLeBytes (α := UInt64)
  | utf8 => asBytes
  | largeUtf8 => asBytes
  | binary => id
  | largeBinary => id
  | date32 => ToLeBytes.toLeBytes (α := Int32)
  | date64 => ToLeBytes.toLeBytes (α := Int64)
  | timestamp _ _ => ToLeBytes.toLeBytes (α := Int64)
  | boolean => fun v : Bool => [if v then 1 else 0]
  | other _ => fun _ => []

end DataType

/-- The walk of a recognised type, and nothing for any other. -/
theorem forEachValue_eq
    {σ : Type}
    (array : ArrowArray ο ν)
    (f : σ → Bytes → σ)
    (s : σ) :
    forEachValue array f s =
      if array.dataType.recognised then
        (walk array.dataType.keyBytes array.rows f s, true)
      else
        (s, false) := by
  obtain ⟨dataType, rows, hlength⟩ := array
  cases dataType with
  | timestamp unit timezone =>
      cases unit <;> rfl
  | _ =>
      rfl

namespace ArrowArray

/-- The bytes of the non-null values that the ingestion adds. -/
def ingested (array : ArrowArray ο ν) : List Bytes :=
  if array.dataType.recognised then
    array.rows.reduceOption.map array.dataType.keyBytes
  else
    []

/-- A callback runs over exactly the ingested bytes. -/
theorem forEachValue_fst
    {σ : Type}
    (array : ArrowArray ο ν)
    (f : σ → Bytes → σ)
    (s : σ) :
    (forEachValue array f s).1 = array.ingested.foldl f s := by
  rw [forEachValue_eq, ingested]
  split_ifs
  · rw [List.foldl_map]
    rfl
  · rfl

theorem toNat_len
    (array : ArrowArray ο ν) :
    array.len.toNat = array.rows.length :=
  UInt64.toNat_ofNat_of_lt' array.length_lt

end ArrowArray

namespace ArrowArray

/-- Both degrees of the array are at least its largest value share. -/
structure DegreesCover
    [DecidableEq ν]
    (array : ArrowArray ο ν)
    (cms : CountMinSketch)
    (hll : HllSketch) : Prop where
  countMin :
    maxShare array.rows ≤
      (AttributeDegree.fromCountMin array.len cms).maxDegree.toNat
  hllFloor :
    maxShare array.rows ≤
      (AttributeDegree.fromHllFloor array.len hll).maxDegree.toNat

variable [DecidableEq ν] (array : ArrowArray ο ν)

/-- The HyperLogLog degree covers every column, recognised or not. -/
theorem maxShare_le_hllFloor
    (hash : ItemHash)
    {precision : UInt8}
    {hll : HllSketch}
    (hfresh : HllSketch.tryNew precision = .ok hll) :
    maxShare array.rows ≤
      (AttributeDegree.fromHllFloor array.len
        (ingestArrayIntoHll hash array hll)).maxDegree.toNat := by
  have hempty :=
    (HllSketch.tracks_invariant hash).fresh precision hll hfresh
  have htracks := hempty.foldl_add array.ingested
  rw [List.nil_append] at htracks
  have hitems :
      HllSketch.AddsOnly array.dataType.keyBytes array.rows
        array.ingested := by
    refine Or.inl ?_
    intro item hitem
    unfold ingested at hitem
    split_ifs at hitem
    · exact List.mem_map.mp hitem
    · exact absurd hitem List.not_mem_nil
  unfold ingestArrayIntoHll
  rw [array.forEachValue_fst]
  exact
    AttributeDegree.maxShare_le_fromHllFloor htracks
      array.toNat_len.ge hitems

/-- The Count-Min degree covers every recognised column. -/
theorem maxShare_le_countMin
    (hash : RowHash)
    {count : UInt32}
    (hcount : count ≠ 0)
    (cms : CountMinSketch)
    (hrecognised : array.dataType.recognised = true) :
    maxShare array.rows ≤
      (AttributeDegree.fromCountMin array.len
        (ingestArrayIntoCms hash array cms count)).maxDegree.toNat := by
  have hempty : cms.Covers hash [] := by
    intro item row _
    simp
  have hcovers := hempty.foldl_add count array.ingested
  rw [List.nil_append] at hcovers
  unfold ingestArrayIntoCms
  rw [array.forEachValue_fst]
  have hingested :
      nonNulls
          (array.rows.map (Option.map array.dataType.keyBytes)) =
        array.ingested := by
    rw [nonNulls, List.reduceOption_map, ingested,
      if_pos hrecognised]
  rw [← hingested] at hcovers ⊢
  have hkeys :=
    AttributeDegree.maxShare_le_fromCountMin hcovers
      (by rw [List.length_map, array.toNat_len])
      (CountMinSketch.share_le_trueCount hcount _)
  exact (maxShare_le_map array.dataType.keyBytes _).trans hkeys

omit [DecidableEq ν] in
/-- An unrecognised column leaves the sketch fresh and the degree at zero. -/
theorem countMin_of_not_recognised
    (hash : RowHash)
    (count : UInt32)
    {depth width : UInt32}
    {cms : CountMinSketch}
    (hfresh : CountMinSketch.tryNew depth width = .ok cms)
    (hrecognised : ¬ array.dataType.recognised = true) :
    (AttributeDegree.fromCountMin array.len
      (ingestArrayIntoCms hash array cms count)).maxDegree.toNat =
        0 := by
  have hskipped : ingestArrayIntoCms hash array cms count = cms := by
    unfold ingestArrayIntoCms
    rw [array.forEachValue_fst, ingested, if_neg hrecognised]
    rfl
  unfold AttributeDegree.fromCountMin
  rw [hskipped, CountMinSketch.maxFrequencyBound_tryNew hfresh]
  simp only
  rw [AttributeDegree.toNat_fromUpperBound]
  exact Nat.zero_min _

end ArrowArray

/--
**When ingested degrees are sound.**  The HyperLogLog degree always is.  The
Count-Min degree is exactly when the ingestion recognises the data type or the
column has no non-null row.
-/
theorem ingest_sound_iff
    [DecidableEq ν]
    (array : ArrowArray ο ν)
    (rowHash : RowHash)
    (itemHash : ItemHash)
    (count : UInt32)
    (hcount : count ≠ 0)
    (depth width : UInt32)
    (cms : CountMinSketch)
    (hcms : CountMinSketch.tryNew depth width = .ok cms)
    (precision : UInt8)
    (hll : HllSketch)
    (hhll : HllSketch.tryNew precision = .ok hll) :
    array.DegreesCover
        (ingestArrayIntoCms rowHash array cms count)
        (ingestArrayIntoHll itemHash array hll) ↔
      array.dataType.recognised = true ∨ nonNulls array.rows = [] := by
  have hfloor := array.maxShare_le_hllFloor itemHash hhll
  constructor
  · intro hcover
    by_cases hrecognised : array.dataType.recognised = true
    · exact Or.inl hrecognised
    · refine Or.inr ?_
      have hle := hcover.countMin
      rw [array.countMin_of_not_recognised rowHash count hcms
        hrecognised] at hle
      exact (maxShare_eq_zero_iff _).mp (Nat.le_zero.mp hle)
  · rintro (hrecognised | hnull)
    · exact
        ⟨array.maxShare_le_countMin rowHash hcount cms hrecognised,
          hfloor⟩
    · refine ⟨?_, hfloor⟩
      rw [(maxShare_eq_zero_iff _).mpr hnull]
      exact Nat.zero_le _

section SmallColumns

/-- A Count-Min sketch of a single counter. -/
def singleCounter : CountMinSketch where
  depth := 1
  width := 1
  counters := [0]
  total := 0
  wellFormed := ⟨by decide, by decide, rfl⟩

theorem singleCounter_fresh :
    CountMinSketch.tryNew 1 1 = .ok singleCounter := by
  decide +kernel

theorem emptyHll_fresh : HllSketch.tryNew 4 = .ok emptyHll := by
  decide +kernel

/-- Two equal integers and a NULL. -/
def int64Column : ArrowArray Empty Empty where
  dataType := .int64
  rows := [some (7 : Int64), none, some (7 : Int64)]
  length_lt := by decide

theorem ingest_sound_iff_int64Column :
    int64Column.DegreesCover
        (ingestArrayIntoCms (fun _ _ => 0) int64Column
          singleCounter 1)
        (ingestArrayIntoHll (fun _ => 0) int64Column emptyHll) ↔
      int64Column.dataType.recognised = true ∨
        nonNulls int64Column.rows = [] :=
  ingest_sound_iff int64Column (fun _ _ => 0) (fun _ => 0) 1
    (by decide) 1 1 singleCounter singleCounter_fresh 4 emptyHll
    emptyHll_fresh

/-- One timestamp in milliseconds, a type the ingestion skips. -/
def millisecondColumn : ArrowArray Empty Empty where
  dataType := .timestamp .millisecond none
  rows := [some (1700000000000 : Int64)]
  length_lt := by decide

/-- One row holds the value, and the Count-Min degree says none does. -/
theorem millisecondColumn_degree :
    maxShare millisecondColumn.rows = 1 ∧
      (AttributeDegree.fromCountMin millisecondColumn.len
        (ingestArrayIntoCms (fun _ _ => 0) millisecondColumn
          singleCounter 1)).maxDegree = 0 ∧
      ¬ millisecondColumn.DegreesCover
        (ingestArrayIntoCms (fun _ _ => 0) millisecondColumn
          singleCounter 1)
        (ingestArrayIntoHll (fun _ => 0) millisecondColumn
          emptyHll) := by
  have hshare : maxShare millisecondColumn.rows = 1 := by
    decide
  have hdegree :
      (AttributeDegree.fromCountMin millisecondColumn.len
        (ingestArrayIntoCms (fun _ _ => 0) millisecondColumn
          singleCounter 1)).maxDegree = 0 := by
    decide +kernel
  refine ⟨hshare, hdegree, ?_⟩
  intro hcover
  have hle := hcover.countMin
  rw [hshare, hdegree] at hle
  exact absurd hle (by decide)

end SmallColumns

end Samkhya
