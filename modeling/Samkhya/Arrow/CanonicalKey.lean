import Mathlib
import Samkhya.Arrow.Ingest
import Samkhya.Core.BloomRuns
import Samkhya.Foundations.FloatFormat

/-!
# The byte form of a join key

The ingestion hashes a value by its bytes.  Different values of one type have
different bytes, so keys that differ are told apart.  Keys that are equal have
the same bytes, but for one pair: a float compares equal to the float of its
value, and the two zeros have one value and two bit patterns.
-/

namespace Samkhya

open FieldCodec Binary64

/-- `f32`. -/
def binary32 : FloatFormat where
  fractionBits := 23
  exponentBits := 8

/-- `f64`. -/
def binary64 : FloatFormat where
  fractionBits := 52
  exponentBits := 11

variable {ο ν : Type}

/-- Ingest every non-null value of the array into a filter. -/
def ingestArrayIntoBloom
    (hash : DoubleHash)
    (array : ArrowArray ο ν)
    (bloom : BloomFilter) : BloomFilter :=
  (forEachValue array (fun s bytes => s.insert hash bytes) bloom).1

namespace DataType

/-- Equality of join keys: by value, and numerically for floats. -/
def KeyEq : (t : DataType ο) → t.Native ν → t.Native ν → Prop
  | float32 => fun x y : UInt32 =>
      binary32.partialEq x.toNat y.toNat = true
  | float64 => fun x y : UInt64 => (F64.mk x).partialEq ⟨y⟩ = true
  | _ => fun x y => x = y

/-- Two zeros of different sign. -/
def OppositeZeros : (t : DataType ο) → t.Native ν → t.Native ν → Prop
  | float32 => fun x y : UInt32 =>
      (x = 0 ∧ y = 0x80000000) ∨ (x = 0x80000000 ∧ y = 0)
  | float64 => fun x y : UInt64 =>
      (x = 0 ∧ y = 0x8000000000000000) ∨
        (x = 0x8000000000000000 ∧ y = 0)
  | _ => fun _ _ => False

/-- A value that is equal to itself: a NaN is no key. -/
def IsKey (t : DataType ο) (x : t.Native ν) : Prop :=
  t.KeyEq x x

/-- Equal keys that are not zeros of different sign. -/
def SameKey (t : DataType ο) (x y : t.Native ν) : Prop :=
  t.KeyEq x y ∧ ¬ t.OppositeZeros x y

end DataType

section Bytes

/-- The little-endian bytes of a primitive value determine it. -/
class InjectiveLeBytes (α : Type) [ToLeBytes α] : Prop where
  injective : Function.Injective (ToLeBytes.toLeBytes (α := α))

/-- Values that spell distinct numbers below `256 ^ w` differ in the bytes. -/
theorem encodeLE_injective
    {α : Type}
    {w : Nat}
    {toNat : α → Nat}
    (hlt : ∀ x, toNat x < 256 ^ w)
    (hinj : Function.Injective toNat) :
    Function.Injective (fun x => encodeLE w (toNat x)) := by
  intro x y h
  have hbytes : encodeLE w (toNat x) = encodeLE w (toNat y) := h
  apply hinj
  rw [← leNat_encodeLE w (hlt x), hbytes, leNat_encodeLE w (hlt y)]

instance : InjectiveLeBytes UInt8 where
  injective :=
    encodeLE_injective UInt8.toNat_lt
      (fun _ _ h => UInt8.toNat_inj.mp h)

instance : InjectiveLeBytes UInt16 where
  injective :=
    encodeLE_injective UInt16.toNat_lt
      (fun _ _ h => UInt16.toNat_inj.mp h)

instance : InjectiveLeBytes UInt32 where
  injective :=
    encodeLE_injective UInt32.toNat_lt
      (fun _ _ h => UInt32.toNat_inj.mp h)

instance : InjectiveLeBytes UInt64 where
  injective :=
    encodeLE_injective UInt64.toNat_lt
      (fun _ _ h => UInt64.toNat_inj.mp h)

-- A signed integer is written as the unsigned one of its bits.
instance : InjectiveLeBytes Int8 where
  injective := by
    rintro ⟨x⟩ ⟨y⟩ h
    exact congrArg Int8.ofUInt8 (InjectiveLeBytes.injective h)

instance : InjectiveLeBytes Int16 where
  injective := by
    rintro ⟨x⟩ ⟨y⟩ h
    exact congrArg Int16.ofUInt16 (InjectiveLeBytes.injective h)

instance : InjectiveLeBytes Int32 where
  injective := by
    rintro ⟨x⟩ ⟨y⟩ h
    exact congrArg Int32.ofUInt32 (InjectiveLeBytes.injective h)

instance : InjectiveLeBytes Int64 where
  injective := by
    rintro ⟨x⟩ ⟨y⟩ h
    exact congrArg Int64.ofUInt64 (InjectiveLeBytes.injective h)

/-- The loop of `ByteArray.toList` appends the bytes it has yet to visit. -/
theorem toList_loop
    (bytes : ByteArray)
    (i : Nat)
    (visited : List UInt8) :
    ByteArray.toList.loop bytes i visited =
      visited.reverse ++ bytes.data.toList.drop i := by
  fun_induction ByteArray.toList.loop bytes i visited with
  | case1 i visited hlt ih =>
      have hget : bytes.get! i = bytes.data.toList[i] :=
        getElem!_pos bytes.data i hlt
      rw [ih, List.drop_eq_getElem_cons hlt, hget, List.reverse_cons,
        List.append_assoc, List.singleton_append]
  | case2 i visited hge =>
      rw [List.drop_of_length_le (Nat.le_of_not_lt hge),
        List.append_nil]

theorem asBytes_eq
    (s : String) :
    asBytes s = s.toUTF8.data.toList := by
  simp [asBytes, ByteArray.toList, toList_loop]

theorem asBytes_injective : Function.Injective asBytes := by
  intro s t h
  rw [asBytes_eq, asBytes_eq, Array.toList_inj] at h
  exact String.toByteArray_inj.mp (ByteArray.ext h)

/-- Different values of a recognised type have different bytes. -/
theorem DataType.keyBytes_injective
    {t : DataType ο}
    (hrecognised : t.recognised = true) :
    Function.Injective (t.keyBytes (ν := ν)) := by
  cases t with
  | utf8 | largeUtf8 =>
      exact asBytes_injective
  | binary | largeBinary =>
      exact Function.injective_id
  | boolean =>
      intro x y h
      cases x <;> cases y <;> first | rfl | cases h
  | other =>
      cases hrecognised
  | int8 =>
      exact InjectiveLeBytes.injective (α := Int8)
  | int16 =>
      exact InjectiveLeBytes.injective (α := Int16)
  | int32 | date32 =>
      exact InjectiveLeBytes.injective (α := Int32)
  | int64 | date64 | timestamp =>
      exact InjectiveLeBytes.injective (α := Int64)
  | uInt8 =>
      exact InjectiveLeBytes.injective (α := UInt8)
  | uInt16 =>
      exact InjectiveLeBytes.injective (α := UInt16)
  | uInt32 | float32 =>
      exact InjectiveLeBytes.injective (α := UInt32)
  | uInt64 | float64 =>
      exact InjectiveLeBytes.injective (α := UInt64)

end Bytes

namespace DataType

variable {t : DataType ο} {x y : t.Native ν}

theorem float32_keyEq_iff
    {x y : UInt32} :
    binary32.partialEq x.toNat y.toNat = true ↔
      binary32.partialEq x.toNat x.toNat = true ∧
        (x = y ∨
          (x = 0 ∧ y = 0x80000000) ∨ (x = 0x80000000 ∧ y = 0)) := by
  simp only [← UInt32.toNat_inj]
  exact FloatFormat.partialEq_iff x.toNat_lt y.toNat_lt

theorem float64_keyEq_iff
    {x y : UInt64} :
    (F64.mk x).partialEq ⟨y⟩ = true ↔
      (F64.mk x).partialEq ⟨x⟩ = true ∧
        (x = y ∨
          (x = 0 ∧ y = 0x8000000000000000) ∨
          (x = 0x8000000000000000 ∧ y = 0)) := by
  simp only [← UInt64.toNat_inj]
  exact
    @FloatFormat.partialEq_iff binary64 x.toNat y.toNat x.toNat_lt
      y.toNat_lt

/-- Keys are equal when they are one value, or are the two zeros. -/
theorem keyEq_iff :
    t.KeyEq x y ↔ t.IsKey x ∧ (x = y ∨ t.OppositeZeros x y) := by
  cases t with
  | float32 =>
      exact @float32_keyEq_iff x y
  | float64 =>
      exact @float64_keyEq_iff x y
  | _ =>
      exact
        ⟨fun h => ⟨rfl, Or.inl h⟩, fun h => h.2.resolve_right id⟩

/-- Two different zeros. -/
theorem OppositeZeros.ne
    (h : t.OppositeZeros x y) :
    x ≠ y := by
  rintro rfl
  cases t with
  | float32 =>
      rcases h with ⟨hzero, hsign⟩ | ⟨hsign, hzero⟩
      · exact absurd (hzero.symm.trans hsign) (by decide)
      · exact absurd (hzero.symm.trans hsign) (by decide)
  | float64 =>
      rcases h with ⟨hzero, hsign⟩ | ⟨hsign, hzero⟩
      · exact absurd (hzero.symm.trans hsign) (by decide)
      · exact absurd (hzero.symm.trans hsign) (by decide)
  | _ =>
      exact h

/-- For keys, one key is one value. -/
theorem sameKey_iff
    (hx : t.IsKey x) :
    t.SameKey x y ↔ x = y := by
  rw [SameKey, keyEq_iff]
  constructor
  · rintro ⟨⟨_, heq | hzeros⟩, hne⟩
    · exact heq
    · exact absurd hzeros hne
  · intro heq
    exact ⟨⟨hx, Or.inl heq⟩, fun hzeros => hzeros.ne heq⟩

theorem SameKey.eq
    (h : t.SameKey x y) :
    x = y :=
  (sameKey_iff (keyEq_iff.mp h.1).1).mp h

end DataType

/-- Columns of pairwise equal values are one column to the ingestion. -/
theorem ArrowArray.ingested_congr
    {t : DataType ο}
    {rows rows' : List (Option (t.Native ν))}
    (hlength : rows.length < 2 ^ 64)
    (hlength' : rows'.length < 2 ^ 64)
    (hrows :
      List.Forall₂ t.SameKey rows.reduceOption rows'.reduceOption) :
    (ArrowArray.mk t rows hlength).ingested =
      (ArrowArray.mk t rows' hlength').ingested := by
  have heq : rows.reduceOption = rows'.reduceOption := by
    rw [← List.forall₂_eq_eq_eq]
    exact hrows.imp fun _ _ h => h.eq
  simp only [ArrowArray.ingested, heq]

/-- A filter contains what is ingested into it. -/
theorem contains_ingestArrayIntoBloom
    {hash : DoubleHash}
    {array : ArrowArray ο ν}
    {item : Bytes}
    (start : BloomFilter)
    (hitem : item ∈ array.ingested) :
    (ingestArrayIntoBloom hash array start).contains hash item = true := by
  rw [ingestArrayIntoBloom, ArrowArray.forEachValue_fst]
  have hstart : start.Holds hash [] start := BloomFilter.holds_self
  exact (hstart.foldl_insert array.ingested).contains hitem

/--
**One key has one byte form.**  A callback receives the bytes of every non-null
value of a recognised type.  Two keys have the same bytes exactly when they are
equal and not zeros of different sign.  Columns of pairwise equal keys, with
this exception, leave the same sketches, and a filter built from a column
contains every key equal to one of its values.
-/
theorem arrow_keys_canonical
    (t : DataType ο)
    (hrecognised : t.recognised = true) :
    (∀ (rows : List (Option (t.Native ν)))
        (hlength : rows.length < 2 ^ 64)
        (σ : Type) (f : σ → Bytes → σ) (s : σ),
      forEachValue (⟨t, rows, hlength⟩ : ArrowArray ο ν) f s =
        ((rows.reduceOption.map t.keyBytes).foldl f s, true)) ∧
    (∀ x y : t.Native ν, t.IsKey x → t.IsKey y →
      (t.keyBytes x = t.keyBytes y ↔ t.SameKey x y)) ∧
    (∀ (rows rows' : List (Option (t.Native ν)))
        (hlength : rows.length < 2 ^ 64)
        (hlength' : rows'.length < 2 ^ 64),
      List.Forall₂ t.SameKey rows.reduceOption rows'.reduceOption →
      (∀ hash hll,
        ingestArrayIntoHll hash (⟨t, rows, hlength⟩ : ArrowArray ο ν)
            hll =
          ingestArrayIntoHll hash ⟨t, rows', hlength'⟩ hll) ∧
      (∀ hash bloom,
        ingestArrayIntoBloom hash (⟨t, rows, hlength⟩ : ArrowArray ο ν)
            bloom =
          ingestArrayIntoBloom hash ⟨t, rows', hlength'⟩ bloom) ∧
      ∀ hash cms count,
        ingestArrayIntoCms hash (⟨t, rows, hlength⟩ : ArrowArray ο ν) cms
            count =
          ingestArrayIntoCms hash ⟨t, rows', hlength'⟩ cms count) ∧
    ∀ (rows : List (Option (t.Native ν)))
        (hlength : rows.length < 2 ^ 64)
        (hash : DoubleHash)
        (bloom : BloomFilter)
        (x y : t.Native ν),
      some x ∈ rows →
      t.SameKey x y →
      (ingestArrayIntoBloom hash (⟨t, rows, hlength⟩ : ArrowArray ο ν)
        bloom).contains hash (t.keyBytes y) = true := by
  refine ⟨?_, ?_, ?_, ?_⟩
  · intro rows hlength σ f s
    rw [forEachValue_eq, if_pos hrecognised, List.foldl_map]
    rfl
  · intro x y hx _
    rw [DataType.sameKey_iff hx]
    exact (DataType.keyBytes_injective hrecognised).eq_iff
  · intro rows rows' hlength hlength' hrows
    have hingested :=
      ArrowArray.ingested_congr hlength hlength' hrows
    refine ⟨?_, ?_, ?_⟩
    · intro hash hll
      simp only [ingestArrayIntoHll, ArrowArray.forEachValue_fst,
        hingested]
    · intro hash bloom
      simp only [ingestArrayIntoBloom, ArrowArray.forEachValue_fst,
        hingested]
    · intro hash cms count
      simp only [ingestArrayIntoCms, ArrowArray.forEachValue_fst,
        hingested]
  · intro rows hlength hash bloom x y hx hsame
    apply contains_ingestArrayIntoBloom
    rw [← hsame.eq, ArrowArray.ingested, if_pos hrecognised]
    exact List.mem_map_of_mem (List.reduceOption_mem_iff.mpr hx)

section Zeros

/-- A column of doubles, given by their bits. -/
def float64Column
    (rows : List (Option UInt64))
    (hlength : rows.length < 2 ^ 64) : ArrowArray Empty Empty where
  dataType := .float64
  rows := rows
  length_lt := hlength

/-- The bits of `-0.0`. -/
def negativeZero : UInt64 :=
  0x8000000000000000

/-- A hash given by its values at `0.0` and at `-0.0`. -/
def signedZeroHash (zero negative : UInt64) : ItemHash :=
  fun item => if item = [0, 0, 0, 0, 0, 0, 0, 0x80] then negative else zero

/-- `XxHash64` of the two zeros at the seed of the HyperLogLog sketch. -/
def hllZeroHash : ItemHash :=
  signedZeroHash 0x34c96acdcadb1bbb 0x3f425eacf01544e0

/-- `XxHash64` of the two zeros at the seeds of the Bloom filter. -/
def bloomZeroHash : DoubleHash :=
  fun item =>
    (signedZeroHash 0x50b400eb6d10162e 0xeaf6079299b83656 item,
      signedZeroHash 0x5fa940e290fe6e48 0x8cecdc29ec5c20a5 item)

/-- `XxHash64` of the two zeros at the seed of the first row. -/
def cmsZeroHash : RowHash :=
  fun item _ => signedZeroHash 0x2719161c60fcb5c3 0x41f1854bc8ad42af item

/-- A Count-Min sketch of one row. -/
def oneRow : CountMinSketch where
  depth := 1
  width := 3
  counters := [0, 0, 0]
  total := 0
  wellFormed := ⟨by decide, by decide, rfl⟩

/-- A column of integers. -/
def int64Rows
    (rows : List (Option Int64))
    (hlength : rows.length < 2 ^ 64) : ArrowArray Empty Empty where
  dataType := .int64
  rows := rows
  length_lt := hlength

/-- The integers 7 and 9, with a null between or before them. -/
theorem arrow_keys_canonical_int64Rows :
    ToLeBytes.toLeBytes (7 : Int64) ≠ ToLeBytes.toLeBytes (9 : Int64) ∧
    ingestArrayIntoHll hllZeroHash
        (int64Rows [some 7, none, some 9] (by decide)) emptyHll =
      ingestArrayIntoHll hllZeroHash
        (int64Rows [none, some 7, some 9] (by decide)) emptyHll ∧
    (ingestArrayIntoBloom bloomZeroHash
      (int64Rows [none, some 9] (by decide))
      BloomFilter.fallback).contains bloomZeroHash
        (ToLeBytes.toLeBytes (9 : Int64)) = true := by
  have h :=
    arrow_keys_canonical (ν := Empty) (.int64 : DataType Empty) rfl
  have hsame :
      ∀ x : Int64,
        (DataType.int64 : DataType Empty).SameKey (ν := Empty) x x :=
    fun _ => ⟨rfl, id⟩
  refine ⟨?_, ?_, ?_⟩
  · intro hbytes
    have hkey := (h.2.1 (7 : Int64) (9 : Int64) rfl rfl).mp hbytes
    have hne : (7 : Int64) ≠ 9 := by
      decide
    exact hne hkey.eq
  · have hrows :
        List.Forall₂
          ((DataType.int64 : DataType Empty).SameKey (ν := Empty))
          [(7 : Int64), (9 : Int64)] [(7 : Int64), (9 : Int64)] :=
      .cons (hsame 7) (.cons (hsame 9) .nil)
    exact
      (h.2.2.1 [some (7 : Int64), none, some (9 : Int64)]
        [none, some (7 : Int64), some (9 : Int64)] (by decide)
        (by decide) hrows).1 hllZeroHash emptyHll
  · exact
      h.2.2.2 [none, some (9 : Int64)] (by decide) bloomZeroHash
        BloomFilter.fallback (9 : Int64) (9 : Int64) (by simp)
        (hsame 9)

/-- The two zeros are equal, and every sketch tells them apart. -/
theorem zeros_told_apart :
    List.Forall₂ (fun x y => (F64.mk x).partialEq ⟨y⟩ = true)
      [0] [negativeZero] ∧
    ingestArrayIntoHll hllZeroHash
        (float64Column [some 0] (by decide)) emptyHll ≠
      ingestArrayIntoHll hllZeroHash
        (float64Column [some negativeZero] (by decide)) emptyHll ∧
    ingestArrayIntoBloom bloomZeroHash
        (float64Column [some 0] (by decide)) BloomFilter.fallback ≠
      ingestArrayIntoBloom bloomZeroHash
        (float64Column [some negativeZero] (by decide))
        BloomFilter.fallback ∧
    ingestArrayIntoCms cmsZeroHash
        (float64Column [some 0] (by decide)) oneRow 1 ≠
      ingestArrayIntoCms cmsZeroHash
        (float64Column [some negativeZero] (by decide)) oneRow 1 ∧
    (ingestArrayIntoBloom bloomZeroHash
      (float64Column [some 0] (by decide))
      BloomFilter.fallback).contains bloomZeroHash
        (ToLeBytes.toLeBytes negativeZero) = false := by
  refine ⟨.cons (by decide +kernel) .nil, ?_⟩
  decide +kernel

end Zeros

end Samkhya
