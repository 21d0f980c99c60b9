import Mathlib
import Samkhya.Arrow.CanonicalKey
import Samkhya.Core.SketchMerge
import Samkhya.Duckdb.Sketcher

/-!
# What DuckDB's sketches share with Arrow's

The DuckDB sketcher hashes what a value prints.  For text and bytes this is what
the Arrow ingestion hashes, and the sketches are Arrow's, but for a token that
stands for NULL.  For integers and booleans it never is: the last byte that an
integer prints is a digit, and an integer whose highest byte is a digit has more
digits than bytes.  Sketches of the two engines then say nothing about each
other's values (`duckdb_portable_for_text`).
-/

namespace Samkhya

open FieldCodec Binary64

section Decimal

/-- The highest byte is written last. -/
theorem encodeLE_succ
    (w n : Nat) :
    encodeLE (w + 1) n =
      encodeLE w n ++ [UInt8.ofNat (n / 256 ^ w % 256)] := by
  induction w generalizing n with
  | zero => simp [encodeLE]
  | succ w ih =>
      rw [encodeLE, ih, encodeLE, List.cons_append, Nat.div_div_eq_div_mul,
        pow_succ']

/-- The byte of a digit. -/
theorem utf8EncodeChar_of_isDigit
    {c : Char}
    (h : c.isDigit = true) :
    ∃ byte : UInt8,
      String.utf8EncodeChar c = [byte] ∧
        48 ≤ byte.toNat ∧ byte.toNat ≤ 57 := by
  have hrange : 48 ≤ c.toNat ∧ c.toNat ≤ 57 := Char.isDigit_iff_toNat.mp h
  have hsize : c.utf8Size = 1 := by
    rw [Char.utf8Size_eq_one_iff]
    exact UInt32.le_iff_toNat_le.mpr (hrange.2.trans (by decide))
  refine ⟨_, String.utf8EncodeChar_eq_singleton hsize, ?_⟩
  have hbyte : c.val.toUInt8.toNat = c.toNat := by
    rw [UInt32.toNat_toUInt8]
    exact Nat.mod_eq_of_lt (hrange.2.trans_lt (by decide))
  rw [hbyte]
  exact hrange

theorem asBytes_ofList
    (text : List Char) :
    asBytes (String.ofList text) = text.flatMap String.utf8EncodeChar := by
  rw [asBytes_eq]
  change (String.ofList text).toByteArray.data.toList = _
  rw [String.toByteArray_ofList, List.utf8Encode, List.data_toByteArray]

/-- An integer prints its digits, behind a sign if it is negative. -/
theorem toString_int
    (i : Int) :
    ∃ sign : List Char,
      toString i = String.ofList (sign ++ Nat.toDigits 10 i.natAbs) ∧
        (0 ≤ i → sign = []) := by
  cases i with
  | ofNat n => exact ⟨[], rfl, fun _ => rfl⟩
  | negSucc n =>
      refine ⟨['-'], ?_, fun h => by omega⟩
      change "-" ++ String.ofList (Nat.toDigits 10 (n + 1)) = _
      rw [← String.ofList_append]
      rfl

theorem length_flatMap_utf8EncodeChar
    {digits : List Char}
    (h : ∀ c ∈ digits, c.isDigit = true) :
    (digits.flatMap String.utf8EncodeChar).length = digits.length := by
  induction digits with
  | nil => rfl
  | cons c digits ih =>
      obtain ⟨byte, hbyte, _⟩ :=
        utf8EncodeChar_of_isDigit (h c List.mem_cons_self)
      rw [List.flatMap_cons, hbyte, List.singleton_append,
        List.length_cons, List.length_cons,
        ih fun d hd => h d (List.mem_cons_of_mem _ hd)]

/-- What an integer prints is never its bytes. -/
theorem asBytes_toString_ne_encodeLE
    {w n : Nat}
    {i : Int}
    (hn : n < 256 ^ (w + 1))
    (hi : i = n ∨ 128 * 256 ^ w ≤ n) :
    asBytes (toString i) ≠ encodeLE (w + 1) n := by
  intro heq
  obtain ⟨sign, htext, hsign⟩ := toString_int i
  have hdigit :
      ∀ c ∈ Nat.toDigits 10 i.natAbs, c.isDigit = true := fun c hc =>
    Nat.isDigit_of_mem_toDigits (by decide) (by decide) hc
  rw [htext, asBytes_ofList, List.flatMap_append] at heq
  -- The highest byte is the last digit.
  have hpos : 0 < 256 ^ w := Nat.pow_pos (by decide)
  obtain ⟨hlow, hhigh⟩ :
      48 ≤ n / 256 ^ w ∧ n / 256 ^ w ≤ 57 := by
    obtain ⟨front, last, hdigits⟩ :
        ∃ front last, Nat.toDigits 10 i.natAbs = front ++ [last] :=
      ⟨_, _, (List.dropLast_append_getLast Nat.toDigits_ne_nil).symm⟩
    obtain ⟨byte, hbyte, hrange⟩ :=
      utf8EncodeChar_of_isDigit
        (hdigit last (hdigits ▸ List.mem_append_right _ List.mem_cons_self))
    rw [hdigits, List.flatMap_append, List.flatMap_singleton, hbyte,
      encodeLE_succ, ← List.append_assoc] at heq
    have htop : byte = UInt8.ofNat (n / 256 ^ w % 256) :=
      List.singleton_inj.mp (List.append_inj_right' heq rfl)
    have hlt : n / 256 ^ w < 256 :=
      Nat.div_lt_of_lt_mul (by rwa [← pow_succ])
    rwa [htop, toNat_lowByte, Nat.mod_eq_of_lt hlt] at hrange
  -- So the number is not negative, and has as many digits as bytes.
  have hnat : i = n := by
    refine hi.resolve_right fun hle => ?_
    have := (Nat.le_div_iff_mul_le hpos).mpr hle
    omega
  have hlength := congrArg List.length heq
  rw [hsign (hnat ▸ Int.natCast_nonneg n), List.flatMap_nil,
    List.nil_append, length_flatMap_utf8EncodeChar hdigit,
    length_encodeLE, hnat, Int.natAbs_natCast] at hlength
  have hfew : n < 10 ^ (w + 1) :=
    (Nat.length_toDigits_le_iff (by decide) w.succ_pos).mp hlength.le
  have hmany : 48 * 256 ^ w ≤ n := (Nat.le_div_iff_mul_le hpos).mp hlow
  have hpow : 10 ^ w ≤ 256 ^ w := Nat.pow_le_pow_left (by decide) w
  rw [pow_succ] at hfew
  omega

end Decimal

section Reading

variable {ο ν δ θ : Type}

/-- A value of a result is one of an Arrow type. -/
def DataType.ReadsValue :
    (t : DataType ο) → t.Native ν → ValueRef δ θ → Prop
  | int8 => fun (x : Int8) v => v = .tinyInt x
  | int16 => fun (x : Int16) v => v = .smallInt x
  | int32 => fun (x : Int32) v => v = .int x
  | int64 => fun (x : Int64) v => v = .bigInt x
  | uInt8 => fun (x : UInt8) v => v = .uTinyInt x
  | uInt16 => fun (x : UInt16) v => v = .uSmallInt x
  | uInt32 => fun (x : UInt32) v => v = .uInt x
  | uInt64 => fun (x : UInt64) v => v = .uBigInt x
  | boolean => fun (b : Bool) v => v = .boolean b
  | utf8 | largeUtf8 => fun (s : String) v => v = .text (asBytes s)
  | binary | largeBinary => fun (b : Bytes) v => v = .blob b
  | _ => fun _ _ => False

/-- The types whose bytes are what they print. -/
def DataType.isText : DataType ο → Bool
  | utf8 | largeUtf8 | binary | largeBinary => true
  | _ => false

/-- A row of a result, with nulls for nulls. -/
def DataType.ReadsResult
    (t : DataType ο) : Option (t.Native ν) → ValueRef δ θ → Prop
  | none, v => v = .null
  | some x, v => t.ReadsValue x v

variable
  {t : DataType ο}
  {x : t.Native ν}
  {v : ValueRef δ θ}
  {display : ValueDisplay δ θ}

theorem DataType.ReadsValue.valueBytes_of_isText
    (h : t.ReadsValue x v)
    (htext : t.isText = true) :
    valueBytes display v = t.keyBytes x := by
  cases t with
  | utf8 | largeUtf8 | binary | largeBinary =>
      cases h
      rfl
  | _ => cases htext

/-- The two ways to read the bits of a signed integer. -/
theorem toInt_eq_or_le
    {w : Nat}
    (x : BitVec (8 * w + 8)) :
    x.toInt = x.toNat ∨ 128 * 256 ^ w ≤ x.toNat := by
  rw [BitVec.toInt_eq_toNat_cond]
  split_ifs with hlt
  · exact Or.inl rfl
  · refine Or.inr ?_
    have hpow : 2 ^ (8 * w + 8) = 256 * 256 ^ w := by
      rw [pow_add, pow_mul, Nat.mul_comm]
      norm_num
    rw [hpow] at hlt
    omega

/-- Of the other types the two engines never hash the same bytes. -/
theorem DataType.ReadsValue.valueBytes_ne
    (h : t.ReadsValue x v)
    (htext : t.isText = false) :
    valueBytes display v ≠ t.keyBytes x := by
  cases t with
  | utf8 | largeUtf8 | binary | largeBinary => cases htext
  | boolean =>
      cases h
      cases x with
      | false =>
          change asBytes "0" ≠ [0]
          decide +kernel
      | true =>
          change asBytes "1" ≠ [1]
          decide +kernel
  | uInt8 =>
      cases h
      exact asBytes_toString_ne_encodeLE (UInt8.toNat_lt x) (Or.inl rfl)
  | uInt16 =>
      cases h
      exact asBytes_toString_ne_encodeLE (UInt16.toNat_lt x) (Or.inl rfl)
  | uInt32 =>
      cases h
      exact asBytes_toString_ne_encodeLE (UInt32.toNat_lt x) (Or.inl rfl)
  | uInt64 =>
      cases h
      exact asBytes_toString_ne_encodeLE (UInt64.toNat_lt x) (Or.inl rfl)
  | int8 =>
      cases h
      exact
        asBytes_toString_ne_encodeLE (UInt8.toNat_lt (Int8.toUInt8 x))
          (@toInt_eq_or_le 0 (Int8.toBitVec x))
  | int16 =>
      cases h
      exact
        asBytes_toString_ne_encodeLE (UInt16.toNat_lt (Int16.toUInt16 x))
          (@toInt_eq_or_le 1 (Int16.toBitVec x))
  | int32 =>
      cases h
      exact
        asBytes_toString_ne_encodeLE (UInt32.toNat_lt (Int32.toUInt32 x))
          (@toInt_eq_or_le 3 (Int32.toBitVec x))
  | int64 =>
      cases h
      exact
        asBytes_toString_ne_encodeLE (UInt64.toNat_lt (Int64.toUInt64 x))
          (@toInt_eq_or_le 7 (Int64.toBitVec x))
  | _ => cases h

end Reading

section Model

variable {δ θ : Type}

/-- One round of the row loop of the filter; reading the row may fail. -/
def insertRow
    (hash : DoubleHash)
    (display : ValueDisplay δ θ)
    (bloom : BloomFilter)
    (row : Except String (ValueRef δ θ)) : Except Error BloomFilter := do
  let val ← row.mapError mapDuckErr
  return bloom.insert hash (valueBytes display val)

/-- A filter of a given size from column 0 of a result. -/
def buildBloomFromQuery
    (math : SizingMath)
    (hash : DoubleHash)
    (display : ValueDisplay δ θ)
    (result : Except String (List (Except String (ValueRef δ θ))))
    (capacity : UInt64)
    (fpRate : F64) : Except Error BloomFilter := do
  let rows ← result.mapError mapDuckErr
  rows.foldlM (insertRow hash display)
    (BloomFilter.new math capacity fpRate)

end Model

section Results

variable
  {ο ν δ θ : Type}
  {t : DataType ο}
  {display : ValueDisplay δ θ}
  {column : List (ValueRef δ θ)}
  {rows : List (Option (t.Native ν))}

/-- A column is sketched by the bytes of its values. -/
theorem buildHllFromQuery_eq
    (hash : ItemHash)
    (display : ValueDisplay δ θ)
    (column : List (ValueRef δ θ))
    (precision : UInt8) :
    buildHllFromQuery hash display (.ok (column.map .ok)) precision =
      (HllSketch.tryNew precision).map fun s =>
        (column.map (valueBytes display)).foldl (HllSketch.add hash) s := by
  unfold buildHllFromQuery
  cases HllSketch.tryNew precision with
  | error e => rfl
  | ok s =>
      change (column.map Except.ok).foldlM (addRow hash display) s = _
      rw [List.foldlM_map]
      refine Eq.trans (List.foldlM_pure (m := Except Error)) ?_
      exact congrArg Except.ok List.foldl_map.symm

theorem buildBloomFromQuery_eq
    (math : SizingMath)
    (hash : DoubleHash)
    (display : ValueDisplay δ θ)
    (column : List (ValueRef δ θ))
    (capacity : UInt64)
    (fpRate : F64) :
    buildBloomFromQuery math hash display (.ok (column.map .ok)) capacity
        fpRate =
      .ok
        ((column.map (valueBytes display)).foldl
          (BloomFilter.insert hash)
          (BloomFilter.new math capacity fpRate)) := by
  change (column.map Except.ok).foldlM (insertRow hash display) _ = _
  rw [List.foldlM_map]
  refine Eq.trans (List.foldlM_pure (m := Except Error)) ?_
  exact congrArg Except.ok List.foldl_map.symm

/-- One pass over either of two lists with the same items. -/
theorem foldl_add_congr
    {hash : ItemHash}
    {precision : UInt8}
    {s : HllSketch}
    {items items' : List Bytes}
    (hnew : HllSketch.tryNew precision = .ok s)
    (hsame : ∀ x, x ∈ items ↔ x ∈ items') :
    items.foldl (HllSketch.add hash) s =
      items'.foldl (HllSketch.add hash) s := by
  have hrecords :
      ∀ items : List Bytes,
        (items.foldl (HllSketch.add hash) s).Records hash precision
          items := by
    intro items
    induction items using List.reverseRecOn with
    | nil => exact HllSketch.records_tryNew hnew
    | append_singleton items item ih =>
        rw [List.foldl_append]
        exact ih.add item
  exact
    (HllSketch.summary_orderFree hash).unique precision _ _ _ _ hsame
      (hrecords items) (hrecords items')

theorem any_isNone_iff
    {α : Type}
    (rows : List (Option α)) :
    rows.any Option.isNone = true ↔ none ∈ rows := by
  simp

/-- What a result column adds: the keys of the rows, and the token. -/
theorem mem_map_valueBytes_iff
    (hreads : List.Forall₂ t.ReadsResult rows column)
    (htext : t.isText = true)
    {item : Bytes} :
    item ∈ column.map (valueBytes display) ↔
      item ∈ rows.reduceOption.map t.keyBytes ∨
        (none ∈ rows ∧ item = nullToken) := by
  induction hreads with
  | nil => simp
  | @cons row v rows column hrow _ ih =>
      rw [List.map_cons, List.mem_cons, ih]
      cases row with
      | none =>
          cases hrow
          have htoken : valueBytes display .null = nullToken := rfl
          rw [htoken]
          simp only [List.reduceOption_cons_of_none, List.mem_cons,
            true_or, true_and]
          tauto
      | some x =>
          rw [DataType.ReadsValue.valueBytes_of_isText hrow htext]
          simp only [List.reduceOption_cons_of_some, List.map_cons,
            List.mem_cons, reduceCtorEq, false_or]
          tauto

end Results

section FreshFilters

open BitArray

/-- A filter in which nothing is set, with more than one bit. -/
structure BloomFilter.Blank (s : BloomFilter) : Prop where
  one_lt : 1 < s.numBits.toNat
  getBit_eq : ∀ j, getBit s.bits j = false

theorem getBit_replicate
    (n j : Nat) :
    getBit (List.replicate n 0) j = false := by
  have hzero : (List.replicate n (0 : UInt8)).getD (j / 8) 0 = 0 := by
    rw [List.getD_eq_getElem?_getD]
    exact List.getElem?_getD_replicate_default_eq _ _ _
  rw [getBit, hzero]
  simp

theorem BloomFilter.blank_tryNew
    {math : SizingMath}
    {capacity : UInt64}
    {fpRate : F64}
    {s : BloomFilter}
    (h : tryNew math capacity fpRate = .ok s) :
    s.Blank := by
  unfold tryNew at h
  split_ifs at h
  simp only at h
  split_ifs at h
  cases h
  refine ⟨?_, getBit_replicate _⟩
  have hle : (64 : UInt64) ≤ Max.max (sizing math capacity fpRate).toU64 64 :=
    Std.right_le_max
  exact Nat.lt_of_lt_of_le (by decide) (UInt64.le_iff_toNat_le.mp hle)

theorem BloomFilter.blank_new
    (math : SizingMath)
    (capacity : UInt64)
    (fpRate : F64) :
    (new math capacity fpRate).Blank := by
  unfold new
  simp only
  split
  · case h_1 s hnew => exact blank_tryNew hnew
  · exact ⟨by decide, getBit_replicate 8⟩

/-- With hashes that do not step, all bits of an item are one bit. -/
theorem BloomFilter.mem_bitIndices_iff
    {hash : DoubleHash}
    {s : BloomFilter}
    {item : Bytes}
    {h idx : UInt64}
    (hhash : hash item = (h, 0)) :
    idx ∈ s.bitIndices hash item ↔ idx = h % s.numBits := by
  have hne : s.numHashes.toNat ≠ 0 := fun hzero =>
    s.wellFormed.numHashes_ne (UInt32.toNat_inj.mp hzero)
  simp only [bitIndices, hhash, bitIndex, UInt64.mul_zero,
    UInt64.add_zero, List.mem_map, List.mem_range]
  constructor
  · rintro ⟨_, _, rfl⟩
    rfl
  · rintro rfl
    exact ⟨0, Nat.pos_of_ne_zero hne, rfl⟩

/-- With hashes that keep two items apart, one does not pass for the other. -/
theorem BloomFilter.Blank.exists_hash
    {s : BloomFilter}
    (h : s.Blank)
    {item other : Bytes}
    (hne : item ≠ other) :
    ∃ hash, (s.insert hash item).contains hash other = false := by
  let hash : DoubleHash := fun b => if b = item then (0, 0) else (1, 0)
  have hitem : hash item = (0, 0) := if_pos rfl
  have hother : hash other = (1, 0) := if_neg hne.symm
  have hone : ((1 : UInt64) % s.numBits).toNat = 1 := by
    rw [UInt64.toNat_mod]
    exact Nat.mod_eq_of_lt h.one_lt
  refine ⟨hash, Bool.eq_false_iff.mpr fun hcontains => ?_⟩
  have hmem :
      (1 : UInt64) % s.numBits ∈ (s.insert hash item).bitIndices hash other :=
    (mem_bitIndices_iff hother).mpr rfl
  have hset := contains_iff.mp hcontains _ hmem
  have hlength := (bitIndices_lt hmem).2
  rw [UInt64.toNat_div, hone] at hlength
  rw [hone] at hset
  have hholds :
      s.Holds hash ([] ++ [item]) (s.insert hash item) :=
    holds_self.insert item
  rcases (hholds.getBit_iff 1 hlength).mp hset with
    hstart | ⟨found, hfound, idx, hidx, hbit⟩
  · rw [h.getBit_eq] at hstart
    cases hstart
  · obtain rfl := List.mem_singleton.mp hfound
    rw [(mem_bitIndices_iff hitem).mp hidx] at hbit
    simp at hbit

end FreshFilters

section Registers

namespace HllSketch

variable {precision : UInt8} {s : HllSketch}

theorem registerIndex_zero :
    registerIndex precision 0 = 0 := by
  simp [registerIndex]

theorem registerIndex_ne_zero
    (hpos : 4 ≤ precision.toNat)
    (hle : precision.toNat ≤ 18) :
    registerIndex precision 0x8000000000000000 ≠ 0 := by
  unfold registerIndex
  simp only
  rw [UInt64.toNat_shiftRight, toNat_shift hle,
    Nat.mod_eq_of_lt (by omega), Nat.shiftRight_eq_div_pow]
  have hpow : 2 ^ (64 - precision.toNat) ≤ 2 ^ 63 :=
    Nat.pow_le_pow_right (by decide) (by omega)
  exact (Nat.div_pos hpow (Nat.pow_pos (by decide))).ne'

/-- With hashes that keep two items apart, their sketches differ. -/
theorem exists_hash
    (hnew : tryNew precision = .ok s)
    {item other : Bytes}
    (hne : item ≠ other) :
    ∃ hash, s.add hash item ≠ s.add hash other := by
  let hash : ItemHash :=
    fun b => if b = item then 0 else 0x8000000000000000
  have hitem : hash item = 0 := if_pos rfl
  have hother : hash other = 0x8000000000000000 := if_neg hne.symm
  obtain ⟨hprecision, hzero⟩ := getD_registers_tryNew hnew 0
  have hpos := s.wellFormed.le_precision
  have hle := s.wellFormed.precision_le
  have hlength : 0 < s.registers.length := by
    rw [s.wellFormed.length_eq]
    exact Nat.pow_pos (by decide)
  refine ⟨hash, fun heq => ?_⟩
  have hfirst :=
    congrArg (fun t : HllSketch => t.registers.getD 0 0) heq
  simp only [getD_registers_add hash s _ hlength, hitem, hother,
    registerIndex_zero, if_true, hzero] at hfirst
  rw [if_neg (registerIndex_ne_zero hpos hle)] at hfirst
  have hrank := (registerRank_bounds hpos hle 0).1
  have hraised := le_raise_right 0 (registerRank s.precision 0)
  rw [hfirst, UInt8.le_iff_toNat_le] at hraised
  exact absurd hraised (Nat.not_le.mpr hrank)

end HllSketch

end Registers

section Interchange

variable {ο ν δ θ : Type}

/--
**DuckDB's sketches are Arrow's for text alone.**  The sketch of a column of
text or bytes is the one that Arrow's ingestion builds, with the token if there
is a NULL, and the filter contains the keys of all its values.  A single integer
or boolean is sketched differently, for some hash, and passes for absent from
its own filter.
-/
theorem duckdb_portable_for_text
    (display : ValueDisplay δ θ)
    (t : DataType ο) :
    (t.isText = true →
      ∀ (rows : List (Option (t.Native ν)))
          (hlength : rows.length < 2 ^ 64)
          (column : List (ValueRef δ θ)),
        List.Forall₂ t.ReadsResult rows column →
        (∀ hash precision,
          buildHllFromQuery hash display (.ok (column.map .ok))
              precision =
            (HllSketch.tryNew precision).map fun s =>
              let s := ingestArrayIntoHll hash ⟨t, rows, hlength⟩ s
              if rows.any Option.isNone then s.add hash nullToken else s) ∧
        ∀ math hash capacity fpRate,
          ∃ bloom,
            buildBloomFromQuery math hash display
                (.ok (column.map .ok)) capacity fpRate =
              .ok bloom ∧
            ∀ x, some x ∈ rows →
              bloom.contains hash (t.keyBytes x) = true) ∧
    (t.isText = false →
      ∀ (x : t.Native ν) (v : ValueRef δ θ),
        t.ReadsValue x v →
        (∀ precision s,
          HllSketch.tryNew precision = .ok s →
          ∃ hash,
            buildHllFromQuery hash display (.ok [.ok v]) precision ≠
              .ok
                (ingestArrayIntoHll hash
                  ⟨t, [some x], Nat.one_lt_two_pow (by decide)⟩ s)) ∧
        ∀ math capacity fpRate,
          ∃ hash bloom,
            buildBloomFromQuery math hash display (.ok [.ok v]) capacity
                fpRate =
              .ok bloom ∧
            bloom.contains hash (t.keyBytes x) = false) := by
  refine ⟨?_, ?_⟩
  · intro htext rows hlength column hreads
    have hrecognised : t.recognised = true := by
      cases t <;> first | rfl | cases htext
    have hingested :
        (ArrowArray.mk t rows hlength).ingested =
          rows.reduceOption.map t.keyBytes :=
      if_pos hrecognised
    refine ⟨?_, ?_⟩
    · intro hash precision
      rw [buildHllFromQuery_eq]
      cases hnew : HllSketch.tryNew precision with
      | error e => rfl
      | ok s =>
          refine congrArg Except.ok ?_
          simp only [ingestArrayIntoHll, ArrowArray.forEachValue_fst,
            hingested]
          have hmem :=
            @mem_map_valueBytes_iff ο ν δ θ t display column rows hreads
              htext
          split_ifs with hnull
          · have hnone := (any_isNone_iff rows).mp hnull
            have hconcat :
                (rows.reduceOption.map t.keyBytes ++ [nullToken]).foldl
                    (HllSketch.add hash) s =
                  ((rows.reduceOption.map t.keyBytes).foldl
                    (HllSketch.add hash) s).add hash nullToken := by
              rw [List.foldl_append]
              rfl
            rw [← hconcat]
            refine foldl_add_congr hnew fun item => ?_
            rw [hmem, and_iff_right hnone, List.mem_append,
              List.mem_singleton]
          · have hnone : none ∉ rows := fun h =>
              hnull ((any_isNone_iff rows).mpr h)
            refine foldl_add_congr hnew fun item => ?_
            rw [hmem, or_iff_left fun h => hnone h.1]
    · intro math hash capacity fpRate
      refine ⟨_, buildBloomFromQuery_eq math hash display column _ _, ?_⟩
      intro x hx
      have hholds :
          (BloomFilter.new math capacity fpRate).Holds hash []
            (BloomFilter.new math capacity fpRate) :=
        BloomFilter.holds_self
      apply (hholds.foldl_insert (column.map (valueBytes display))).contains
      rw [List.nil_append, mem_map_valueBytes_iff hreads htext]
      exact
        Or.inl
          (List.mem_map_of_mem (List.reduceOption_mem_iff.mpr hx))
  · intro htext x v hreads
    have hne : valueBytes display v ≠ t.keyBytes x :=
      hreads.valueBytes_ne htext
    have hrecognised : t.recognised = true := by
      cases t <;> first | rfl | cases hreads
    refine ⟨?_, ?_⟩
    · intro precision s hnew
      obtain ⟨hash, hdiffer⟩ := HllSketch.exists_hash hnew hne
      refine ⟨hash, ?_⟩
      have hbuild := buildHllFromQuery_eq hash display [v] precision
      rw [hnew] at hbuild
      have hone :
          ∀ hlength,
            (ArrowArray.mk t [some x] hlength).ingested =
              [t.keyBytes x] :=
        fun _ => if_pos hrecognised
      rw [ingestArrayIntoHll, ArrowArray.forEachValue_fst, hone]
      exact fun heq => hdiffer (Except.ok.inj (hbuild.symm.trans heq))
    · intro math capacity fpRate
      obtain ⟨hash, hmissing⟩ :=
        (BloomFilter.blank_new math capacity fpRate).exists_hash hne
      exact
        ⟨hash, _, buildBloomFromQuery_eq math hash display [v] _ _,
          hmissing⟩

end Interchange

section SmallColumns

/-- No value prints by other means than the sketcher's. -/
def plainDisplay : ValueDisplay Empty Empty where
  float _ := ""
  double _ := ""
  decimal v := nomatch v
  debug v := nomatch v

def textType : DataType Empty :=
  .utf8

def textRows : List (Option String) :=
  [some "a", none]

def textColumn : List (ValueRef Empty Empty) :=
  [.text (asBytes "a"), .null]

theorem textColumn_reads :
    List.Forall₂ (@DataType.ReadsResult Empty Empty Empty Empty textType)
      textRows textColumn :=
  .cons rfl (.cons rfl .nil)

theorem duckdb_portable_for_text_small :
    buildHllFromQuery lengthItemHash plainDisplay
        (.ok (textColumn.map .ok)) 4 =
      ((HllSketch.tryNew 4).map fun s =>
        (ingestArrayIntoHll lengthItemHash
          (⟨textType, textRows, by decide⟩ : ArrowArray Empty Empty)
          s).add lengthItemHash nullToken) ∧
    ∃ hash,
      buildHllFromQuery hash plainDisplay (.ok [.ok (.bigInt 7)]) 4 ≠
        .ok
          (ingestArrayIntoHll hash
            (⟨.int64, [some (7 : Int64)], by decide⟩ :
              ArrowArray Empty Empty) emptyHll) := by
  constructor
  · exact
      (((duckdb_portable_for_text plainDisplay textType).1 rfl textRows
        (by decide) textColumn textColumn_reads).1 lengthItemHash 4)
  · exact
      (((@duckdb_portable_for_text Empty Empty Empty Empty plainDisplay
        .int64).2 rfl (7 : Int64) (.bigInt 7) rfl).1 4 emptyHll
          emptyHll_fresh)

end SmallColumns

end Samkhya
