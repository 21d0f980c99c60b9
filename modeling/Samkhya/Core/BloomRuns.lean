import Mathlib
import Samkhya.Core.Bloom
import Samkhya.Foundations.BitArray
import Samkhya.Foundations.SummaryHistory

/-!
# Bloom filters over runs of insertions and codec hops

The bits an item addresses are below the number of bits, whatever the hashes, so
they lie in the array.  A run sets the bits of the items it inserts and no
others: every inserted item is found at every later point, and the filter a run
ends in depends on its start and the set of inserted items.
-/

namespace Samkhya

open FieldCodec BitArray

namespace BloomFilter

/-- One step of a filter's life. -/
inductive Op
  | insert (item : Bytes)
  | hop

/-- `insert`, or `to_bytes` followed by `from_bytes`. -/
def step
    (hash : DoubleHash)
    (bincode : Bincode BloomFields)
    (s : BloomFilter) : Op → Except Error BloomFilter
  | .insert item => .ok (s.insert hash item)
  | .hop => s.toBytes bincode >>= fromBytes bincode

/-- A run of steps. -/
def run
    (hash : DoubleHash)
    (bincode : Bincode BloomFields)
    (start : BloomFilter)
    (ops : List Op) : Except Error BloomFilter :=
  ops.foldlM (step hash bincode) start

/-- The item a step inserts. -/
def Op.item : Op → Option Bytes
  | .insert item => some item
  | .hop => none

/-- The items that a run inserts. -/
def inserted (ops : List Op) : List Bytes :=
  ops.filterMap Op.item

section Bits

variable
  {hash : DoubleHash}
  {s t : BloomFilter}
  {item : Bytes}

/-- Every computed bit index lies in the bit array. -/
theorem bitIndices_lt
    {idx : UInt64}
    (h : idx ∈ s.bitIndices hash item) :
    idx < s.numBits ∧ (idx / 8).toNat < s.bits.length := by
  obtain ⟨i, _, rfl⟩ := List.mem_map.mp h
  have hpos : 0 < s.numBits :=
    UInt64.pos_iff_ne_zero.mpr s.wellFormed.numBits_ne
  have hlt :
      bitIndex (hash item).1 (hash item).2 (UInt32.ofNat i) s.numBits <
        s.numBits :=
    UInt64.mod_lt _ hpos
  refine ⟨hlt, ?_⟩
  rw [s.wellFormed.length_eq, bytesFor, UInt64.toNat_div]
  have hnat := UInt64.lt_iff_toNat_lt.mp hlt
  simp only [UInt64.reduceToNat]
  omega

theorem bitMask_eq_mask
    (idx : UInt64) :
    bitMask idx = mask (idx.toNat % 8) := by
  have hmod : (idx % 8).toNat = idx.toNat % 8 := by
    simp
  have hbyte : (idx % 8).toUInt8 = UInt8.ofNat (idx.toNat % 8) := by
    rw [← hmod]
    rfl
  rw [bitMask, mask, hbyte]

theorem setBit_eq
    (bits : List UInt8)
    (idx : UInt64) :
    BloomFilter.setBit bits idx = BitArray.setBit bits idx.toNat := by
  simp [BloomFilter.setBit, BitArray.setBit, bitMask_eq_mask]

theorem foldl_setBit_eq
    (bits : List UInt8)
    (indices : List UInt64) :
    indices.foldl BloomFilter.setBit bits =
      (indices.map UInt64.toNat).foldl BitArray.setBit bits := by
  rw [List.foldl_map]
  simp only [← setBit_eq]

/-- A filter contains an item when all its bits are set. -/
theorem contains_iff :
    s.contains hash item = true ↔
      ∀ idx ∈ s.bitIndices hash item,
        getBit s.bits idx.toNat = true := by
  have hbit :
      ∀ idx : UInt64,
        s.bits.getD (idx / 8).toNat 0 &&& bitMask idx ≠ 0 ↔
          getBit s.bits idx.toNat = true := by
    intro idx
    rw [bitMask_eq_mask, getBit,
      and_mask_ne_zero_iff _ (Nat.mod_lt _ (by decide))]
    simp
  simp only [contains, List.all_eq_true, decide_eq_true_eq, hbit]

/-- The bits an item addresses depend on the shape of the filter. -/
theorem bitIndices_congr
    (hhashes : s.numHashes = t.numHashes)
    (hbits : s.numBits = t.numBits) :
    s.bitIndices hash item = t.bitIndices hash item := by
  simp only [bitIndices, hhashes, hbits]

end Bits

/-- The bits set are those of the start and those of the items. -/
structure Holds
    (hash : DoubleHash)
    (start : BloomFilter)
    (items : List Bytes)
    (s : BloomFilter) : Prop where
  numHashes_eq : s.numHashes = start.numHashes
  numBits_eq : s.numBits = start.numBits
  getBit_iff :
    ∀ j, j / 8 < s.bits.length →
      (getBit s.bits j = true ↔
        getBit start.bits j = true ∨
        ∃ item ∈ items,
          ∃ idx ∈ s.bitIndices hash item, idx.toNat = j)

section Runs

variable
  {hash : DoubleHash}
  {bincode : Bincode BloomFields}
  {start s t : BloomFilter}
  {items items' : List Bytes}

theorem holds_self :
    start.Holds hash [] start := by
  constructor <;> simp

theorem Holds.insert
    (hs : start.Holds hash items s)
    (item : Bytes) :
    start.Holds hash (items ++ [item]) (s.insert hash item) where
  numHashes_eq := hs.numHashes_eq
  numBits_eq := hs.numBits_eq
  getBit_iff := by
    intro j hj
    have hbits :
        (s.insert hash item).bits =
          ((s.bitIndices hash item).map UInt64.toNat).foldl
            BitArray.setBit s.bits :=
      foldl_setBit_eq s.bits (s.bitIndices hash item)
    rw [hbits, BitArray.length_foldl_setBit] at hj
    have hold := hs.getBit_iff j hj
    rw [hbits, getBit_foldl_setBit _ _ hj, hold]
    have hindices :
        ∀ x, (s.insert hash item).bitIndices hash x =
          s.bitIndices hash x :=
      fun x => rfl
    simp only [hindices, List.mem_append, List.mem_singleton,
      List.mem_map, or_and_right, exists_or, exists_eq_left,
      or_assoc]

theorem Holds.foldl_insert
    (hs : start.Holds hash items s)
    (added : List Bytes) :
    start.Holds hash (items ++ added)
      (added.foldl (fun s item => s.insert hash item) s) := by
  induction added generalizing items s with
  | nil =>
      rw [List.append_nil]
      exact hs
  | cons item added ih =>
      rw [List.foldl_cons, List.append_cons]
      exact ih (hs.insert item)

/-- Validation accepts exactly what it was given. -/
theorem toBloomFields_of_validate
    {s : BloomFields}
    (h : validate s = .ok t) :
    t.toBloomFields = s := by
  unfold validate at h
  split_ifs at h
  cases h
  rfl

/-- A codec hop that succeeds returns the filter that was written. -/
theorem eq_of_hop
    (hround : bincode.RoundTrips)
    (h : (s.toBytes bincode >>= fromBytes bincode) = .ok t) :
    t = s := by
  have hvalidate : validate s.toBloomFields = .ok t :=
    Bincode.next_of_hop hround h
  have hfields := toBloomFields_of_validate hvalidate
  cases s
  cases t
  cases hfields
  rfl

/-- A run sets the bits of the items it inserts. -/
theorem holds_of_run
    (hround : bincode.RoundTrips)
    {ops : List Op}
    (h : run hash bincode start ops = .ok s) :
    start.Holds hash (inserted ops) s := by
  induction ops using List.reverseRecOn generalizing s with
  | nil =>
      cases h
      exact holds_self
  | append_singleton ops op ih =>
      rw [run, List.foldlM_append] at h
      obtain ⟨s', hrun, hlast⟩ := except_bind_eq_ok h
      have hs' := ih hrun
      have hstep : step hash bincode s' op = .ok s := by
        simpa using hlast
      cases op with
      | insert item =>
          cases hstep
          simpa [inserted, List.filterMap_cons, Op.item] using
            hs'.insert item
      | hop =>
          rw [eq_of_hop hround hstep]
          simpa [inserted, List.filterMap_cons, Op.item] using hs'

/-- Every item that was inserted is found. -/
theorem Holds.contains
    (hs : start.Holds hash items s)
    {item : Bytes}
    (hitem : item ∈ items) :
    s.contains hash item = true := by
  rw [contains_iff]
  intro idx hidx
  have hlt : idx.toNat / 8 < s.bits.length := by
    simpa using (bitIndices_lt hidx).2
  exact
    (hs.getBit_iff _ hlt).mpr (Or.inr ⟨item, hitem, idx, hidx, rfl⟩)

/-- What the start contains is still found. -/
theorem Holds.contains_of_start
    (hs : start.Holds hash items s)
    {item : Bytes}
    (hitem : start.contains hash item = true) :
    s.contains hash item = true := by
  rw [contains_iff] at hitem ⊢
  intro idx hidx
  have hlt : idx.toNat / 8 < s.bits.length := by
    simpa using (bitIndices_lt hidx).2
  rw [bitIndices_congr hs.numHashes_eq hs.numBits_eq] at hidx
  exact (hs.getBit_iff _ hlt).mpr (Or.inl (hitem idx hidx))

/-- Runs from one start with the same set of items end in one filter. -/
theorem Holds.unique
    (hmem : ∀ x, x ∈ items ↔ x ∈ items')
    (hs : start.Holds hash items s)
    (ht : start.Holds hash items' t) :
    s = t := by
  have hhashes := hs.numHashes_eq.trans ht.numHashes_eq.symm
  have hnumBits := hs.numBits_eq.trans ht.numBits_eq.symm
  have hlength : s.bits.length = t.bits.length := by
    rw [s.wellFormed.length_eq, t.wellFormed.length_eq, hnumBits]
  have hbits : s.bits = t.bits := by
    apply ext_getBit hlength
    intro j hj
    apply Bool.eq_iff_iff.mpr
    rw [hs.getBit_iff j hj, ht.getBit_iff j (hlength ▸ hj)]
    simp only [hmem, @bitIndices_congr hash s t _ hhashes hnumBits]
  obtain ⟨⟨_, _, _⟩, _⟩ := s
  obtain ⟨⟨_, _, _⟩, _⟩ := t
  cases hhashes
  cases hnumBits
  cases hbits
  rfl

/-- With the field codec every run goes through. -/
theorem exists_run
    (hash : DoubleHash)
    (start : BloomFilter)
    (ops : List Op) :
    ∃ s, run hash (.ofCodec BloomFields.codec) start ops = .ok s := by
  induction ops generalizing start with
  | nil =>
      exact ⟨start, rfl⟩
  | cons op ops ih =>
      cases op with
      | insert item =>
          exact ih (start.insert hash item)
      | hop =>
          obtain ⟨s, hs⟩ := ih start
          refine ⟨s, ?_⟩
          rw [run, List.foldlM_cons, step, hop_self]
          exact hs

end Runs

end BloomFilter

open BloomFilter in
/--
**Bloom filters have no false negatives and no index out of range**, from any
well-formed filter, which is what the constructors and the decoder return, and
the filter a run ends in depends on its start and the set of inserted items.
-/
theorem bloom_no_false_negatives
    (hash : DoubleHash)
    (bincode : Bincode BloomFields)
    (hround : bincode.RoundTrips)
    (start : BloomFilter) :
    (∀ ops s, run hash bincode start ops = .ok s →
      (∀ item,
        item ∈ inserted ops ∨ start.contains hash item = true →
        s.contains hash item = true) ∧
      ∀ item, ∀ idx ∈ s.bitIndices hash item,
        idx < s.numBits ∧ (idx / 8).toNat < s.bits.length) ∧
    (∀ ops ops' s t,
      run hash bincode start ops = .ok s →
      run hash bincode start ops' = .ok t →
      (∀ item, item ∈ inserted ops ↔ item ∈ inserted ops') →
      s = t) ∧
    ∀ ops,
      ∃ s, run hash (.ofCodec BloomFields.codec) start ops = .ok s := by
  refine ⟨?_, ?_, exists_run hash start⟩
  · intro ops s h
    have hs := holds_of_run hround h
    refine ⟨?_, fun item idx hidx => bitIndices_lt hidx⟩
    rintro item (hitem | hitem)
    · exact hs.contains hitem
    · exact hs.contains_of_start hitem
  · intro ops ops' s t h h' hmem
    exact
      (holds_of_run hround h).unique hmem (holds_of_run hround h')

section OddBits

open BloomFilter

/-- A filter of 13 bits, a number that fills no byte. -/
def oddFilter : BloomFilter where
  bits := [0, 0]
  numHashes := 3
  numBits := 13
  wellFormed := ⟨by decide, by decide, by decide, by decide⟩

/-- Both hashes are the length of the item. -/
def lengthDoubleHash : DoubleHash :=
  fun item => (UInt64.ofNat item.length, UInt64.ofNat item.length)

theorem bloom_no_false_negatives_oddFilter :
    ∃ s,
      run lengthDoubleHash (.ofCodec BloomFields.codec) oddFilter
          [.insert [7], .hop, .insert [1, 2]] =
        .ok s ∧
      s.contains lengthDoubleHash [7] = true ∧
      s.contains lengthDoubleHash [1, 2] = true := by
  have h :=
    bloom_no_false_negatives lengthDoubleHash
      (.ofCodec BloomFields.codec) (Bincode.ofCodec_roundTrips _)
      oddFilter
  obtain ⟨s, hs⟩ := h.2.2 [.insert [7], .hop, .insert [1, 2]]
  have hfound := (h.1 _ s hs).1
  exact
    ⟨s, hs, hfound [7] (Or.inl (by decide +kernel)),
      hfound [1, 2] (Or.inl (by decide +kernel))⟩

end OddBits

end Samkhya
