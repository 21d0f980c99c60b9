import Mathlib
import Samkhya.Core.Degree
import Samkhya.Core.Sketch
import Samkhya.Foundations.CellArray
import Samkhya.Foundations.HashBits
import Samkhya.Foundations.Multiplicity
import Samkhya.Foundations.RoundToEven
import Samkhya.Foundations.SummaryHistory

/-!
# HyperLogLog sketches and the distinct floor

A sketch of precision `p` keeps `2 ^ p` registers; an item addresses one of
them by the leading `p` bits of its hash and raises it to the rank of the
remaining bits.  The hash is an arbitrary function.

Every history of constructions, additions and merges keeps `Tracks`: no
register exceeds `64 - p + 1`, and a non-zero register was addressed by an
item that was added.  The non-zero registers are then at most the distinct
items, which makes the degree `rows - nonzero + 1` sound.
-/

namespace Samkhya

open Multiplicity CellArray FieldCodec HashBits Binary64

/-- The fields of a sketch, as the serializer reads them. -/
structure HllFields where
  precision : UInt8
  registers : List UInt8
deriving DecidableEq

/-- The precision is in range and addresses every register. -/
structure HllFields.WellFormed (s : HllFields) : Prop where
  le_precision : 4 ≤ s.precision.toNat
  precision_le : s.precision.toNat ≤ 18
  length_eq : s.registers.length = 2 ^ s.precision.toNat

/-- The fields in the order in which they are written. -/
def HllFields.codec : Codec HllFields :=
  (Codec.u8.pair Codec.u8.vec).iso
    (fun s => (s.precision, s.registers))
    (fun p => ⟨p.1, p.2⟩)
    (fun _ => rfl)

/-- HyperLogLog sketch with its register count. -/
structure HllSketch extends HllFields where
  wellFormed : toHllFields.WellFormed
deriving DecidableEq

/-- `XxHash64` of an item. -/
abbrev ItemHash := Bytes → UInt64

/-- The floating-point functions of the estimator. -/
structure EstimateMath where
  add : F64 → F64 → F64
  mul : F64 → F64 → F64
  div : F64 → F64 → F64
  ln : F64 → F64

namespace HllSketch

/-- Fallible constructor for precisions in `[4, 18]`. -/
def tryNew (precision : UInt8) : Except Error HllSketch :=
  if h : 4 ≤ precision.toNat ∧ precision.toNat ≤ 18 then
    .ok
      { precision := precision
        registers := List.replicate (1 <<< precision.toNat) 0
        wellFormed :=
          { le_precision := h.1
            precision_le := h.2
            length_eq := by
              rw [List.length_replicate, Nat.one_shiftLeft] } }
  else
    .error
      (.invalidSketch
        ("HLL precision " ++ toString precision ++
          " not in [4, 18]"))

/-- Structural validation of a deserialised payload. -/
def validate (s : HllFields) : Except Error HllSketch :=
  if hrange : 4 ≤ s.precision.toNat ∧ s.precision.toNat ≤ 18 then
    let expected := 1 <<< s.precision.toNat
    if hlength : s.registers.length ≠ expected then
      .error
        (.invalidSketch
          ("HLL register length " ++ toString s.registers.length ++
            " != 2^precision = " ++ toString expected))
    else
      .ok
        { s with
          wellFormed :=
            { le_precision := hrange.1
              precision_le := hrange.2
              length_eq :=
                (not_not.mp hlength).trans (Nat.one_shiftLeft _) } }
  else
    .error
      (.invalidSketch
        ("HLL decoded precision " ++ toString s.precision ++
          " not in [4, 18]"))

/-- Register that a hash addresses: its leading `precision` bits. -/
def registerIndex (precision : UInt8) (h : UInt64) : Nat :=
  let p := precision.toUInt32
  (h >>> (64 - p).toUInt64).toNat

/-- Rank of the bits behind the register index. -/
def registerRank (precision : UInt8) (h : UInt64) : UInt8 :=
  let p := precision.toUInt32
  let w := h <<< p.toUInt64
  let rho : UInt32 :=
    if w = 0 then
      -- all remaining bits zero
      64 - p + 1
    else
      leadingZeros w + 1
  (min rho 255).toUInt8

/-- Raise the addressed register to the rank of the item. -/
def add
    (hash : ItemHash)
    (s : HllSketch)
    (item : Bytes) : HllSketch :=
  let h := hash item
  let idx := registerIndex s.precision h
  let rho := registerRank s.precision h
  if rho > s.registers.getD idx 0 then
    { s with
      registers := s.registers.set idx rho
      wellFormed :=
        { s.wellFormed with
          length_eq := by
            rw [List.length_set]
            exact s.wellFormed.length_eq } }
  else
    s

/-- The larger of two registers, as the merge loop writes it. -/
def raise (a b : UInt8) : UInt8 :=
  if b > a then b else a

/-- Register-wise maximum of two sketches of one precision. -/
def merge (s other : HllSketch) : Except Error HllSketch :=
  if s.precision ≠ other.precision then
    .error (.invalidSketch "HLL precision mismatch in merge")
  else
    .ok
      { s with
        registers := zipInto raise s.registers other.registers
        wellFormed :=
          { s.wellFormed with
            length_eq := by
              rw [length_zipInto]
              exact s.wellFormed.length_eq } }

/-- `2f64.powi(-r)`, which is a double for every register. -/
def powNeg (r : UInt8) : F64 where
  bits := UInt64.ofNat ((1023 - r.toNat) * 2 ^ 52)

/-- The correction constant of a precision. -/
def alpha
    (math : EstimateMath)
    (precision : UInt8)
    (m : F64) : F64 :=
  if precision = 4 then
    -- 0.673
    ⟨0x3fe589374bc6a7f0⟩
  else if precision = 5 then
    -- 0.697
    ⟨0x3fe64dd2f1a9fbe7⟩
  else if precision = 6 then
    -- 0.709
    ⟨0x3fe6b020c49ba5e3⟩
  else
    -- 0.7213 and 1.079
    math.div ⟨0x3fe714e3bcd35a86⟩
      (math.add F64.one (math.div ⟨0x3ff14395810624dd⟩ m))

/-- Cardinality estimate, by linear counting when it is low. -/
def estimate (math : EstimateMath) (s : HllSketch) : UInt64 :=
  let m := F64.ofU64 (UInt64.ofNat s.registers.length)
  let sum := (s.registers.map powNeg).foldl math.add F64.zero
  let raw :=
    math.div
      (math.mul (math.mul (alpha math s.precision m) m) m) sum
  let zeros := s.registers.countP (fun r => r == 0)
  -- 2.5
  if raw.le (math.mul ⟨0x4004000000000000⟩ m) ∧ 0 < zeros then
    (math.mul m
      (math.ln
        (math.div m (F64.ofU64 (UInt64.ofNat zeros))))).toU64
  else
    raw.toU64

/-- Distinct-count floor: the registers that some item has raised. -/
def nonzeroRegisters (s : HllSketch) : UInt64 :=
  UInt64.ofNat (s.registers.countP (fun r => r != 0))

def toBytes
    (bincode : Bincode HllFields)
    (s : HllSketch) : Except Error Bytes :=
  (bincode.serialize s.toHllFields).mapError Error.serde

def fromBytes
    (bincode : Bincode HllFields)
    (bytes : Bytes) : Except Error HllSketch := do
  let s ← (bincode.deserialize bytes).mapError Error.serde
  validate s

section Codec

theorem validate_toHllFields
    (s : HllSketch) :
    validate s.toHllFields = .ok s := by
  have hlength := s.wellFormed.length_eq
  rw [← Nat.one_shiftLeft] at hlength
  unfold validate
  rw [dif_pos ⟨s.wellFormed.le_precision, s.wellFormed.precision_le⟩]
  simp only
  rw [dif_neg (not_not.mpr hlength)]

/-- Every sketch is read back as it was written. -/
theorem hop_self
    (s : HllSketch) :
    (s.toBytes (.ofCodec HllFields.codec) >>=
        fromBytes (.ofCodec HllFields.codec)) =
      .ok s := by
  have hlength : s.registers.length < 256 ^ 8 := by
    rw [s.wellFormed.length_eq]
    calc
      2 ^ s.precision.toNat ≤ 2 ^ 18 :=
        Nat.pow_le_pow_right (by decide) s.wellFormed.precision_le
      _ < 256 ^ 8 := by decide
  have hfits : HllFields.codec.Fits s.toHllFields :=
    ⟨trivial, hlength, fun _ _ => trivial⟩
  exact
    (Bincode.hop_eq hfits validate).trans (validate_toHllFields s)

end Codec

section Registers

variable {precision : UInt8}

theorem toNat_shift
    (hle : precision.toNat ≤ 18) :
    (64 - precision.toUInt32).toUInt64.toNat =
      64 - precision.toNat := by
  have hp : precision.toUInt32.toNat = precision.toNat :=
    UInt8.toNat_toUInt32 precision
  have hsub : precision.toUInt32 ≤ 64 := by
    rw [UInt32.le_iff_toNat_le, hp]
    exact hle.trans (by decide)
  rw [UInt32.toNat_toUInt64, UInt32.toNat_sub_of_le _ _ hsub, hp]
  rfl

theorem toNat_precision :
    precision.toUInt32.toUInt64.toNat = precision.toNat := by
  rw [UInt32.toNat_toUInt64, UInt8.toNat_toUInt32]

/-- Every register index is in range. -/
theorem registerIndex_lt
    (hpos : 4 ≤ precision.toNat)
    (hle : precision.toNat ≤ 18)
    (h : UInt64) :
    registerIndex precision h < 2 ^ precision.toNat := by
  exact
    toNat_shiftRight_lt h (by omega) (by omega) (toNat_shift hle)

/-- A rank is positive and at most `64 - p + 1`. -/
theorem registerRank_bounds
    (hpos : 4 ≤ precision.toNat)
    (hle : precision.toNat ≤ 18)
    (h : UInt64) :
    0 < (registerRank precision h).toNat ∧
      (registerRank precision h).toNat ≤ 64 - precision.toNat + 1 := by
  have hrho :
      ∀ rho : UInt32,
        0 < rho.toNat → rho.toNat ≤ 64 - precision.toNat + 1 →
          (min rho 255).toUInt8.toNat = rho.toNat := by
    intro rho _ hbound
    have hmin : min rho 255 = rho := by
      have hle255 : rho ≤ 255 := by
        rw [UInt32.le_iff_toNat_le]
        exact hbound.trans (by simp; omega)
      exact if_pos hle255
    rw [hmin, UInt32.toNat_toUInt8]
    exact Nat.mod_eq_of_lt (by omega)
  have hp : precision.toUInt32.toNat = precision.toNat :=
    UInt8.toNat_toUInt32 precision
  have hsub : (64 - precision.toUInt32).toNat =
      64 - precision.toNat := by
    have hshift := toNat_shift hle
    rwa [UInt32.toNat_toUInt64] at hshift
  unfold registerRank
  simp only
  split_ifs with hw
  · have hsentinel :
        (64 - precision.toUInt32 + 1).toNat =
          64 - precision.toNat + 1 := by
      rw [UInt32.toNat_add, hsub]
      exact Nat.mod_eq_of_lt (by simp; omega)
    rw [hrho _ (by omega) (by omega), hsentinel]
    omega
  · have hzeros :=
      leadingZeros_shiftLeft_lt h
        (by rw [toNat_precision]; omega) hw
    rw [toNat_precision] at hzeros
    have hrank :
        (leadingZeros (h <<< precision.toUInt32.toUInt64) + 1).toNat =
          (leadingZeros
            (h <<< precision.toUInt32.toUInt64)).toNat + 1 := by
      rw [UInt32.toNat_add, UInt32.toNat_one]
      exact Nat.mod_eq_of_lt (by omega)
    rw [hrho _ (by omega) (by omega), hrank]
    omega

/-- Registers after an addition: one is raised, the others are kept. -/
theorem getD_registers_add
    (hash : ItemHash)
    (s : HllSketch)
    (item : Bytes)
    {i : Nat}
    (hi : i < s.registers.length) :
    (s.add hash item).registers.getD i 0 =
      if registerIndex s.precision (hash item) = i then
        raise (s.registers.getD i 0)
          (registerRank s.precision (hash item))
      else
        s.registers.getD i 0 := by
  unfold add raise
  simp only
  by_cases hidx : registerIndex s.precision (hash item) = i
  · subst hidx
    rw [if_pos rfl]
    split_ifs
    · rw [List.getD_eq_getElem _ _ (by rwa [List.length_set]),
        List.getElem_set_self]
    · rfl
  · rw [if_neg hidx]
    split_ifs
    · rw [List.getD_eq_getElem _ _ (by rwa [List.length_set]),
        List.getElem_set_ne hidx, List.getD_eq_getElem _ _ hi]
    · rfl

@[simp] theorem precision_add
    (hash : ItemHash)
    (s : HllSketch)
    (item : Bytes) :
    (s.add hash item).precision = s.precision := by
  unfold add
  simp only
  split_ifs <;> rfl

/-- What a successful merge does. -/
theorem getD_registers_merge
    {s other r : HllSketch}
    (h : s.merge other = .ok r) :
    s.precision = other.precision ∧
      r.precision = s.precision ∧
      ∀ i < s.registers.length,
        r.registers.getD i 0 =
          raise (s.registers.getD i 0)
            (other.registers.getD i 0) := by
  unfold merge at h
  split_ifs at h with hprecision
  have heq : s.precision = other.precision :=
    not_not.mp hprecision
  have hlength : s.registers.length = other.registers.length := by
    rw [s.wellFormed.length_eq, other.wellFormed.length_eq, heq]
  cases h
  exact ⟨heq, rfl, fun i hi => getD_zipInto _ hlength 0 hi⟩

theorem getD_registers_tryNew
    {s : HllSketch}
    (h : tryNew precision = .ok s)
    (i : Nat) :
    s.precision = precision ∧ s.registers.getD i 0 = 0 := by
  unfold tryNew at h
  split_ifs at h
  cases h
  refine ⟨rfl, ?_⟩
  rw [List.getD_eq_getElem?_getD]
  exact List.getElem?_getD_replicate_default_eq _ _ _

theorem raise_eq_or
    (a b : UInt8) :
    raise a b = a ∨ raise a b = b := by
  unfold raise
  split_ifs
  · exact Or.inr rfl
  · exact Or.inl rfl

end Registers

section Histories

/-- `try_new`, `add` and `merge`, as a summary. -/
def summary
    (hash : ItemHash) :
    Summary UInt8 Bytes HllSketch Error where
  fresh := tryNew
  step s item := .ok (s.add hash item)
  merge := merge

/--
Registers stay within the largest rank, and a non-zero register was addressed
by one of the items.
-/
structure Tracks
    (hash : ItemHash)
    (items : List Bytes)
    (s : HllSketch) : Prop where
  le_rank :
    ∀ i < s.registers.length,
      (s.registers.getD i 0).toNat ≤ 64 - s.precision.toNat + 1
  addressed :
    ∀ i < s.registers.length, s.registers.getD i 0 ≠ 0 →
      ∃ item ∈ items, registerIndex s.precision (hash item) = i

theorem Tracks.add
    {hash : ItemHash}
    {items : List Bytes}
    {s : HllSketch}
    (hs : s.Tracks hash items)
    (item : Bytes) :
    (s.add hash item).Tracks hash (items ++ [item]) := by
  have hlength :
      (s.add hash item).registers.length = s.registers.length := by
    rw [(s.add hash item).wellFormed.length_eq,
      s.wellFormed.length_eq, precision_add]
  constructor
  · intro i hi
    rw [hlength] at hi
    rw [getD_registers_add hash s item hi, precision_add]
    split_ifs
    · rcases raise_eq_or (s.registers.getD i 0)
          (registerRank s.precision (hash item)) with h | h
      · rw [h]
        exact hs.le_rank i hi
      · rw [h]
        exact
          (registerRank_bounds s.wellFormed.le_precision
            s.wellFormed.precision_le _).2
    · exact hs.le_rank i hi
  · intro i hi hne
    rw [hlength] at hi
    rw [getD_registers_add hash s item hi] at hne
    rw [precision_add]
    split_ifs at hne with hidx
    · exact ⟨item, by simp, hidx⟩
    · obtain ⟨item', hmem, hitem'⟩ := hs.addressed i hi hne
      exact ⟨item', List.mem_append_left _ hmem, hitem'⟩

theorem Tracks.merge
    {hash : ItemHash}
    {items items' : List Bytes}
    {s other r : HllSketch}
    (hs : s.Tracks hash items)
    (hother : other.Tracks hash items')
    (h : s.merge other = .ok r) :
    r.Tracks hash (items ++ items') := by
  obtain ⟨hprecision, hr, hregister⟩ := getD_registers_merge h
  have hlength : r.registers.length = s.registers.length := by
    rw [r.wellFormed.length_eq, s.wellFormed.length_eq, hr]
  have hlength' : other.registers.length = s.registers.length := by
    rw [other.wellFormed.length_eq, s.wellFormed.length_eq,
      hprecision]
  constructor
  · intro i hi
    rw [hlength] at hi
    rw [hregister i hi, hr]
    rcases raise_eq_or (s.registers.getD i 0)
        (other.registers.getD i 0) with h | h
    · rw [h]
      exact hs.le_rank i hi
    · rw [h, hprecision]
      exact hother.le_rank i (hlength' ▸ hi)
  · intro i hi hne
    rw [hlength] at hi
    rw [hregister i hi] at hne
    rw [hr]
    rcases raise_eq_or (s.registers.getD i 0)
        (other.registers.getD i 0) with h | h
    · rw [h] at hne
      obtain ⟨item, hmem, hitem⟩ := hs.addressed i hi hne
      exact ⟨item, List.mem_append_left _ hmem, hitem⟩
    · rw [h] at hne
      obtain ⟨item, hmem, hitem⟩ :=
        hother.addressed i (hlength' ▸ hi) hne
      exact
        ⟨item, List.mem_append_right _ hmem, hprecision ▸ hitem⟩

/-- Adding a list of items to a tracked sketch. -/
theorem Tracks.foldl_add
    {hash : ItemHash}
    {items : List Bytes}
    {s : HllSketch}
    (hs : s.Tracks hash items)
    (added : List Bytes) :
    (added.foldl (fun s item => s.add hash item) s).Tracks hash
      (items ++ added) := by
  induction added generalizing items s with
  | nil =>
      simpa using hs
  | cons item added ih =>
      have hrest := ih (hs.add item)
      simpa using hrest

/-- Construction, addition and merge keep the invariant. -/
theorem tracks_invariant
    (hash : ItemHash) :
    (summary hash).Invariant
      (fun items s => s.Tracks hash items) where
  fresh := by
    intro p s h
    constructor
    · intro i _
      rw [(getD_registers_tryNew h i).2]
      exact Nat.zero_le _
    · intro i _ hne
      exact absurd (getD_registers_tryNew h i).2 hne
  step := by
    intro items s item t hs h
    cases h
    exact hs.add item
  merge := by
    intro items s items' t r hs ht h
    exact hs.merge ht h

/-- The non-zero registers are at most the distinct items. -/
theorem Tracks.nonzeroRegisters_le
    {hash : ItemHash}
    {items : List Bytes}
    {s : HllSketch}
    (hs : s.Tracks hash items) :
    s.nonzeroRegisters.toNat ≤ items.dedup.length := by
  unfold nonzeroRegisters
  apply (Nat.mod_le _ _).trans
  rw [countP_eq_card_filter _ _ 0,
    ← List.toFinset_card_of_nodup items.nodup_dedup]
  calc
    _ ≤ (items.dedup.toFinset.image
          (fun item => registerIndex s.precision (hash item))).card := by
      apply Finset.card_le_card
      intro i hi
      obtain ⟨hlt, hne⟩ := Finset.mem_filter.mp hi
      obtain ⟨item, hmem, hitem⟩ :=
        hs.addressed i (Finset.mem_range.mp hlt) (by simpa using hne)
      exact
        Finset.mem_image.mpr
          ⟨item, by simpa using hmem, hitem⟩
    _ ≤ items.dedup.toFinset.card := Finset.card_image_le

end Histories

end HllSketch

/-- Degree of the column behind a HyperLogLog sketch. -/
def AttributeDegree.fromHllFloor
    (rows : UInt64)
    (sketch : HllSketch) : AttributeDegree :=
  fromDistinct rows sketch.nonzeroRegisters

namespace HllSketch

/--
Every item added is a non-null key of the column in its byte form, or a
sentinel that stands for the NULL rows the column has.
-/
def AddsOnly
    {κ : Type*}
    (encode : κ → Bytes)
    (keys : List (Option κ))
    (items : List Bytes) : Prop :=
  (∀ item ∈ items, ∃ k ∈ nonNulls keys, encode k = item) ∨
    (none ∈ keys ∧
      ∃ sentinel, ∀ item ∈ items,
        item = sentinel ∨ ∃ k ∈ nonNulls keys, encode k = item)

/-- Items taken from the keys are no more than the distinct keys. -/
theorem length_dedup_le
    {κ : Type*} [DecidableEq κ]
    {encode : κ → Bytes}
    {keys : List (Option κ)}
    {items : List Bytes}
    (h : ∀ item ∈ items, ∃ k ∈ nonNulls keys, encode k = item) :
    items.dedup.length ≤ distinct keys := by
  have hsub :
      items.dedup.toFinset ⊆
        (nonNulls keys).dedup.toFinset.image encode := by
    intro item hitem
    obtain ⟨k, hk, hitem⟩ := h item (by simpa using hitem)
    exact Finset.mem_image.mpr ⟨k, by simpa using hk, hitem⟩
  unfold distinct
  rw [← List.toFinset_card_of_nodup items.nodup_dedup,
    ← List.toFinset_card_of_nodup (nonNulls keys).nodup_dedup]
  exact (Finset.card_le_card hsub).trans Finset.card_image_le

/-- One sentinel adds one distinct item at most. -/
theorem length_dedup_le_succ
    {κ : Type*} [DecidableEq κ]
    {encode : κ → Bytes}
    {keys : List (Option κ)}
    {items : List Bytes}
    {sentinel : Bytes}
    (h :
      ∀ item ∈ items,
        item = sentinel ∨ ∃ k ∈ nonNulls keys, encode k = item) :
    items.dedup.length ≤ distinct keys + 1 := by
  have hrest :
      ((items.filter (fun item => item ≠ sentinel)).dedup).length ≤
        distinct keys := by
    apply @length_dedup_le κ _ encode
    intro item hitem
    obtain ⟨hmem, hne⟩ := List.mem_filter.mp hitem
    exact (h item hmem).resolve_left (by simpa using hne)
  have hsub :
      items.dedup.toFinset ⊆
        insert sentinel
          (items.filter (fun item => item ≠ sentinel)).dedup.toFinset := by
    intro item hitem
    have hitem : item ∈ items := by simpa using hitem
    by_cases hs : item = sentinel
    · exact Finset.mem_insert.mpr (Or.inl hs)
    · simp [hs, hitem]
  rw [← List.toFinset_card_of_nodup items.nodup_dedup]
  rw [← List.toFinset_card_of_nodup (List.nodup_dedup _)] at hrest
  exact
    (Finset.card_le_card hsub).trans
      ((Finset.card_insert_le _ _).trans
        (Nat.add_le_add_right hrest 1))

end HllSketch

/-- The smallest HyperLogLog sketch, without items. -/
def emptyHll : HllSketch where
  precision := 4
  registers := List.replicate 16 0
  wellFormed := ⟨by decide, by decide, rfl⟩

open HllSketch in
/--
A sketch of the keys of a column of at most `rows` rows gives a sound degree,
whether or not the NULL rows were added as one sentinel.
-/
theorem AttributeDegree.maxShare_le_fromHllFloor
    {κ : Type*} [DecidableEq κ]
    {hash : ItemHash}
    {items : List Bytes}
    {s : HllSketch}
    (hs : s.Tracks hash items)
    {rows : UInt64}
    {encode : κ → Bytes}
    {keys : List (Option κ)}
    (hrows : keys.length ≤ rows.toNat)
    (hitems : AddsOnly encode keys items) :
    maxShare keys ≤ (fromHllFloor rows s).maxDegree.toNat := by
  have hfloor := hs.nonzeroRegisters_le
  apply le_fromDistinct ((maxShare_le_length keys).trans hrows)
  rcases hitems with hitems | ⟨hnull, sentinel, hitems⟩
  · apply maxShare_le_of_distinct_floor
    · exact (length_nonNulls_le keys).trans hrows
    · exact hfloor.trans (length_dedup_le hitems)
  · -- the sentinel costs one distinct item and leaves out one row
    have hlt := length_nonNulls_lt hnull
    have hle := length_dedup_le_succ hitems
    apply (maxShare_le_iff keys _).mpr
    intro k
    have hshare := share_add_distinct_le keys k
    omega

end Samkhya
