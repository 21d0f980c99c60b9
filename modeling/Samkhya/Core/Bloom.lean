import Mathlib
import Samkhya.Core.Sketch
import Samkhya.Foundations.Binary64
import Samkhya.Foundations.Saturating

/-!
# Bloom filters

A filter is a bit array with a number of hash functions.  Its size is computed
in floating point, which the model takes as a parameter; what the code then
checks, the cap on the bits and the truncating conversions, is modelled on the
bits of the doubles.  Whatever the arithmetic yields, a filter that is built has
at least one hash and a bit array of the right length.
-/

namespace Samkhya

open FieldCodec Binary64 Saturating

/-- Cap on the filter size in bits. -/
def maxNumBits : UInt64 :=
  (1 : UInt64) <<< 33

/-- The fields of a filter, as the serializer reads them. -/
structure BloomFields where
  bits : List UInt8
  numHashes : UInt32
  numBits : UInt64
deriving DecidableEq

/-- The fields in the order in which they are written. -/
def BloomFields.codec : Codec BloomFields :=
  (Codec.u8.vec.pair (Codec.u32.pair Codec.u64)).iso
    (fun s => (s.bits, s.numHashes, s.numBits))
    (fun p => ⟨p.1, p.2.1, p.2.2⟩)
    (fun _ => rfl)

/-- `u64::div_ceil` by eight. -/
def bytesFor (numBits : UInt64) : Nat :=
  (numBits.toNat + 7) / 8

/-- There are bits and hashes, and the bytes hold exactly the bits. -/
structure BloomFields.WellFormed (s : BloomFields) : Prop where
  numBits_ne : s.numBits ≠ 0
  numHashes_ne : s.numHashes ≠ 0
  numBits_le : s.numBits ≤ maxNumBits
  length_eq : s.bits.length = bytesFor s.numBits

/-- Bloom filter with its bit array. -/
structure BloomFilter extends BloomFields where
  wellFormed : toBloomFields.WellFormed
deriving DecidableEq

/-- The floating-point functions of the sizing formula, and `Display`. -/
structure SizingMath where
  ofU64 : UInt64 → F64
  neg : F64 → F64
  mul : F64 → F64 → F64
  div : F64 → F64 → F64
  ln : F64 → F64
  ceil : F64 → F64
  display : F64 → String

/-- The two hashes of an item, from which all bit indices are made. -/
abbrev DoubleHash := Bytes → UInt64 × UInt64

namespace BloomFilter

/-- `std::f64::consts::LN_2`. -/
def ln2 : F64 where
  bits := 0x3fe62e42fefa39ef

/-- The smallest rate that `new` asks for, `1e-12`. -/
def leastRate : F64 where
  bits := 0x3d719799812dea11

def half : F64 where
  bits := 0x3fe0000000000000

/-- The number of bits before it is cut off below. -/
def sizing
    (math : SizingMath)
    (capacity : UInt64)
    (fpRate : F64) : F64 :=
  math.ceil
    (math.div
      (math.mul (math.neg (math.ofU64 capacity)) (math.ln fpRate))
      (math.mul ln2 ln2))

/-- The number of hashes for so many bits. -/
def hashesFor
    (math : SizingMath)
    (capacity : UInt64)
    (numBits : UInt64) : UInt32 :=
  ((math.ceil
      (math.mul
        (math.div (math.ofU64 numBits) (math.ofU64 capacity))
        ln2)).max F64.one).toU32

theorem max_sixtyFour_ne
    (n : UInt64) :
    Max.max n 64 ≠ 0 := by
  have hle : (64 : UInt64) ≤ Max.max n 64 := Std.right_le_max
  intro hzero
  rw [hzero] at hle
  exact absurd hle (by decide)

/-- Fallible constructor; the size is checked before allocating. -/
def tryNew
    (math : SizingMath)
    (capacity : UInt64)
    (fpRate : F64) : Except Error BloomFilter :=
  if capacity = 0 then
    .error (.invalidSketch "Bloom capacity must be > 0")
  else if
      !fpRate.isFinite || fpRate.le F64.zero || F64.one.le fpRate then
    .error
      (.invalidSketch
        ("Bloom fp_rate must be a finite value in (0, 1), got " ++
          math.display fpRate))
  else
    let numBitsF := sizing math capacity fpRate
    if !numBitsF.isFinite || numBitsF.lt F64.zero then
      .error
        (.invalidSketch
          ("Bloom sizing produced a non-finite num_bits (" ++
            math.display numBitsF ++ ") for capacity=" ++
            toString capacity ++ ", fp_rate=" ++
            math.display fpRate))
    else
      let numBits := Max.max numBitsF.toU64 64
      if hcap : maxNumBits < numBits then
        .error
          (.invalidSketch
            ("Bloom sizing " ++ toString numBits ++
              " bits exceeds cap " ++ toString maxNumBits ++
              " (fp_rate=" ++ math.display fpRate ++
              " too aggressive for capacity=" ++
              toString capacity ++ ")"))
      else
        .ok
          { bits := List.replicate (bytesFor numBits) 0
            numHashes := hashesFor math capacity numBits
            numBits := numBits
            wellFormed :=
              { numBits_ne := max_sixtyFour_ne _
                numHashes_ne := F64.toU32_max_one_ne _
                numBits_le := UInt64.not_lt.mp hcap
                length_eq := List.length_replicate } }

/-- The filter that `new` falls back to: 64 bits and one hash. -/
def fallback : BloomFilter where
  bits := List.replicate 8 0
  numHashes := 1
  numBits := 64
  wellFormed :=
    { numBits_ne := by decide
      numHashes_ne := by decide
      numBits_le := by decide
      length_eq := by decide }

/-- Infallible constructor; arguments out of range are clamped. -/
def new
    (math : SizingMath)
    (capacity : UInt64)
    (fpRate : F64) : BloomFilter :=
  let capacity := Max.max capacity 1
  let fp :=
    if !fpRate.isFinite || fpRate.le F64.zero then leastRate
    else if F64.one.le fpRate then half
    else fpRate
  match tryNew math capacity fp with
  | .ok s => s
  | .error _ => fallback

/-- Structural validation of a deserialised payload. -/
def validate (s : BloomFields) : Except Error BloomFilter :=
  if hbits : s.numBits = 0 then
    .error (.invalidSketch "Bloom num_bits must be > 0")
  else if hhashes : s.numHashes = 0 then
    .error (.invalidSketch "Bloom num_hashes must be > 0")
  else if hcap : maxNumBits < s.numBits then
    .error
      (.invalidSketch
        ("Bloom num_bits " ++ toString s.numBits ++
          " exceeds cap " ++ toString maxNumBits))
  else if hlength : s.bits.length ≠ bytesFor s.numBits then
    .error
      (.invalidSketch
        ("Bloom bits length " ++ toString s.bits.length ++
          " != ceil(num_bits/8) = " ++
          toString (bytesFor s.numBits)))
  else
    .ok
      { s with
        wellFormed :=
          { numBits_ne := hbits
            numHashes_ne := hhashes
            numBits_le := UInt64.not_lt.mp hcap
            length_eq := not_not.mp hlength } }

/-- The bit that the `i`-th hash of an item addresses. -/
def bitIndex (h1 h2 : UInt64) (i : UInt32) (m : UInt64) : UInt64 :=
  (h1 + i.toUInt64 * h2) % m

/-- The mask of a bit in its byte. -/
def bitMask (idx : UInt64) : UInt8 :=
  1 <<< (idx % 8).toUInt8

/-- The bits an item addresses, one for every hash. -/
def bitIndices
    (hash : DoubleHash)
    (s : BloomFilter)
    (item : Bytes) : List UInt64 :=
  let (h1, h2) := hash item
  (List.range s.numHashes.toNat).map
    (fun i => bitIndex h1 h2 (UInt32.ofNat i) s.numBits)

def setBit (bits : List UInt8) (idx : UInt64) : List UInt8 :=
  bits.modify (idx / 8).toNat (fun byte => byte ||| bitMask idx)

@[simp] theorem length_foldl_setBit
    (indices : List UInt64)
    (bits : List UInt8) :
    (indices.foldl setBit bits).length = bits.length := by
  induction indices generalizing bits with
  | nil =>
      rfl
  | cons idx indices ih =>
      rw [List.foldl_cons, ih, setBit, List.length_modify]

/-- Set every bit that an item addresses. -/
def insert
    (hash : DoubleHash)
    (s : BloomFilter)
    (item : Bytes) : BloomFilter :=
  { s with
    bits := (s.bitIndices hash item).foldl setBit s.bits
    wellFormed :=
      { s.wellFormed with
        length_eq := by
          rw [length_foldl_setBit]
          exact s.wellFormed.length_eq } }

/-- Whether every bit that an item addresses is set. -/
def contains
    (hash : DoubleHash)
    (s : BloomFilter)
    (item : Bytes) : Bool :=
  (s.bitIndices hash item).all
    (fun idx =>
      s.bits.getD (idx / 8).toNat 0 &&& bitMask idx ≠ 0)

def toBytes
    (bincode : Bincode BloomFields)
    (s : BloomFilter) : Except Error Bytes :=
  (bincode.serialize s.toBloomFields).mapError Error.serde

def fromBytes
    (bincode : Bincode BloomFields)
    (bytes : Bytes) : Except Error BloomFilter := do
  let s ← (bincode.deserialize bytes).mapError Error.serde
  validate s

theorem validate_toBloomFields
    (s : BloomFilter) :
    validate s.toBloomFields = .ok s := by
  unfold validate
  rw [dif_neg s.wellFormed.numBits_ne,
    dif_neg s.wellFormed.numHashes_ne,
    dif_neg (UInt64.not_lt.mpr s.wellFormed.numBits_le),
    dif_neg (not_not.mpr s.wellFormed.length_eq)]

/-- Every filter is read back as it was written. -/
theorem hop_self
    (s : BloomFilter) :
    (s.toBytes (.ofCodec BloomFields.codec) >>=
        fromBytes (.ofCodec BloomFields.codec)) =
      .ok s := by
  have hlength : s.bits.length < 256 ^ 8 := by
    have hbits : s.numBits.toNat < 2 ^ 64 := s.numBits.toNat_lt
    rw [s.wellFormed.length_eq, bytesFor]
    omega
  have hfits : BloomFields.codec.Fits s.toBloomFields :=
    ⟨⟨hlength, fun _ _ => trivial⟩, trivial, trivial⟩
  exact
    (Bincode.hop_eq hfits validate).trans (validate_toBloomFields s)

end BloomFilter

end Samkhya
