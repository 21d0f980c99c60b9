import Samkhya.Foundations.CellArray

/-!
# Bits packed into bytes

Bit `j` of a byte array is bit `j % 8` of byte `j / 8`.  Setting a bit with a
mask changes that bit alone, and an array is determined by its bits; setting
several bits therefore depends on the set of positions only.
-/

namespace Samkhya
namespace BitArray

open CellArray

/-- The bit at a position. -/
def getBit (bytes : List UInt8) (j : Nat) : Bool :=
  (bytes.getD (j / 8) 0).toNat.testBit (j % 8)

/-- The byte in which only bit `k` is set. -/
def mask (k : Nat) : UInt8 :=
  1 <<< UInt8.ofNat k

theorem toNat_mask
    {k : Nat}
    (hk : k < 8) :
    (mask k).toNat = 2 ^ k := by
  have hpow : 2 ^ k < 2 ^ 8 := Nat.pow_lt_pow_right (by decide) hk
  rw [mask, UInt8.toNat_shiftLeft, UInt8.toNat_ofNat_of_lt' (by
    change k < 256
    omega), Nat.mod_eq_of_lt hk, UInt8.toNat_one, Nat.one_shiftLeft]
  exact Nat.mod_eq_of_lt hpow

/-- A power of two picks out its bit. -/
theorem and_two_pow_eq_zero_iff
    (n k : Nat) :
    n &&& 2 ^ k = 0 ↔ n.testBit k = false := by
  constructor
  · intro h
    have hbit := congrArg (fun m => m.testBit k) h
    simpa [Nat.testBit_and, Nat.testBit_two_pow_self] using hbit
  · intro h
    apply Nat.eq_of_testBit_eq
    intro i
    rw [Nat.testBit_and, Nat.testBit_two_pow, Nat.zero_testBit]
    by_cases hi : k = i
    · simp [← hi, h]
    · simp [hi]

/-- A mask picks out its bit. -/
theorem and_mask_ne_zero_iff
    (byte : UInt8)
    {k : Nat}
    (hk : k < 8) :
    byte &&& mask k ≠ 0 ↔ byte.toNat.testBit k = true := by
  rw [ne_eq, ← UInt8.toNat_inj, UInt8.toNat_and, toNat_mask hk,
    UInt8.toNat_zero, and_two_pow_eq_zero_iff, Bool.not_eq_false]

/-- Set the bit at a position. -/
def setBit (bytes : List UInt8) (j : Nat) : List UInt8 :=
  bytes.modify (j / 8) (fun byte => byte ||| mask (j % 8))

@[simp] theorem length_setBit
    (bytes : List UInt8)
    (j : Nat) :
    (setBit bytes j).length = bytes.length := by
  simp [setBit]

/-- Setting a bit sets that bit alone. -/
theorem getBit_setBit
    (bytes : List UInt8)
    (i : Nat)
    {j : Nat}
    (hj : j / 8 < bytes.length) :
    getBit (setBit bytes i) j = (getBit bytes j || decide (i = j)) := by
  have hk : i % 8 < 8 := Nat.mod_lt i (by decide)
  unfold getBit setBit
  rw [getD_modify _ _ _ _ _ hj]
  by_cases hbyte : i / 8 = j / 8
  · rw [if_pos hbyte, UInt8.toNat_or, Nat.testBit_or, toNat_mask hk,
      Nat.testBit_two_pow]
    have hiff : i % 8 = j % 8 ↔ i = j := by
      omega
    simp [hiff]
  · have hne : i ≠ j := by
      rintro rfl
      exact hbyte rfl
    simp [hbyte, hne]

@[simp] theorem length_foldl_setBit
    (bytes : List UInt8)
    (positions : List Nat) :
    (positions.foldl setBit bytes).length = bytes.length := by
  induction positions generalizing bytes with
  | nil =>
      rfl
  | cons i positions ih =>
      simp [ih]

/-- The bits after setting several: those set before and those positions. -/
theorem getBit_foldl_setBit
    (bytes : List UInt8)
    (positions : List Nat)
    {j : Nat}
    (hj : j / 8 < bytes.length) :
    getBit (positions.foldl setBit bytes) j = true ↔
      getBit bytes j = true ∨ j ∈ positions := by
  induction positions generalizing bytes with
  | nil =>
      simp
  | cons i positions ih =>
      rw [List.foldl_cons, ih _ (by rwa [length_setBit]),
        getBit_setBit bytes i hj]
      simp only [Bool.or_eq_true, decide_eq_true_eq, List.mem_cons,
        @eq_comm _ i j, or_assoc]

/-- Arrays of one length with the same bits are equal. -/
theorem ext_getBit
    {bytes bytes' : List UInt8}
    (hlength : bytes.length = bytes'.length)
    (h : ∀ j, j / 8 < bytes.length → getBit bytes j = getBit bytes' j) :
    bytes = bytes' := by
  apply List.ext_getElem hlength
  intro i hi hi'
  apply UInt8.toNat_inj.mp
  apply Nat.eq_of_testBit_eq
  intro k
  by_cases hk : k < 8
  · have hdiv : (8 * i + k) / 8 = i := by
      omega
    have hmod : (8 * i + k) % 8 = k := by
      omega
    have hbit := h (8 * i + k) (by rwa [hdiv])
    simp only [getBit, hdiv, hmod] at hbit
    rwa [List.getD_eq_getElem _ _ hi, List.getD_eq_getElem _ _ hi']
      at hbit
  · have hpow : 2 ^ 8 ≤ 2 ^ k :=
      Nat.pow_le_pow_right (by decide) (Nat.le_of_not_lt hk)
    have hlow : ∀ byte : UInt8, byte.toNat.testBit k = false :=
      fun byte => Nat.testBit_lt_two_pow (byte.toNat_lt.trans_le hpow)
    rw [hlow, hlow]

end BitArray
end Samkhya
