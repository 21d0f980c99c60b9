import Mathlib.Tactic

/-!
# Splitting a 64-bit hash

A summary that reads a hash as `p` leading bits and the bits behind them
shifts right by `64 - p` for the first part and left by `p` for the second.
The first part addresses `2 ^ p` cells; the second, unless it is zero, has
fewer than `64 - p` leading zeros.
-/

namespace Samkhya
namespace HashBits

/-- `u64::leading_zeros`. -/
def leadingZeros (w : UInt64) : UInt32 :=
  UInt32.ofNat w.toBitVec.clz.toNat

/-- The leading bits address one of `2 ^ p` cells. -/
theorem toNat_shiftRight_lt
    (h : UInt64)
    {p : Nat}
    (hpos : 0 < p)
    (hp : p ≤ 64)
    {shift : UInt64}
    (hshift : shift.toNat = 64 - p) :
    (h >>> shift).toNat < 2 ^ p := by
  rw [UInt64.toNat_shiftRight, hshift, Nat.mod_eq_of_lt (by omega),
    Nat.shiftRight_eq_div_pow]
  apply Nat.div_lt_of_lt_mul
  rw [← pow_add, Nat.sub_add_cancel hp]
  exact h.toNat_lt

/-- Shifting left by `p` leaves a multiple of `2 ^ p`. -/
theorem two_pow_dvd_toNat_shiftLeft
    (h : UInt64)
    {shift : UInt64}
    (hshift : shift.toNat < 64) :
    2 ^ shift.toNat ∣ (h <<< shift).toNat := by
  rw [UInt64.toNat_shiftLeft, Nat.mod_eq_of_lt hshift,
    Nat.shiftLeft_eq]
  apply (Nat.dvd_mod_iff (pow_dvd_pow 2 hshift.le)).mpr
  exact Nat.dvd_mul_left _ _

/-- The bits behind the leading `p` start within `64 - p` places. -/
theorem leadingZeros_shiftLeft_lt
    (h : UInt64)
    {shift : UInt64}
    (hshift : shift.toNat < 64)
    (hne : h <<< shift ≠ 0) :
    (leadingZeros (h <<< shift)).toNat < 64 - shift.toNat := by
  have hpos : 0 < (h <<< shift).toNat :=
    UInt64.lt_iff_toNat_lt.mp (UInt64.pos_iff_ne_zero.mpr hne)
  have hle :
      2 ^ shift.toNat ≤ (h <<< shift).toNat :=
    Nat.le_of_dvd hpos (two_pow_dvd_toNat_shiftLeft h hshift)
  have hclz :
      (h <<< shift).toNat <
        2 ^ (64 - (h <<< shift).toBitVec.clz.toNat) :=
    BitVec.toNat_lt_two_pow_sub_clz
  have hexp :
      shift.toNat < 64 - (h <<< shift).toBitVec.clz.toNat :=
    (Nat.pow_lt_pow_iff_right (by decide)).mp (hle.trans_lt hclz)
  have hsmall :
      (h <<< shift).toBitVec.clz.toNat < 2 ^ 32 := by
    omega
  unfold leadingZeros
  rw [UInt32.toNat_ofNat_of_lt' hsmall]
  omega

end HashBits
end Samkhya
