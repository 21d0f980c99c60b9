import Mathlib
import Samkhya.Foundations.Binary64

/-!
# Integers as doubles, rounded to nearest

A double keeps 53 bits of an integer.  `roundEven` drops the lower ones and
rounds to nearest, ties to the even significand; `F64.ofU64` is the double with
that value (`scaled_ofU64`).  Integers that lose no bits are left alone
(`roundEven_of_dvd`).
-/

namespace Samkhya
namespace Binary64

/-- Number of low bits that a double drops. -/
def dropped (n : Nat) : Nat :=
  n.log2 - 52

/-- Distance of the doubles around an integer. -/
def gap (n : Nat) : Nat :=
  2 ^ dropped n

/-- The significand, rounded to nearest, ties to even. -/
def significand (n : Nat) : Nat :=
  let q := n / gap n
  let r := n % gap n
  if gap n < 2 * r ∨ 2 * r = gap n ∧ q % 2 = 1 then q + 1 else q

/-- The nearest integer that is a double, ties to even. -/
def roundEven (n : Nat) : Nat :=
  significand n * gap n

/-- `as f64` on a `u64`. -/
def F64.ofU64 (n : UInt64) : F64 :=
  if n = 0 then
    F64.zero
  else
    let e := n.toNat.log2
    -- a carry out of the significand goes on into the exponent
    { bits :=
        UInt64.ofNat
          ((1022 + e) * 2 ^ 52 +
            significand n.toNat * 2 ^ (52 - e)) }

theorem gap_pos (n : Nat) : 0 < gap n :=
  Nat.two_pow_pos _

section Rounding

variable {n : Nat}

/-- When bits are dropped the significand has exactly 53 of them. -/
theorem div_gap_bounds
    (h : dropped n ≠ 0) :
    2 ^ 52 ≤ n / gap n ∧ n / gap n < 2 ^ 53 := by
  have hlog : n.log2 = 52 + dropped n := by
    unfold dropped at h ⊢
    omega
  have hne : n ≠ 0 := by
    rintro rfl
    exact h rfl
  have hlow : 2 ^ (52 + dropped n) ≤ n := by
    rw [← hlog]
    exact Nat.log2_self_le hne
  have hhigh : n < 2 ^ (53 + dropped n) := by
    have hlt := @Nat.lt_log2_self n
    rwa [hlog, show 52 + dropped n + 1 = 53 + dropped n by omega]
      at hlt
  rw [gap]
  constructor
  · rw [Nat.le_div_iff_mul_le (Nat.two_pow_pos _), ← pow_add]
    exact hlow
  · rw [Nat.div_lt_iff_lt_mul (Nat.two_pow_pos _), ← pow_add]
    exact hhigh

/-- The significand is the quotient, or one more. -/
theorem significand_cases :
    significand n = n / gap n ∨ significand n = n / gap n + 1 := by
  simp only [significand]
  split_ifs
  · exact Or.inr rfl
  · exact Or.inl rfl

/-- Integers that lose no bits are their own rounding. -/
theorem roundEven_of_dvd
    (h : gap n ∣ n) :
    roundEven n = n := by
  have hmod : n % gap n = 0 := Nat.mod_eq_zero_of_dvd h
  have hpos := gap_pos n
  have hsig : significand n = n / gap n := by
    simp only [significand, hmod, Nat.mul_zero]
    rw [if_neg]
    omega
  rw [roundEven, hsig]
  exact Nat.div_mul_cancel h

/-- Integers of at most 53 bits lose none. -/
theorem gap_dvd_of_le
    (h : n ≤ 2 ^ 53) :
    gap n ∣ n := by
  rcases h.eq_or_lt with rfl | hlt
  · decide +kernel
  · have hzero : dropped n = 0 := by
      by_cases hn : n = 0
      · subst hn
        rfl
      · have hlog := (Nat.log2_lt hn).mpr hlt
        unfold dropped
        omega
    rw [gap, hzero, pow_zero]
    exact one_dvd n

end Rounding

namespace F64

/-- The value behind an exponent and a significand, carry included. -/
theorem scaled_of_bits
    {x : F64}
    {k s : Nat}
    (hk : k < 2000)
    (hlow : 2 ^ 52 ≤ s)
    (hhigh : s ≤ 2 ^ 53)
    (hbits : x.bits.toNat = k * 2 ^ 52 + s) :
    x.isFinite = true ∧ x.scaled = ((s * units k : Nat) : Int) := by
  have hsign : x.isNegative = false := by
    simp only [isNegative, hbits, decide_eq_false_iff_not, not_le]
    omega
  have hvalue : x.exponentField ≠ 2047 ∧ x.magnitude = s * units k := by
    rcases hhigh.eq_or_lt with rfl | hlt
    · -- the significand carried: the next power of two
      have hexponent : x.exponentField = k + 2 := by
        rw [exponentField, hbits]
        omega
      have hfraction : x.fractionField = 0 := by
        rw [fractionField, hbits]
        omega
      refine ⟨by omega, ?_⟩
      have hcarry : units 52 * units 1 = 2 ^ 53 :=
        (units_add 52 1).symm
      rw [magnitude, hexponent, hfraction, if_neg (by omega),
        Nat.add_zero, show k + 2 - 1 = 1 + k by omega, units_add,
        ← Nat.mul_assoc, hcarry]
    · have hexponent : x.exponentField = k + 1 := by
        rw [exponentField, hbits]
        omega
      have hfraction : x.fractionField = s - 2 ^ 52 := by
        rw [fractionField, hbits]
        omega
      refine ⟨by omega, ?_⟩
      have hsum : units 52 + (s - 2 ^ 52) = s :=
        Nat.add_sub_cancel' hlow
      rw [magnitude, hexponent, hfraction, if_neg (by omega),
        Nat.add_sub_cancel, hsum]
  refine ⟨by simp [isFinite, hvalue.1], ?_⟩
  rw [scaled, hsign, if_neg (by decide), hvalue.2]

/-- The normalized significand has 53 bits, or is the carry. -/
theorem significand_bounds
    {n : Nat}
    (hn : n ≠ 0) :
    2 ^ 52 ≤ significand n * 2 ^ (52 - n.log2) ∧
      significand n * 2 ^ (52 - n.log2) ≤ 2 ^ 53 := by
  by_cases hdropped : dropped n = 0
  · have hle : n.log2 ≤ 52 := by
      unfold dropped at hdropped
      omega
    have hgap : gap n = 1 := by
      rw [gap, hdropped, pow_zero]
    have hsig : significand n = n := by
      simp [significand, hgap, Nat.mod_one]
    have hlow := Nat.log2_self_le hn
    have hhigh := @Nat.lt_log2_self n
    rw [hsig]
    constructor
    · calc
        2 ^ 52 = 2 ^ n.log2 * 2 ^ (52 - n.log2) := by
          rw [← pow_add, Nat.add_sub_cancel' hle]
        _ ≤ n * 2 ^ (52 - n.log2) := Nat.mul_le_mul_right _ hlow
    · calc
        n * 2 ^ (52 - n.log2) ≤
            2 ^ (n.log2 + 1) * 2 ^ (52 - n.log2) :=
          Nat.mul_le_mul_right _ hhigh.le
        _ = 2 ^ 53 := by
          rw [← pow_add]
          congr 1
          omega
  · obtain ⟨hlow, hhigh⟩ := div_gap_bounds hdropped
    have hzero : 52 - n.log2 = 0 := by
      unfold dropped at hdropped
      omega
    rw [hzero, pow_zero, Nat.mul_one]
    rcases @significand_cases n with h | h
    · omega
    · omega

/-- The conversion has the value of the rounded integer. -/
theorem scaled_ofU64
    (n : UInt64) :
    (ofU64 n).isFinite = true ∧
      (ofU64 n).scaled = ((roundEven n.toNat * unitsPerOne : Nat) : Int) := by
  unfold ofU64
  split_ifs with hzero
  · subst hzero
    exact ⟨by decide, by decide +kernel⟩
  · have hn : n.toNat ≠ 0 := by
      intro h
      exact hzero (UInt64.toNat_inj.mp h)
    have hlog : n.toNat.log2 < 64 := (Nat.log2_lt hn).mpr n.toNat_lt
    obtain ⟨hlow, hhigh⟩ := significand_bounds hn
    obtain ⟨hfinite, hscaled⟩ :=
      @scaled_of_bits
        { bits :=
            UInt64.ofNat
              ((1022 + n.toNat.log2) * 2 ^ 52 +
                significand n.toNat * 2 ^ (52 - n.toNat.log2)) }
        (1022 + n.toNat.log2)
        (significand n.toNat * 2 ^ (52 - n.toNat.log2))
        (by omega) hlow hhigh
        (UInt64.toNat_ofNat_of_lt' (by
          change _ < 2 ^ 64
          omega))
    have hexponent :
        52 - n.toNat.log2 + (1022 + n.toNat.log2) =
          dropped n.toNat + 1074 := by
      unfold dropped
      omega
    have hshift :
        units (52 - n.toNat.log2) = 2 ^ (52 - n.toNat.log2) :=
      rfl
    have hgap : units (dropped n.toNat) = gap n.toNat :=
      rfl
    have hvalue :
        significand n.toNat * 2 ^ (52 - n.toNat.log2) *
            units (1022 + n.toNat.log2) =
          roundEven n.toNat * unitsPerOne := by
      calc
        _ =
            significand n.toNat *
              units (52 - n.toNat.log2 + (1022 + n.toNat.log2)) := by
          rw [units_add (52 - n.toNat.log2), ← Nat.mul_assoc, hshift]
        _ = roundEven n.toNat * unitsPerOne := by
          rw [hexponent, units_add, ← Nat.mul_assoc, roundEven,
            unitsPerOne, hgap]
    exact ⟨hfinite, by rw [hscaled, hvalue]⟩

/-- The double is at least the integer. -/
def AtLeast (x : F64) (n : Nat) : Prop :=
  x.isNaN = false ∧ ((n * unitsPerOne : Nat) : Int) ≤ x.scaled

/-- The double is the integer. -/
def Represents (x : F64) (n : UInt64) : Prop :=
  x.isFinite = true ∧ x.scaled = ((n.toNat * unitsPerOne : Nat) : Int)

/-- Integers up to `2 ^ 53` are doubles. -/
theorem represents_ofU64
    {n : UInt64}
    (h : n.toNat ≤ 2 ^ 53) :
    (ofU64 n).Represents n := by
  have hvalue := scaled_ofU64 n
  rwa [roundEven_of_dvd (gap_dvd_of_le h)] at hvalue

/-- The conversion is at least what its rounded value is. -/
theorem atLeast_ofU64_iff
    (c : UInt64)
    (m : Nat) :
    (ofU64 c).AtLeast m ↔ m ≤ roundEven c.toNat := by
  obtain ⟨hfinite, hscaled⟩ := scaled_ofU64 c
  rw [AtLeast, isFinite_not_isNaN hfinite, hscaled]
  simp only [true_and, Nat.cast_le]
  exact Nat.mul_le_mul_right_iff unitsPerOne_pos

end F64

end Binary64
end Samkhya
