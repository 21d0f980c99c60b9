import Mathlib.Tactic

/-!
# Which bit patterns have one value

An interchange format has a sign bit, an exponent field and a fraction field.
The value of a pattern is an integer multiple of the least positive one.
Patterns of one value are equal, but for the two zeros.
-/

namespace Samkhya

/-- Widths of the two fields below the sign bit. -/
structure FloatFormat where
  fractionBits : Nat
  exponentBits : Nat
deriving DecidableEq

namespace FloatFormat

variable (format : FloatFormat)

/-- The pattern of the negative zero. -/
def signBit : Nat :=
  2 ^ format.fractionBits * 2 ^ format.exponentBits

def fraction (bits : Nat) : Nat :=
  bits % 2 ^ format.fractionBits

def exponent (bits : Nat) : Nat :=
  bits / 2 ^ format.fractionBits % 2 ^ format.exponentBits

def isNegative (bits : Nat) : Bool :=
  format.signBit ≤ bits

def isNaN (bits : Nat) : Bool :=
  format.exponent bits = 2 ^ format.exponentBits - 1 ∧
    format.fraction bits ≠ 0

/-- Magnitude in units of the least positive value. -/
def magnitude (bits : Nat) : Nat :=
  if format.exponent bits = 0 then
    format.fraction bits
  else
    (2 ^ format.fractionBits + format.fraction bits) *
      2 ^ (format.exponent bits - 1)

/-- Value in units of the least positive value. -/
def scaled (bits : Nat) : Int :=
  if format.isNegative bits then
    -format.magnitude bits
  else
    format.magnitude bits

/-- `==`: equal values, and neither is a NaN. -/
def partialEq (a b : Nat) : Bool :=
  !format.isNaN a && !format.isNaN b && format.scaled a = format.scaled b

variable {format} {a b : Nat}

theorem fraction_lt
    (bits : Nat) :
    format.fraction bits < 2 ^ format.fractionBits :=
  Nat.mod_lt _ (Nat.two_pow_pos _)

/-- A pattern below the sign bit is its two fields. -/
theorem mod_signBit
    (bits : Nat) :
    bits % format.signBit =
      format.fraction bits +
        2 ^ format.fractionBits * format.exponent bits :=
  Nat.mod_mul

theorem magnitude_lt
    (bits : Nat) :
    format.magnitude bits <
      2 ^ (format.fractionBits + format.exponent bits) := by
  have hfraction :
      format.fraction bits < 2 ^ format.fractionBits :=
    fraction_lt bits
  rw [magnitude]
  split_ifs with hzero
  · rw [hzero, Nat.add_zero]
    exact hfraction
  · have hexponent :
        2 ^ (format.fractionBits + format.exponent bits) =
          (2 ^ format.fractionBits * 2) *
            2 ^ (format.exponent bits - 1) := by
      rw [Nat.mul_assoc, ← Nat.pow_succ', ← Nat.pow_add]
      congr 1
      omega
    rw [hexponent]
    exact
      Nat.mul_lt_mul_of_pos_right (by omega) (Nat.two_pow_pos _)

theorem le_magnitude
    {bits : Nat}
    (hpos : 0 < format.exponent bits) :
    2 ^ (format.fractionBits + (format.exponent bits - 1)) ≤
      format.magnitude bits := by
  rw [magnitude, if_neg hpos.ne', Nat.pow_add]
  exact Nat.mul_le_mul_right _ (Nat.le_add_right _ _)

/-- A smaller exponent is a smaller magnitude. -/
theorem magnitude_lt_of_exponent_lt
    (h : format.exponent a < format.exponent b) :
    format.magnitude a < format.magnitude b := by
  calc
    format.magnitude a <
        2 ^ (format.fractionBits + format.exponent a) :=
      magnitude_lt a
    _ ≤ 2 ^ (format.fractionBits + (format.exponent b - 1)) :=
      Nat.pow_le_pow_right (by decide) (by omega)
    _ ≤ format.magnitude b := le_magnitude (Nat.zero_lt_of_lt h)

/-- The magnitude determines both fields. -/
theorem fields_eq_of_magnitude_eq
    (h : format.magnitude a = format.magnitude b) :
    format.exponent a = format.exponent b ∧
      format.fraction a = format.fraction b := by
  have hexponent : format.exponent a = format.exponent b := by
    rcases Nat.lt_trichotomy (format.exponent a) (format.exponent b)
      with hlt | heq | hlt
    · exact absurd h (magnitude_lt_of_exponent_lt hlt).ne
    · exact heq
    · exact absurd h (magnitude_lt_of_exponent_lt hlt).ne'
  refine ⟨hexponent, ?_⟩
  rw [magnitude, magnitude, hexponent] at h
  split_ifs at h
  · exact h
  · have hsum := Nat.eq_of_mul_eq_mul_right (Nat.two_pow_pos _) h
    omega

/-- The sign bit and what is below it make up a pattern. -/
theorem eq_mod_signBit_add
    (ha : a < 2 * format.signBit) :
    a =
      a % format.signBit +
        if format.isNegative a then format.signBit else 0 := by
  cases hsign : format.isNegative a
  · have hlt : a < format.signBit := by
      simpa [isNegative] using hsign
    simp [Nat.mod_eq_of_lt hlt]
  · have hle : format.signBit ≤ a := by
      simpa [isNegative] using hsign
    have hmod : a % format.signBit = a - format.signBit := by
      rw [Nat.mod_eq_sub_mod hle, Nat.mod_eq_of_lt (by omega)]
    simp only [if_true]
    omega

/-- Only the two zeros have no magnitude. -/
theorem eq_zero_or_signBit
    (ha : a < 2 * format.signBit)
    (hzero : format.magnitude a = 0) :
    a = 0 ∨ a = format.signBit := by
  have hsame : format.magnitude a = format.magnitude 0 := by
    rw [hzero]
    simp [magnitude, exponent, fraction]
  have hfields := fields_eq_of_magnitude_eq hsame
  have hmod : a % format.signBit = 0 := by
    rw [mod_signBit, hfields.1, hfields.2]
    simp [exponent, fraction]
  have hsplit := eq_mod_signBit_add ha
  rw [hmod, Nat.zero_add] at hsplit
  rw [hsplit]
  split_ifs
  · exact Or.inr rfl
  · exact Or.inl rfl

/-- Patterns of one value are equal, or are the two zeros. -/
theorem eq_or_zeros_of_scaled_eq
    (ha : a < 2 * format.signBit)
    (hb : b < 2 * format.signBit)
    (h : format.scaled a = format.scaled b) :
    a = b ∨
      (a = 0 ∧ b = format.signBit) ∨ (a = format.signBit ∧ b = 0) := by
  have hmagnitude : format.magnitude a = format.magnitude b := by
    unfold scaled at h
    split_ifs at h <;> omega
  by_cases hzero : format.magnitude a = 0
  · have hzero_b := hmagnitude.symm.trans hzero
    rcases eq_zero_or_signBit ha hzero with ha | ha <;>
      rcases eq_zero_or_signBit hb hzero_b with hb | hb <;>
      simp [ha, hb]
  · left
    have hfields := fields_eq_of_magnitude_eq hmagnitude
    have hsign : format.isNegative a = format.isNegative b := by
      unfold scaled at h
      cases hsa : format.isNegative a <;>
        cases hsb : format.isNegative b <;>
        simp [hsa, hsb] at h ⊢ <;> omega
    rw [eq_mod_signBit_add ha, eq_mod_signBit_add hb, mod_signBit,
      mod_signBit, hfields.1, hfields.2, hsign]

/-- The two zeros have one value. -/
theorem scaled_signBit :
    format.scaled format.signBit = format.scaled 0 := by
  have hpos : 0 < 2 ^ format.fractionBits := Nat.two_pow_pos _
  have hfraction : format.fraction format.signBit = 0 :=
    Nat.mul_mod_right _ _
  have hexponent : format.exponent format.signBit = 0 := by
    rw [exponent, signBit, Nat.mul_div_cancel_left _ hpos, Nat.mod_self]
  simp [scaled, magnitude, hfraction, hexponent]
  simp [fraction, exponent]

/-- A zero is a number. -/
theorem isNaN_of_fraction_eq_zero
    (h : format.fraction a = 0) :
    format.isNaN a = false := by
  simp [isNaN, h]

/-- A pattern is equal to itself unless it is a NaN. -/
theorem partialEq_self :
    format.partialEq a a = true ↔ format.isNaN a = false := by
  simp [partialEq]

/-- A number is equal to itself, and a zero to the other zero. -/
theorem partialEq_iff
    (ha : a < 2 * format.signBit)
    (hb : b < 2 * format.signBit) :
    format.partialEq a b = true ↔
      format.partialEq a a = true ∧
        (a = b ∨
          (a = 0 ∧ b = format.signBit) ∨
          (a = format.signBit ∧ b = 0)) := by
  have hzero : format.isNaN 0 = false :=
    isNaN_of_fraction_eq_zero (Nat.zero_mod _)
  have hsign : format.isNaN format.signBit = false :=
    isNaN_of_fraction_eq_zero (Nat.mul_mod_right _ _)
  rw [partialEq_self]
  simp only [partialEq, Bool.and_eq_true, Bool.not_eq_true',
    decide_eq_true_eq]
  constructor
  · rintro ⟨⟨hnan, _⟩, hscaled⟩
    exact ⟨hnan, eq_or_zeros_of_scaled_eq ha hb hscaled⟩
  · rintro ⟨hnan, rfl | ⟨rfl, rfl⟩ | ⟨rfl, rfl⟩⟩
    · exact ⟨⟨hnan, hnan⟩, rfl⟩
    · exact ⟨⟨hzero, hsign⟩, scaled_signBit.symm⟩
    · exact ⟨⟨hsign, hzero⟩, scaled_signBit⟩

end FloatFormat

end Samkhya
