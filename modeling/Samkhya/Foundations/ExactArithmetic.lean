import Mathlib
import Samkhya.Foundations.Binary64

/-!
# Exact arithmetic on doubles

`Arithmetic.exact` computes in the extended reals, so that an infinity has a
value too.  As long as a program meets finite doubles only, it computes with
real numbers.  `F64.toReal` is the value of a finite double, and an infinity
keeps its place in the order.
-/

namespace Samkhya
namespace Binary64

namespace F64

/-- The value of a finite double. -/
noncomputable def toReal (x : F64) : ℝ :=
  x.scaled / unitsPerOne

section Order

variable {a b c : F64}

theorem toReal_le_toReal_iff :
    a.toReal ≤ b.toReal ↔ a.scaled ≤ b.scaled := by
  have hpos : (0 : ℝ) < unitsPerOne := by
    exact_mod_cast unitsPerOne_pos
  rw [toReal, toReal, div_le_div_iff_of_pos_right hpos]
  exact Int.cast_le

theorem le_iff_toReal
    (ha : a.isNaN = false)
    (hb : b.isNaN = false) :
    a.le b = true ↔ a.toReal ≤ b.toReal := by
  rw [le_iff ha hb, toReal_le_toReal_iff]

theorem lt_iff_toReal
    (ha : a.isNaN = false)
    (hb : b.isNaN = false) :
    a.lt b = true ↔ a.toReal < b.toReal := by
  rw [lt_iff ha hb, ← not_le, ← not_le, toReal_le_toReal_iff]

theorem toReal_max
    (ha : a.isNaN = false)
    (hb : b.isNaN = false) :
    (a.max b).toReal = Max.max a.toReal b.toReal := by
  rw [max, ha, hb, if_neg (by decide), if_neg (by decide)]
  cases hlt : a.lt b
  · have hle := (le_iff_toReal hb ha).mp (le_of_not_lt ha hb hlt)
    exact (max_eq_left hle).symm
  · have hle := ((lt_iff_toReal ha hb).mp hlt).le
    exact (max_eq_right hle).symm

theorem toReal_min
    (ha : a.isNaN = false)
    (hb : b.isNaN = false) :
    (a.min b).toReal = Min.min a.toReal b.toReal := by
  rw [min, ha, hb, if_neg (by decide), if_neg (by decide)]
  cases hlt : b.lt a
  · have hle := (le_iff_toReal ha hb).mp (le_of_not_lt hb ha hlt)
    exact (min_eq_left hle).symm
  · have hle := ((lt_iff_toReal hb ha).mp hlt).le
    exact (min_eq_right hle).symm

theorem units_mono
    {m n : Nat}
    (h : m ≤ n) :
    units m ≤ units n :=
  Nat.pow_le_pow_right (by decide) h

/-- The magnitude of the infinities. -/
theorem magnitude_of_not_isFinite
    (hfinite : a.isFinite = false)
    (hnumber : a.isNaN = false) :
    a.magnitude = units 52 * units (2047 - 1) := by
  have hexponent : a.exponentField = 2047 := by
    simpa [isFinite] using hfinite
  have hfraction : a.fractionField = 0 := by
    simpa [isNaN, hexponent] using hnumber
  rw [magnitude, if_neg (by rw [hexponent]; decide), hexponent,
    hfraction, Nat.add_zero]

/-- Finite doubles are of smaller magnitude. -/
theorem magnitude_lt_of_isFinite
    (hfinite : a.isFinite = true) :
    a.magnitude < units 52 * units (2047 - 1) := by
  have hfraction : a.fractionField < units 52 :=
    Nat.mod_lt _ (units_pos 52)
  have hexponent : a.exponentField ≤ 2046 := by
    have hne : a.exponentField ≠ 2047 := by
      simpa [isFinite] using hfinite
    have hlt : a.exponentField < 2048 := Nat.mod_lt _ (by decide)
    omega
  rw [magnitude]
  split_ifs with hzero
  · exact hfraction.trans_le (Nat.le_mul_of_pos_right _ (units_pos _))
  · have hdouble :
        units (a.exponentField - 1 + 1) =
          units (a.exponentField - 1) * 2 :=
      units_add _ 1
    have hmono :
        units (a.exponentField - 1 + 1) ≤ units (2047 - 1) :=
      units_mono (by omega)
    calc
      (units 52 + a.fractionField) * units (a.exponentField - 1) <
          (units 52 * 2) * units (a.exponentField - 1) :=
        Nat.mul_lt_mul_of_pos_right (by omega) (units_pos _)
      _ = units 52 * units (a.exponentField - 1 + 1) := by
        rw [hdouble, Nat.mul_assoc, Nat.mul_comm 2]
      _ ≤ units 52 * units (2047 - 1) :=
        Nat.mul_le_mul_left _ hmono

/-- What lies between finite doubles is finite. -/
theorem isFinite_of_le_of_le
    (ha : a.isFinite = true)
    (hc : c.isFinite = true)
    (hab : a.le b = true)
    (hbc : b.le c = true) :
    b.isFinite = true := by
  obtain ⟨_, hb, hab⟩ := not_isNaN_of_le hab
  obtain ⟨_, _, hbc⟩ := not_isNaN_of_le hbc
  by_contra hfinite
  rw [Bool.not_eq_true] at hfinite
  have hmagnitude := magnitude_of_not_isFinite hfinite hb
  have hmagnitude_a := magnitude_lt_of_isFinite ha
  have hmagnitude_c := magnitude_lt_of_isFinite hc
  unfold scaled at hab hbc
  rw [hmagnitude] at hab hbc
  generalize units 52 * units (2047 - 1) = top at *
  split_ifs at hab hbc <;> omega

/-- A finite double lies strictly between the infinities. -/
theorem between_infinities
    (ha : a.isFinite = true) :
    negInfinity.lt a = true ∧ a.lt infinity = true := by
  have hmagnitude := magnitude_lt_of_isFinite ha
  have hnumber := isFinite_not_isNaN ha
  have htop :=
    magnitude_of_not_isFinite (a := infinity) (by decide) (by decide)
  have hbottom :=
    magnitude_of_not_isFinite (a := negInfinity) (by decide) (by decide)
  have hscaled_top : infinity.scaled = infinity.magnitude :=
    if_neg (by decide)
  have hscaled_bottom : negInfinity.scaled = -negInfinity.magnitude :=
    if_pos (by decide)
  rw [lt_iff (by decide) hnumber, lt_iff hnumber (by decide),
    hscaled_top, hscaled_bottom, htop, hbottom]
  unfold scaled
  generalize units 52 * units (2047 - 1) = top at *
  split_ifs <;> omega

end Order

theorem toEReal_eq
    {x : F64}
    (hfinite : x.isFinite = true) :
    x.toEReal = (x.toReal : EReal) := by
  rw [toEReal, if_pos hfinite]
  rfl

end F64

namespace Arithmetic

variable {x y : ℝ}

theorem exact_ofF64
    {v : F64}
    (hfinite : v.isFinite = true) :
    exact.ofF64 v = (v.toReal : EReal) :=
  F64.toEReal_eq hfinite

theorem exact_ofU64
    (n : UInt64) :
    exact.ofU64 n = ((n.toNat : ℝ) : EReal) :=
  rfl

/-- The machine epsilon. -/
noncomputable def epsilonReal : ℝ :=
  ((2 ^ 52 : Nat) : ℝ)⁻¹

theorem epsilonReal_pos : 0 < epsilonReal := by
  rw [epsilonReal]
  positivity

theorem exact_epsilon :
    exact.epsilon = (epsilonReal : EReal) :=
  rfl

theorem exact_add :
    exact.add (x : EReal) (y : EReal) = ((x + y : ℝ) : EReal) :=
  (EReal.coe_add x y).symm

theorem exact_sub :
    exact.sub (x : EReal) (y : EReal) = ((x - y : ℝ) : EReal) :=
  (EReal.coe_sub x y).symm

theorem exact_mul :
    exact.mul (x : EReal) (y : EReal) = ((x * y : ℝ) : EReal) :=
  (EReal.coe_mul x y).symm

theorem exact_div :
    exact.div (x : EReal) (y : EReal) = ((x / y : ℝ) : EReal) :=
  (EReal.coe_div x y).symm

theorem exact_max :
    exact.max (x : EReal) (y : EReal) =
      ((Max.max x y : ℝ) : EReal) :=
  (EReal.coe_strictMono.monotone.map_max).symm

theorem exact_floor :
    exact.floor (x : EReal) = ((⌊x⌋ : ℝ) : EReal) := by
  simp [exact]

theorem exact_toU64 :
    exact.toU64 (x : EReal) =
      UInt64.ofNat (Nat.min ⌊x⌋₊ (2 ^ 64 - 1)) := by
  simp [exact]

end Arithmetic

end Binary64
end Samkhya
