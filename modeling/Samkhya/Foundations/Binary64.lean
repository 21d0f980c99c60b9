import Mathlib
import Samkhya.Foundations.FieldCodec

/-!
# Double-precision numbers by their bits

The order of two doubles is the order of their values, and the value of a
double is an integer multiple of the least positive one.  `scaled` is that
integer; it extends to the infinities, which it puts at the two ends.  Only the
comparisons and conversions that are exact live here.  Arithmetic rounds, and a
program over doubles takes it as a parameter: `Arithmetic` can be the rounding
one, or the exact one.
-/

namespace Samkhya
namespace Binary64

open FieldCodec

/-- A double by its bit pattern. -/
structure F64 where
  bits : UInt64
deriving DecidableEq

namespace F64

/-- The biased exponent. -/
def exponentField (x : F64) : Nat :=
  x.bits.toNat / 2 ^ 52 % 2048

def fractionField (x : F64) : Nat :=
  x.bits.toNat % 2 ^ 52

def isNegative (x : F64) : Bool :=
  2 ^ 63 ≤ x.bits.toNat

def isNaN (x : F64) : Bool :=
  x.exponentField = 2047 ∧ x.fractionField ≠ 0

def isFinite (x : F64) : Bool :=
  x.exponentField ≠ 2047

/-- Units of the least positive double in a power of two. -/
def units (exponent : Nat) : Nat :=
  2 ^ exponent

theorem units_pos (exponent : Nat) : 0 < units exponent :=
  Nat.two_pow_pos exponent

theorem units_add
    (m n : Nat) :
    units (m + n) = units m * units n :=
  Nat.pow_add 2 m n

/-- The value one in units of the least positive double. -/
def unitsPerOne : Nat :=
  units 1074

/-- Magnitude in units of the least positive double. -/
def magnitude (x : F64) : Nat :=
  if x.exponentField = 0 then
    x.fractionField
  else
    (units 52 + x.fractionField) * units (x.exponentField - 1)

/-- Value in units of the least positive double. -/
def scaled (x : F64) : Int :=
  if x.isNegative then -x.magnitude else x.magnitude

/-- `a < b`; false when one of them is not a number. -/
def lt (a b : F64) : Bool :=
  !a.isNaN && !b.isNaN && a.scaled < b.scaled

/-- `a <= b`; false when one of them is not a number. -/
def le (a b : F64) : Bool :=
  !a.isNaN && !b.isNaN && a.scaled ≤ b.scaled

/-- `a == b`; false when one of them is not a number. -/
def partialEq (a b : F64) : Bool :=
  !a.isNaN && !b.isNaN && a.scaled = b.scaled

/-- `PartialOrd::partial_cmp`. -/
def partialCmp (a b : F64) : Option Ordering :=
  if a.isNaN || b.isNaN then
    none
  else
    some (compare a.scaled b.scaled)

/-- `f64::max`: a number is preferred to a NaN. -/
def max (a b : F64) : F64 :=
  if a.isNaN then b
  else if b.isNaN then a
  else if a.lt b then b
  else a

/-- `f64::min`: a number is preferred to a NaN. -/
def min (a b : F64) : F64 :=
  if a.isNaN then b
  else if b.isNaN then a
  else if b.lt a then b
  else a

/-- The integer part of a positive value, zero for anything else. -/
def truncate (x : F64) : Nat :=
  if x.isNaN then 0 else x.scaled.toNat / unitsPerOne

/-- `as u32`: truncates and saturates. -/
def toU32 (x : F64) : UInt32 :=
  UInt32.ofNat (Nat.min x.truncate (2 ^ 32 - 1))

/-- `as u64`: truncates and saturates. -/
def toU64 (x : F64) : UInt64 :=
  UInt64.ofNat (Nat.min x.truncate (2 ^ 64 - 1))

def zero : F64 where
  bits := 0

def one : F64 where
  bits := 0x3ff0000000000000

def infinity : F64 where
  bits := 0x7ff0000000000000

def negInfinity : F64 where
  bits := 0xfff0000000000000

def nan : F64 where
  bits := 0x7ff8000000000000

section Order

variable {a b c : F64}

theorem isFinite_not_isNaN
    (h : a.isFinite = true) :
    a.isNaN = false := by
  simp only [isFinite, ne_eq, decide_eq_true_eq] at h
  simp [isNaN, h]

theorem lt_iff
    (ha : a.isNaN = false)
    (hb : b.isNaN = false) :
    a.lt b = true ↔ a.scaled < b.scaled := by
  simp [lt, ha, hb]

theorem le_iff
    (ha : a.isNaN = false)
    (hb : b.isNaN = false) :
    a.le b = true ↔ a.scaled ≤ b.scaled := by
  simp [le, ha, hb]

/-- Only numbers are comparable. -/
theorem not_isNaN_of_le
    (h : a.le b = true) :
    a.isNaN = false ∧ b.isNaN = false ∧ a.scaled ≤ b.scaled := by
  simpa [le, and_assoc] using h

theorem le_trans
    (hab : a.le b = true)
    (hbc : b.le c = true) :
    a.le c = true := by
  obtain ⟨ha, _, hab⟩ := not_isNaN_of_le hab
  obtain ⟨_, hc, hbc⟩ := not_isNaN_of_le hbc
  exact (le_iff ha hc).mpr (hab.trans hbc)

/-- A number that is not below another is at least that. -/
theorem le_of_not_lt
    (ha : a.isNaN = false)
    (hb : b.isNaN = false)
    (h : a.lt b = false) :
    b.le a = true := by
  rw [le_iff hb ha]
  by_contra hlt
  rw [not_le] at hlt
  rw [(lt_iff ha hb).mpr hlt] at h
  cases h

theorem not_lt_of_le
    (h : a.le b = true) :
    b.lt a = false := by
  obtain ⟨ha, hb, hle⟩ := not_isNaN_of_le h
  by_contra hlt
  rw [Bool.not_eq_false, lt_iff hb ha] at hlt
  omega

theorem lt_irrefl
    (a : F64) :
    a.lt a = false := by
  simp [lt]

theorem le_self
    (ha : a.isNaN = false) :
    a.le a = true :=
  (le_iff ha ha).mpr le_rfl

theorem isNaN_max
    (hb : b.isNaN = false) :
    (a.max b).isNaN = false := by
  unfold max
  cases ha : a.isNaN with
  | true =>
      exact hb
  | false =>
      rw [hb, if_neg (by decide), if_neg (by decide)]
      split_ifs
      · exact hb
      · exact ha

/-- The larger of anything and a number is at least that number. -/
theorem scaled_le_max
    (hb : b.isNaN = false) :
    b.scaled ≤ (a.max b).scaled := by
  unfold max
  cases ha : a.isNaN with
  | true =>
      exact le_rfl
  | false =>
      rw [hb, if_neg (by decide), if_neg (by decide)]
      split_ifs with hlt
      · exact le_rfl
      · rw [Bool.not_eq_true] at hlt
        exact (not_isNaN_of_le (le_of_not_lt ha hb hlt)).2.2

end Order

theorem isNaN_one : one.isNaN = false := by
  decide +kernel

theorem scaled_one : one.scaled = unitsPerOne := by
  have hsign : one.isNegative = false := by
    decide
  have hexponent : one.exponentField = 1023 := by
    decide
  have hfraction : one.fractionField = 0 := by
    decide
  have hmagnitude : one.magnitude = units 52 * units 1022 := by
    rw [magnitude, hexponent, hfraction, if_neg (by decide),
      Nat.add_zero]
  rw [scaled, hsign, if_neg (by decide), hmagnitude, ← units_add,
    unitsPerOne]

theorem unitsPerOne_pos : 0 < unitsPerOne :=
  units_pos 1074

/-- At least one stays at least one when it is truncated. -/
theorem toU32_max_one_ne
    (x : F64) :
    (x.max one).toU32 ≠ 0 := by
  have hvalue := scaled_le_max (a := x) isNaN_one
  rw [scaled_one] at hvalue
  have htruncate : 1 ≤ (x.max one).truncate := by
    unfold truncate
    rw [isNaN_max isNaN_one, if_neg (by decide),
      Nat.le_div_iff_mul_le unitsPerOne_pos, Nat.one_mul]
    zify
    exact hvalue.trans (Int.self_le_toNat _)
  have hpos : 1 ≤ Nat.min (x.max one).truncate (2 ^ 32 - 1) :=
    Nat.le_min.mpr ⟨htruncate, by decide⟩
  have hlt : Nat.min (x.max one).truncate (2 ^ 32 - 1) < 2 ^ 32 :=
    (Nat.min_le_right _ _).trans_lt (by decide)
  intro hzero
  have hnat := congrArg UInt32.toNat hzero
  rw [toU32, UInt32.toNat_ofNat_of_lt' hlt] at hnat
  rw [hnat] at hpos
  exact absurd hpos (by decide)

end F64

/-- An `f64` field, written as its bit pattern. -/
def f64 : Codec F64 :=
  Codec.u64.iso F64.bits F64.mk (fun _ => rfl)

/--
What a program computes with doubles besides comparing them; `ρ` are the
results.  With rounding results these are doubles again.
-/
structure Arithmetic (ρ : Type) where
  ofF64 : F64 → ρ
  ofU64 : UInt64 → ρ
  epsilon : ρ
  add : ρ → ρ → ρ
  sub : ρ → ρ → ρ
  mul : ρ → ρ → ρ
  div : ρ → ρ → ρ
  max : ρ → ρ → ρ
  floor : ρ → ρ
  toU64 : ρ → UInt64

open Classical in
/-- The value of a double; a NaN has none, and zero stands in for it. -/
noncomputable def F64.toEReal (x : F64) : EReal :=
  if x.isFinite then
    ((x.scaled / F64.unitsPerOne : ℝ) : EReal)
  else if x.isNaN then 0
  else if x.isNegative then ⊥
  else ⊤

open Classical in
/-- Arithmetic that does not round. -/
noncomputable def Arithmetic.exact : Arithmetic EReal where
  ofF64 := F64.toEReal
  ofU64 n := ((n.toNat : ℝ) : EReal)
  epsilon := ((((2 ^ 52 : Nat) : ℝ)⁻¹ : ℝ) : EReal)
  add := (· + ·)
  sub := (· - ·)
  mul := (· * ·)
  div := (· / ·)
  max := Max.max
  floor x :=
    if x = ⊤ ∨ x = ⊥ then x else ((⌊x.toReal⌋ : ℝ) : EReal)
  toU64 x :=
    if x = ⊤ then
      UInt64.ofNat (2 ^ 64 - 1)
    else
      UInt64.ofNat (Nat.min ⌊x.toReal⌋₊ (2 ^ 64 - 1))

namespace Arithmetic

theorem exact_add_natCast
    (m : Nat)
    (n : UInt64) :
    exact.add ((m : ℝ) : EReal) (exact.ofU64 n) =
      (((m + n.toNat : Nat) : ℝ) : EReal) := by
  rw [Nat.cast_add, EReal.coe_add]
  rfl

/-- Cutting a sum of counts off below changes nothing. -/
theorem exact_toU64_natCast
    (n : Nat) :
    exact.toU64 (exact.max ((n : ℝ) : EReal) (exact.ofU64 0)) =
      UInt64.ofNat (Nat.min n (2 ^ 64 - 1)) := by
  have hmax :
      exact.max ((n : ℝ) : EReal) (exact.ofU64 0) =
        ((n : ℝ) : EReal) := by
    apply max_eq_left
    change (((0 : UInt64).toNat : ℝ) : EReal) ≤ _
    exact_mod_cast Nat.zero_le n
  rw [hmax]
  simp only [exact]
  rw [if_neg (EReal.coe_ne_top _), EReal.toReal_coe,
    Nat.floor_natCast]

end Arithmetic

end Binary64
end Samkhya
