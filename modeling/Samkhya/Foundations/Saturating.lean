import Mathlib.Tactic

/-!
# Saturating machine arithmetic

Fixed-width unsigned addition and multiplication that stop at the largest
value instead of wrapping.  The operations are stated once over `Nat` with an
explicit ceiling `cap`; the `UInt32` and `UInt64` versions are their images,
and every fact about a machine operation is read off through `toNat`.

The central facts are that a fold of saturating steps loses nothing except at
the ceiling: `foldl_satMul` and `foldl_satAdd` say that it returns the exact
product or sum, cut off once at `cap`.
-/

namespace Samkhya
namespace Saturating

/-- Largest `u32`. -/
abbrev u32Max : Nat := 2 ^ 32 - 1

/-- Largest `u64`. -/
abbrev u64Max : Nat := 2 ^ 64 - 1

/-- Largest `u128`. -/
abbrev u128Max : Nat := 2 ^ 128 - 1

/-- Addition stopping at `cap`. -/
def satAdd (cap a b : Nat) : Nat :=
  min (a + b) cap

/-- Multiplication stopping at `cap`. -/
def satMul (cap a b : Nat) : Nat :=
  min (a * b) cap

theorem satAdd_le_cap
    (cap a b : Nat) :
    satAdd cap a b ≤ cap :=
  Nat.min_le_right _ _

theorem satMul_le_cap
    (cap a b : Nat) :
    satMul cap a b ≤ cap :=
  Nat.min_le_right _ _

/-- A product that fits is not cut off. -/
theorem satMul_eq_of_le
    {cap a b : Nat}
    (h : a * b ≤ cap) :
    satMul cap a b = a * b :=
  Nat.min_eq_left h

/-- Cutting off an addend early cannot lose anything the final cut keeps. -/
theorem min_satAdd_left
    (cap a b : Nat) :
    min (min a cap + b) cap = min (a + b) cap := by
  omega

/-- Cutting off a factor early cannot lose anything the final cut keeps. -/
theorem min_mul_min_left
    (cap a b : Nat) :
    min (min a cap * b) cap = min (a * b) cap := by
  rcases Nat.le_total a cap with h | h
  · rw [Nat.min_eq_left h]
  · rw [Nat.min_eq_right h]
    rcases Nat.eq_zero_or_pos b with hb | hb
    · subst hb
      simp
    · have hcap : cap ≤ cap * b :=
        Nat.le_mul_of_pos_right _ hb
      have hab : cap * b ≤ a * b :=
        Nat.mul_le_mul_right _ h
      rw [Nat.min_eq_right hcap,
        Nat.min_eq_right (hcap.trans hab)]

/-- Cutting off all factors early changes nothing below the final cut. -/
theorem min_prod_min
    (cap : Nat)
    (ps : List Nat) :
    min (ps.map (fun p => min p cap)).prod cap = min ps.prod cap := by
  induction ps with
  | nil =>
      rfl
  | cons p ps ih =>
      calc
        min ((p :: ps).map (fun p => min p cap)).prod cap
            = min (min p cap * (ps.map (fun p => min p cap)).prod)
                cap := by
          rw [List.map_cons, List.prod_cons]
        _ = min (min (ps.map (fun p => min p cap)).prod cap * p)
              cap := by
          rw [min_mul_min_left, min_mul_min_left, Nat.mul_comm]
        _ = min (p :: ps).prod cap := by
          rw [ih, min_mul_min_left, List.prod_cons, Nat.mul_comm]

/--
A quantity that grows by at most a factor stays below the saturating product
of its bound and that factor, up to the ceiling.
-/
theorem min_le_satMul
    {cap p q b d : Nat}
    (hp : min p cap ≤ b)
    (hq : q ≤ p * d) :
    min q cap ≤ satMul cap b d := by
  have hstep : min q cap ≤ min (min p cap * d) cap := by
    rw [min_mul_min_left]
    exact min_le_min_right cap hq
  exact
    hstep.trans
      (min_le_min_right cap (Nat.mul_le_mul_right d hp))

/-- Two quantities bounded up to the ceiling bound their product up to it. -/
theorem min_le_mul
    {cap p q w a b : Nat}
    (hp : min p cap ≤ a)
    (hq : min q cap ≤ b)
    (hw : w ≤ p * q) :
    min w cap ≤ a * b := by
  calc
    min w cap ≤ min (a * q) cap := min_le_satMul hp hw
    _ ≤ satMul cap b a :=
      min_le_satMul hq (Nat.mul_comm a q).le
    _ ≤ b * a := Nat.min_le_left _ _
    _ = a * b := Nat.mul_comm b a

/-- A saturating product fold is the exact product, cut off once. -/
theorem foldl_satMul
    (cap : Nat)
    (xs : List Nat)
    {a : Nat}
    (ha : a ≤ cap) :
    xs.foldl (satMul cap) a = min (a * xs.prod) cap := by
  induction xs generalizing a with
  | nil =>
      simp [ha]
  | cons x xs ih =>
      rw [List.foldl_cons, ih (satMul_le_cap cap a x)]
      rw [satMul, min_mul_min_left, List.prod_cons]
      rw [Nat.mul_assoc]

/-- A saturating sum fold is the exact sum, cut off once. -/
theorem foldl_satAdd
    (cap : Nat)
    (xs : List Nat)
    {a : Nat}
    (ha : a ≤ cap) :
    xs.foldl (satAdd cap) a = min (a + xs.sum) cap := by
  induction xs generalizing a with
  | nil =>
      simp [ha]
  | cons x xs ih =>
      rw [List.foldl_cons, ih (satAdd_le_cap cap a x)]
      rw [satAdd, min_satAdd_left, List.sum_cons]
      rw [Nat.add_assoc]

/-- Terms that add up to nothing are nothing. -/
theorem sum_eq_zero_iff_countP
    (xs : List Nat) :
    xs.sum = 0 ↔ xs.countP (0 < ·) = 0 := by
  simp [List.sum_eq_zero_iff, List.countP_eq_zero]

/--
A saturating sum is the largest of its terms just when at most one term
counts, or a term has reached the ceiling already.
-/
theorem min_sum_eq_max_iff
    {cap m : Nat}
    {xs : List Nat}
    (hmem : m ∈ xs)
    (hmax : ∀ x ∈ xs, x ≤ m)
    (hcap : m ≤ cap) :
    min xs.sum cap = m ↔ xs.countP (0 < ·) ≤ 1 ∨ cap ∈ xs := by
  obtain ⟨before, after, rfl⟩ := List.append_of_mem hmem
  have hbefore := sum_eq_zero_iff_countP before
  have hafter := sum_eq_zero_iff_countP after
  have htop : cap ∈ before ++ m :: after ↔ m = cap := by
    constructor
    · intro h
      exact Nat.le_antisymm hcap (hmax cap h)
    · intro h
      exact h ▸ hmem
  have hzero : m = 0 → before.sum = 0 ∧ after.sum = 0 := by
    intro hm
    have hall : ∀ x ∈ before ++ m :: after, x = 0 := by
      intro x hx
      have hx := hmax x hx
      omega
    constructor
    · exact List.sum_eq_zero fun x hx =>
        hall x (List.mem_append_left _ hx)
    · exact List.sum_eq_zero fun x hx =>
        hall x (List.mem_append_right _ (List.mem_cons_of_mem _ hx))
  rw [htop]
  simp only [List.sum_append, List.sum_cons, List.countP_append,
    List.countP_cons, decide_eq_true_eq]
  by_cases hm : 0 < m
  · simp only [hm, if_true]
    omega
  · have hsums := hzero (by omega)
    simp only [hm, if_false]
    omega

section MachineWords

/-- `isize::MAX`, the most bytes of one allocation. -/
def isizeMax : Nat :=
  2 ^ 63 - 1

/-- `usize::checked_mul` on a 64-bit target. -/
def checkedMulUsize (a b : Nat) : Option Nat :=
  if a * b ≤ u64Max then
    some (a * b)
  else
    none

/-- Two `u32` dimensions never overflow. -/
theorem checkedMulUsize_toNat
    (a b : UInt32) :
    checkedMulUsize a.toNat b.toNat = some (a.toNat * b.toNat) := by
  apply if_pos
  have ha : a.toNat ≤ 2 ^ 32 - 1 := Nat.le_pred_of_lt a.toNat_lt
  have hb : b.toNat ≤ 2 ^ 32 - 1 := Nat.le_pred_of_lt b.toNat_lt
  exact (Nat.mul_le_mul ha hb).trans (by decide)

/-- `u32::saturating_add`. -/
def saturatingAddU32 (a b : UInt32) : UInt32 :=
  UInt32.ofNat (satAdd u32Max a.toNat b.toNat)

/-- `u64::saturating_add`. -/
def saturatingAddU64 (a b : UInt64) : UInt64 :=
  UInt64.ofNat (satAdd u64Max a.toNat b.toNat)

/-- `u64::saturating_mul`. -/
def saturatingMulU64 (a b : UInt64) : UInt64 :=
  UInt64.ofNat (satMul u64Max a.toNat b.toNat)

/-- A counter other than zero is positive. -/
theorem toNat_pos_of_ne
    {n : UInt32}
    (h : n ≠ 0) :
    0 < n.toNat :=
  UInt32.lt_iff_toNat_lt.mp (UInt32.pos_iff_ne_zero.mpr h)

theorem toNat_le_u32Max
    (a : UInt32) :
    a.toNat ≤ u32Max :=
  Nat.le_of_lt_succ a.toNat_lt

theorem toNat_le_u64Max
    (a : UInt64) :
    a.toNat ≤ u64Max :=
  Nat.le_of_lt_succ a.toNat_lt

/-- A natural number that fits survives the trip through `u64`. -/
theorem toNat_ofNat_of_le
    {n : Nat}
    (h : n ≤ u64Max) :
    (UInt64.ofNat n).toNat = n :=
  UInt64.toNat_ofNat_of_lt' (Nat.lt_succ_of_le h)

theorem toNat_u64Max :
    (UInt64.ofNat u64Max).toNat = u64Max :=
  toNat_ofNat_of_le le_rfl

@[simp] theorem toNat_saturatingAddU32
    (a b : UInt32) :
    (saturatingAddU32 a b).toNat =
      satAdd u32Max a.toNat b.toNat :=
  UInt32.toNat_ofNat_of_lt'
    (Nat.lt_succ_of_le (satAdd_le_cap _ _ _))

@[simp] theorem toNat_saturatingAddU64
    (a b : UInt64) :
    (saturatingAddU64 a b).toNat =
      satAdd u64Max a.toNat b.toNat :=
  toNat_ofNat_of_le (satAdd_le_cap _ _ _)

@[simp] theorem toNat_saturatingMulU64
    (a b : UInt64) :
    (saturatingMulU64 a b).toNat =
      satMul u64Max a.toNat b.toNat :=
  toNat_ofNat_of_le (satMul_le_cap _ _ _)

/-- A saturating sum is the exact sum, cut off at `u64::MAX`. -/
theorem toNat_foldl_saturatingAddU64
    (xs : List UInt64)
    (a : UInt64) :
    (xs.foldl saturatingAddU64 a).toNat =
      min (a.toNat + (xs.map UInt64.toNat).sum) u64Max := by
  rw [← foldl_satAdd u64Max (xs.map UInt64.toNat)
    (toNat_le_u64Max a)]
  induction xs generalizing a with
  | nil =>
      rfl
  | cons x xs ih =>
      rw [List.foldl_cons, ih, toNat_saturatingAddU64]
      rfl

/-- The product of two `u64` values always fits in a `u128`. -/
theorem satMul_u128_eq
    {a b : Nat}
    (ha : a ≤ u64Max)
    (hb : b ≤ u64Max) :
    satMul u128Max a b = a * b := by
  apply satMul_eq_of_le
  calc
    a * b ≤ u64Max * u64Max := Nat.mul_le_mul ha hb
    _ ≤ u128Max := by decide

theorem toNat_minU64
    (a b : UInt64) :
    (min a b).toNat = min a.toNat b.toNat := by
  have hmin : min a b = if a ≤ b then a else b := rfl
  rw [hmin]
  simp only [UInt64.le_iff_toNat_le]
  split_ifs with h
  · exact (Nat.min_eq_left h).symm
  · exact (Nat.min_eq_right (Nat.le_of_not_le h)).symm

/-- A running minimum stays at or above what every term allows. -/
theorem le_foldl_min
    {α : Type*}
    (f : α → UInt64)
    {xs : List α}
    {init : UInt64}
    {n : Nat}
    (hinit : n ≤ init.toNat)
    (hxs : ∀ x ∈ xs, n ≤ (f x).toNat) :
    n ≤ (xs.foldl (fun bound x => min bound (f x)) init).toNat := by
  induction xs generalizing init with
  | nil =>
      exact hinit
  | cons x xs ih =>
      rw [List.foldl_cons]
      apply ih
      · rw [toNat_minU64]
        exact Nat.le_min.mpr ⟨hinit, hxs x List.mem_cons_self⟩
      · exact fun y hy => hxs y (List.mem_cons_of_mem x hy)

/-- A running minimum never rises. -/
theorem foldl_min_le
    {α : Type*}
    (f : α → UInt64)
    (xs : List α)
    (init : UInt64) :
    (xs.foldl (fun bound x => min bound (f x)) init).toNat ≤
      init.toNat := by
  induction xs generalizing init with
  | nil =>
      exact Nat.le_refl _
  | cons x xs ih =>
      rw [List.foldl_cons]
      refine (ih _).trans ?_
      rw [toNat_minU64]
      exact Nat.min_le_left _ _

instance lawfulOrderSupUInt32 : Std.LawfulOrderSup UInt32 where
  max_le_iff a b c := by
    have hmax : max a b = if a ≤ b then b else a := rfl
    rw [hmax]
    split_ifs with h
    · exact ⟨fun hb => ⟨UInt32.le_trans h hb, hb⟩, And.right⟩
    · have hba := UInt32.le_of_lt (UInt32.not_le.mp h)
      exact ⟨fun ha => ⟨ha, UInt32.le_trans hba ha⟩, And.left⟩

instance lawfulOrderMaxUInt64 : Std.LawfulOrderMax UInt64 where
  max_eq_or a b := by
    have hmax : max a b = if a ≤ b then b else a := rfl
    rw [hmax]
    split_ifs
    · exact Or.inr rfl
    · exact Or.inl rfl
  max_le_iff a b c := by
    have hmax : max a b = if a ≤ b then b else a := rfl
    rw [hmax]
    split_ifs with h
    · exact ⟨fun hb => ⟨UInt64.le_trans h hb, hb⟩, And.right⟩
    · have hba := UInt64.le_of_lt (UInt64.not_le.mp h)
      exact ⟨fun ha => ⟨ha, UInt64.le_trans hba ha⟩, And.left⟩

end MachineWords

end Saturating
end Samkhya
