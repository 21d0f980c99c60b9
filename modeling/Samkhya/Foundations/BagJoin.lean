import Mathlib.Tactic

/-!
# Joins of two bags under any condition

The eight SQL join types over lists, with an arbitrary Boolean join condition.
Every output is the inner pairs, some side's matched rows or some side's
unmatched rows, and the sizes of these three decide how large an output can
get.

`length_rows_le_mul_iff` answers, for each type, for which input sizes the
product of the sizes is a ceiling on the output.
-/

namespace Samkhya
namespace BagJoin

universe u v

/-- SQL join types. -/
inductive JoinType
  | inner
  | left
  | right
  | full
  | leftSemi
  | rightSemi
  | leftAnti
  | rightAnti
deriving DecidableEq

section Parts

variable {α : Type u} {β : Type v}

/-- All pairs that satisfy the condition. -/
def pairs
    (cond : α → β → Bool)
    (l : List α)
    (r : List β) : List (α × β) :=
  l.flatMap (fun a => (r.filter (cond a)).map (fun b => (a, b)))

/-- The left rows with, or without, a partner on the right. -/
def matching
    (cond : α → β → Bool)
    (l : List α)
    (r : List β)
    (keep : Bool) : List α :=
  l.filter (fun a => r.any (cond a) == keep)

/-- The condition seen from the right side. -/
abbrev flip (cond : α → β → Bool) : β → α → Bool :=
  fun b a => cond a b

/-- Matched and unmatched rows together are all rows. -/
theorem length_matching_add
    (cond : α → β → Bool)
    (l : List α)
    (r : List β) :
    (matching cond l r true).length +
        (matching cond l r false).length = l.length := by
  unfold matching
  induction l with
  | nil =>
      rfl
  | cons a l ih =>
      cases h : r.any (cond a) <;>
        simp only [List.filter_cons, h, List.length_cons] <;>
        simp <;>
        simp at ih <;>
        omega

/-- Every matched row is in a pair. -/
theorem length_matching_le_pairs
    (cond : α → β → Bool)
    (l : List α)
    (r : List β) :
    (matching cond l r true).length ≤ (pairs cond l r).length := by
  unfold matching pairs
  induction l with
  | nil =>
      exact Nat.le_refl 0
  | cons a l ih =>
      rw [List.flatMap_cons, List.length_append, List.length_map,
        List.filter_cons]
      split_ifs with h
      · have hpos : 0 < (r.filter (cond a)).length := by
          obtain ⟨b, hb, hcond⟩ :=
            List.any_eq_true.mp (beq_iff_eq.mp h)
          exact
            List.length_pos_of_mem (List.mem_filter.mpr ⟨hb, hcond⟩)
        rw [List.length_cons]
        omega
      · omega

/-- Pairs only join matched rows of both sides. -/
theorem length_pairs_le
    (cond : α → β → Bool)
    (l : List α)
    (r : List β) :
    (pairs cond l r).length ≤
      (matching cond l r true).length *
        (matching (flip cond) r l true).length := by
  have hsub :
      ∀ xs : List α, (∀ a ∈ xs, a ∈ l) →
        (pairs cond xs r).length ≤
          (matching cond xs r true).length *
            (matching (flip cond) r l true).length := by
    intro xs hxs
    induction xs with
    | nil =>
        exact Nat.zero_le _
    | cons a xs ih =>
        have hrest := ih (fun x hx => hxs x (List.mem_cons_of_mem a hx))
        have ha := hxs a List.mem_cons_self
        have hpartners :
            (r.filter (cond a)).length ≤
              (matching (flip cond) r l true).length := by
          unfold matching
          apply (List.monotone_filter_right r _).length_le
          intro b hb
          simp only [beq_true, List.any_eq_true]
          exact ⟨a, ha, hb⟩
        unfold pairs matching at hrest ⊢
        rw [List.flatMap_cons, List.length_append, List.length_map,
          List.filter_cons]
        split_ifs with h
        · rw [List.length_cons, Nat.succ_mul]
          unfold matching at hpartners
          omega
        · have hnone : r.filter (cond a) = [] := by
            apply List.filter_eq_nil_iff.mpr
            intro b hb hcond
            apply h
            simp only [beq_true, List.any_eq_true]
            exact ⟨b, hb, hcond⟩
          rw [hnone, List.length_nil, Nat.zero_add]
          exact hrest
  exact hsub l (fun _ ha => ha)

/-- There are no more pairs than combinations. -/
theorem length_pairs_le_mul
    (cond : α → β → Bool)
    (l : List α)
    (r : List β) :
    (pairs cond l r).length ≤ l.length * r.length := by
  refine (length_pairs_le cond l r).trans ?_
  exact
    Nat.mul_le_mul (List.length_filter_le _ _)
      (List.length_filter_le _ _)

/-- Without any partner there are no pairs, and every row is unmatched. -/
theorem matching_never
    (l : List α)
    (r : List β)
    (keep : Bool) :
    matching (fun _ _ => false) l r keep =
      if keep then [] else l := by
  cases keep <;> simp [matching]

theorem pairs_never
    (l : List α)
    (r : List β) :
    pairs (fun _ _ => false) l r = [] := by
  simp [pairs]

end Parts

section Rows

variable {α : Type u} {β : Type v}

/-- Output of a join; a missing side is NULL-padded or not projected. -/
def rows
    (t : JoinType)
    (cond : α → β → Bool)
    (l : List α)
    (r : List β) : List (Option α × Option β) :=
  let both := (pairs cond l r).map (fun p => (some p.1, some p.2))
  let onlyLeft := fun keep =>
    (matching cond l r keep).map (fun a => (some a, none))
  let onlyRight := fun keep =>
    (matching (flip cond) r l keep).map (fun b => (none, some b))
  match t with
  | .inner => both
  | .left => both ++ onlyLeft false
  | .right => both ++ onlyRight false
  | .full => both ++ onlyLeft false ++ onlyRight false
  | .leftSemi => onlyLeft true
  | .rightSemi => onlyRight true
  | .leftAnti => onlyLeft false
  | .rightAnti => onlyRight false

/-- The input sizes for which the product is a ceiling on the output. -/
def FitsProduct (l r : Nat) : JoinType → Prop
  | .inner => True
  | .leftSemi => True
  | .rightSemi => True
  | .left => l = 0 ∨ 0 < r
  | .leftAnti => l = 0 ∨ 0 < r
  | .right => r = 0 ∨ 0 < l
  | .rightAnti => r = 0 ∨ 0 < l
  | .full => (l = 0 ∧ r = 0) ∨ (2 ≤ l ∧ 2 ≤ r)

/-- Rows kept whole cost at most one factor of the other side. -/
theorem le_mul_of_fits
    {n l r : Nat}
    (hn : n ≤ l)
    (h : l = 0 ∨ 0 < r) :
    n ≤ l * r := by
  rcases h with h | h
  · omega
  · exact hn.trans (Nat.le_mul_of_pos_right l h)

/-- Pairs of the matched rows plus the unmatched rows of one side. -/
theorem pairs_add_unmatched_le
    {p m u n l r : Nat}
    (hp : p ≤ m * n)
    (hl : m + u ≤ l)
    (hn : n ≤ r)
    (h : l = 0 ∨ 0 < r) :
    p + u ≤ l * r := by
  rcases h with h | h
  · have hm : m = 0 := by omega
    rw [hm, Nat.zero_mul] at hp
    omega
  · calc
      p + u ≤ m * r + u * r :=
        Nat.add_le_add (hp.trans (Nat.mul_le_mul_left m hn))
          (Nat.le_mul_of_pos_right u h)
      _ = (m + u) * r := (Nat.add_mul m u r).symm
      _ ≤ l * r := Nat.mul_le_mul_right r hl

/-- Pairs of the matched rows plus the unmatched rows of both sides. -/
theorem pairs_add_both_unmatched_le
    {p m u n w l r : Nat}
    (hp : p ≤ m * n)
    (hl : m + u ≤ l)
    (hr : n + w ≤ r)
    (h : (l = 0 ∧ r = 0) ∨ (2 ≤ l ∧ 2 ≤ r)) :
    p + u + w ≤ l * r := by
  rcases h with ⟨hl0, hr0⟩ | ⟨hl2, hr2⟩
  · have hm : m = 0 := by omega
    rw [hm, Nat.zero_mul] at hp
    omega
  · rcases Nat.eq_zero_or_pos (m * n) with hzero | hpos
    · -- no pairs: the sum of the sizes is below their product
      have hsum : l + r ≤ l * r := by nlinarith
      omega
    · have hm : 0 < m := Nat.pos_of_ne_zero (left_ne_zero_of_mul hpos.ne')
      have hn : 0 < n := Nat.pos_of_ne_zero (right_ne_zero_of_mul hpos.ne')
      calc
        p + u + w ≤ m * n + u * n + m * w :=
          Nat.add_le_add
            (Nat.add_le_add hp (Nat.le_mul_of_pos_right u hn))
            (Nat.le_mul_of_pos_left w hm)
        _ ≤ (m + u) * (n + w) := by nlinarith
        _ ≤ l * r := Nat.mul_le_mul hl hr

/-- Where the sizes fit, no condition makes the output exceed the product. -/
theorem length_rows_le_mul
    (t : JoinType)
    (cond : α → β → Bool)
    {xs : List α}
    {ys : List β}
    {l r : Nat}
    (hl : xs.length ≤ l)
    (hr : ys.length ≤ r)
    (h : FitsProduct l r t) :
    (rows t cond xs ys).length ≤ l * r := by
  have hpairs := length_pairs_le cond xs ys
  have hmul :
      (pairs cond xs ys).length ≤ l * r :=
    (length_pairs_le_mul cond xs ys).trans (Nat.mul_le_mul hl hr)
  have hleft := length_matching_add cond xs ys
  have hright := length_matching_add (flip cond) ys xs
  have hsemi := length_matching_le_pairs cond xs ys
  cases t with
  | inner =>
      simpa [rows] using hmul
  | leftSemi =>
      simpa [rows] using hsemi.trans hmul
  | rightSemi =>
      have hswap := length_matching_le_pairs (flip cond) ys xs
      have hswapmul :=
        (length_pairs_le_mul (flip cond) ys xs).trans
          (Nat.mul_le_mul hr hl)
      rw [Nat.mul_comm r l] at hswapmul
      simpa [rows] using hswap.trans hswapmul
  | left =>
      have hsum :=
        pairs_add_unmatched_le hpairs (hleft.le.trans hl)
          (by omega : _ ≤ r) h
      simpa [rows] using hsum
  | leftAnti =>
      have hkept :=
        le_mul_of_fits (n := (matching cond xs ys false).length)
          (by omega : _ ≤ l) h
      simpa [rows] using hkept
  | right =>
      rw [Nat.mul_comm] at hpairs
      have hsum :=
        pairs_add_unmatched_le hpairs (hright.le.trans hr)
          (by omega : _ ≤ l) h
      rw [Nat.mul_comm r l] at hsum
      simpa [rows] using hsum
  | rightAnti =>
      have hkept :=
        le_mul_of_fits
          (n := (matching (flip cond) ys xs false).length)
          (by omega : _ ≤ r) h
      rw [Nat.mul_comm r l] at hkept
      simpa [rows] using hkept
  | full =>
      have hsum :=
        pairs_add_both_unmatched_le hpairs (hleft.le.trans hl)
          (hright.le.trans hr) h
      simpa [rows, Nat.add_assoc] using hsum

end Rows

/--
The product of the sizes bounds the output of every pair of bags of these
sizes, under every condition, exactly where the sizes fit.
-/
theorem length_rows_le_mul_iff
    (t : JoinType)
    (l r : Nat) :
    (∀ (α β : Type) (cond : α → β → Bool) (xs : List α)
      (ys : List β),
      xs.length ≤ l → ys.length ≤ r →
        (rows t cond xs ys).length ≤ l * r) ↔
      FitsProduct l r t := by
  constructor
  · intro h
    -- rows without partners, on one side or on both
    have hleft :=
      h Unit Unit (fun _ _ => false) (List.replicate l ()) []
        (by simp) (by simp)
    have hright :=
      h Unit Unit (fun _ _ => false) [] (List.replicate r ())
        (by simp) (by simp)
    have hboth :=
      h Unit Unit (fun _ _ => false) (List.replicate l ())
        (List.replicate r ()) (by simp) (by simp)
    have hle :
        ∀ {n m : Nat}, n ≤ n * m → n = 0 ∨ 0 < m := by
      intro n m hn
      rcases Nat.eq_zero_or_pos m with rfl | hm
      · exact Or.inl (by simpa using hn)
      · exact Or.inr hm
    cases t with
    | inner => trivial
    | leftSemi => trivial
    | rightSemi => trivial
    | left =>
        exact hle (by simpa [rows, pairs_never, matching_never] using hleft)
    | leftAnti =>
        exact hle (by simpa [rows, matching_never] using hleft)
    | right =>
        rw [Nat.mul_comm] at hright
        exact hle (by simpa [rows, pairs_never, matching_never] using hright)
    | rightAnti =>
        rw [Nat.mul_comm] at hright
        exact hle (by simpa [rows, matching_never] using hright)
    | full =>
        have hsum : l + r ≤ l * r := by
          simpa [rows, pairs_never, matching_never] using hboth
        change (l = 0 ∧ r = 0) ∨ (2 ≤ l ∧ 2 ≤ r)
        rcases Nat.lt_or_ge l 2 with hl | hl
        · interval_cases l <;> omega
        · rcases Nat.lt_or_ge r 2 with hr | hr
          · interval_cases r <;> omega
          · exact Or.inr ⟨hl, hr⟩
  · intro h α β cond xs ys hl hr
    exact length_rows_le_mul t cond hl hr h

end BagJoin
end Samkhya
