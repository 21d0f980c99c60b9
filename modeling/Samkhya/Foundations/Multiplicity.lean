import Mathlib.Data.List.Dedup
import Mathlib.Data.List.ReduceOption
import Mathlib.Data.Fintype.Card
import Mathlib.Data.Fintype.Vector
import Mathlib.Tactic

/-!
# Multiplicities in a column of nullable keys

A column is a list of optional keys, one entry per row, `none` standing for
NULL.  `share` counts the rows that carry one key, `maxShare` is the largest
such count (the degree of the column), `distinct` the number of different
non-null keys.

The main fact is the concentration bound `share_add_distinct_le`: spending one
row on every distinct key leaves at most `rows - distinct + 1` rows for any
single key.
-/

namespace Samkhya
namespace Multiplicity

universe u v

variable {κ : Type u} [DecidableEq κ]

/-- Rows of the column that carry the key `k`. -/
def share
    (column : List (Option κ))
    (k : κ) : Nat :=
  column.count (some k)

/-- The non-null keys of the column, in row order. -/
abbrev nonNulls
    (column : List (Option κ)) : List κ :=
  column.reduceOption

/-- Number of different non-null keys. -/
def distinct (column : List (Option κ)) : Nat :=
  (nonNulls column).dedup.length

/-- Largest number of rows that carry one key. -/
def maxShare (column : List (Option κ)) : Nat :=
  ((nonNulls column).map (share column)).foldr max 0

/-- The key count only looks at the non-null rows. -/
theorem share_eq_count_nonNulls
    (column : List (Option κ))
    (k : κ) :
    share column k = (nonNulls column).count k := by
  induction column with
  | nil =>
      rfl
  | cons o column ih =>
      unfold share at ih ⊢
      cases o with
      | none =>
          simpa using ih
      | some a =>
          simp [List.count_cons, ih]

/-- A key that occurs nowhere is shared by no row. -/
theorem share_eq_zero
    {column : List (Option κ)}
    {k : κ}
    (h : k ∉ nonNulls column) :
    share column k = 0 := by
  rw [share_eq_count_nonNulls]
  exact List.count_eq_zero.mpr h

omit [DecidableEq κ] in
theorem length_nonNulls_le
    (column : List (Option κ)) :
    (nonNulls column).length ≤ column.length :=
  List.reduceOption_length_le column

omit [DecidableEq κ] in
/-- A column with a NULL has fewer non-null rows than rows. -/
theorem length_nonNulls_lt
    {column : List (Option κ)}
    (h : none ∈ column) :
    (nonNulls column).length < column.length :=
  List.reduceOption_length_lt_iff.mpr h

theorem foldr_max_le_iff
    (xs : List Nat)
    (d : Nat) :
    xs.foldr max 0 ≤ d ↔ ∀ x ∈ xs, x ≤ d := by
  induction xs with
  | nil =>
      simp
  | cons x xs ih =>
      simp [ih]

/-- `maxShare` bounds every key, whether it occurs or not. -/
theorem maxShare_le_iff
    (column : List (Option κ))
    (d : Nat) :
    maxShare column ≤ d ↔ ∀ k, share column k ≤ d := by
  unfold maxShare
  rw [foldr_max_le_iff]
  constructor
  · intro h k
    by_cases hk : k ∈ nonNulls column
    · exact h _ (List.mem_map_of_mem hk)
    · rw [share_eq_zero hk]
      exact Nat.zero_le d
  · intro h x hx
    obtain ⟨k, _, rfl⟩ := List.mem_map.mp hx
    exact h k

theorem share_le_maxShare
    (column : List (Option κ))
    (k : κ) :
    share column k ≤ maxShare column :=
  (maxShare_le_iff column _).mp le_rfl k

/-- No key is carried by more rows than there are. -/
theorem share_le_length
    (column : List (Option κ))
    (k : κ) :
    share column k ≤ column.length :=
  List.count_le_length

theorem maxShare_le_length
    (column : List (Option κ)) :
    maxShare column ≤ column.length :=
  (maxShare_le_iff column _).mpr (share_le_length column)

/-- A column without non-null rows shares nothing. -/
theorem maxShare_eq_zero_iff
    (column : List (Option κ)) :
    maxShare column = 0 ↔ nonNulls column = [] := by
  constructor
  · intro h
    apply List.eq_nil_iff_forall_not_mem.mpr
    intro k hk
    have hle := share_le_maxShare column k
    have hpos : 0 < share column k := by
      rw [share_eq_count_nonNulls]
      exact List.count_pos_iff.mpr hk
    omega
  · intro h
    simp [maxShare, h]

/-- Mapping the keys can only make more rows share one. -/
theorem maxShare_le_map
    {κ' : Type v} [DecidableEq κ']
    (f : κ → κ')
    (column : List (Option κ)) :
    maxShare column ≤ maxShare (column.map (Option.map f)) := by
  apply (maxShare_le_iff column _).mpr
  intro k
  have hshare :
      share column k ≤ share (column.map (Option.map f)) (f k) := by
    rw [share_eq_count_nonNulls, share_eq_count_nonNulls,
      nonNulls, nonNulls, List.reduceOption_map]
    exact List.count_le_count_map
  exact hshare.trans (share_le_maxShare _ (f k))

/-- One row for every distinct entry, the rest on a single one. -/
theorem count_add_dedup_le
    (xs : List κ)
    (k : κ) :
    xs.count k + xs.dedup.length ≤ xs.length + 1 := by
  induction xs with
  | nil =>
      simp
  | cons a xs ih =>
      by_cases ha : a ∈ xs
      · rw [List.dedup_cons_of_mem ha]
        have hcount : (a :: xs).count k ≤ xs.count k + 1 := by
          rw [List.count_cons]
          split <;> omega
        rw [List.length_cons]
        omega
      · rw [List.dedup_cons_of_notMem ha]
        by_cases hak : a = k
        · subst hak
          have hzero : xs.count a = 0 :=
            List.count_eq_zero.mpr ha
          have hdedup : xs.dedup.length ≤ xs.length :=
            (List.dedup_sublist xs).length_le
          rw [List.count_cons_self, hzero]
          simp only [List.length_cons]
          omega
        · rw [List.count_cons_of_ne hak]
          simp only [List.length_cons]
          omega

/--
Concentration bound: the rows sharing one key and the distinct keys together
exceed the non-null rows by at most one.
-/
theorem share_add_distinct_le
    (column : List (Option κ))
    (k : κ) :
    share column k + distinct column ≤
      (nonNulls column).length + 1 := by
  rw [share_eq_count_nonNulls]
  exact count_add_dedup_le (nonNulls column) k

/--
The degree that a row count and a floor on the distinct keys justify, with the
row count itself as the answer when the floor says nothing.
-/
theorem maxShare_le_of_distinct_floor
    {column : List (Option κ)}
    {rows floor : Nat}
    (hrows : (nonNulls column).length ≤ rows)
    (hfloor : floor ≤ distinct column) :
    maxShare column ≤ rows + 1 - floor := by
  apply (maxShare_le_iff column _).mpr
  intro k
  have h := share_add_distinct_le column k
  omega

/-- Points in a union are at most the sum over its parts. -/
theorem countP_any_le_sum
    {α : Type u} {β : Type v}
    (holds : β → α → Bool)
    (parts : List β)
    (xs : List α) :
    xs.countP (fun x => parts.any (fun b => holds b x)) ≤
      (parts.map (fun b => xs.countP (holds b))).sum := by
  induction parts with
  | nil =>
      simp
  | cons b parts ih =>
      have hsplit :
          xs.countP
              (fun x => holds b x || parts.any (fun b => holds b x)) ≤
            xs.countP (holds b) +
              xs.countP (fun x => parts.any (fun b => holds b x)) := by
        clear ih
        induction xs with
        | nil =>
            simp
        | cons x xs ih =>
            simp only [List.countP_cons]
            cases holds b x <;>
              cases parts.any (fun b => holds b x) <;>
              simp <;>
              omega
      rw [List.map_cons, List.sum_cons]
      simp only [List.any_cons]
      exact hsplit.trans (Nat.add_le_add_left ih _)

/-- Rows of a bag picked by position, counted by the key they carry. -/
theorem card_filter_get_eq_share
    {ρ : Type v}
    (bag : List ρ)
    (key : ρ → Option κ)
    (k : κ) :
    (Finset.univ.filter
      (fun r : Fin bag.length => key (bag.get r) = some k)).card =
      share (bag.map key) k := by
  have h :=
    Fin.card_filter_univ_eq_vector_get_eq_count
      (some k)
      (⟨bag.map key, List.length_map key⟩ :
        List.Vector (Option κ) bag.length)
  have hfilter :
      (Finset.univ.filter
        (fun r : Fin bag.length => key (bag.get r) = some k)) =
      Finset.univ.filter
        (fun r : Fin bag.length =>
          List.Vector.get
            (⟨bag.map key, List.length_map key⟩ :
              List.Vector (Option κ) bag.length) r = some k) := by
    ext r
    simp [List.Vector.get]
  rw [hfilter, h]
  -- the two counts differ in the equality test they run
  apply List.countP_congr
  intro o _
  simp

end Multiplicity
end Samkhya
