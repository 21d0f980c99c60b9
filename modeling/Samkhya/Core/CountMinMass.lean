import Mathlib
import Samkhya.Core.CountMin
import Samkhya.Foundations.OrderFree

/-!
# What a Count-Min sketch has recorded

Additions are deposits: each row sends the count of an item to one column.
After any history of additions and merges a counter holds what was deposited
in it, cut off at `u32::MAX`, and the total holds all counts, cut off at
`u64::MAX` (`Tallies`).  The sketch is therefore a function of the counts added,
in any order and bracketing, and while nothing is cut off every row of counters
sums to the total.
-/

namespace Samkhya

open Saturating CellArray FieldCodec

namespace CountMinSketch

/-- An item with the count it is added with. -/
abbrev Update := Bytes × UInt32

/-- `try_new`, `add` and `merge`, as a summary. -/
def updates
    (hash : RowHash) :
    Summary (UInt32 × UInt32) Update CountMinSketch Error where
  fresh p := tryNew p.1 p.2
  step s u := .ok (s.add hash u.1 u.2)
  merge := merge

/-- Column to which a row of `width` counters sends an update. -/
def target
    (hash : RowHash)
    (width : UInt32)
    (row : Nat)
    (u : Update) : Nat :=
  (hash u.1 (UInt32.ofNat row) % width.toUInt64).toNat

/-- The count of an update. -/
def amount (u : Update) : Nat :=
  u.2.toNat

/-- Counters and total hold what was deposited in them, cut off at their type. -/
structure Tallies
    (hash : RowHash)
    (p : UInt32 × UInt32)
    (us : List Update)
    (s : CountMinSketch) : Prop where
  depth_eq : s.depth = p.1
  width_eq : s.width = p.2
  counter :
    ∀ row < s.depth.toNat, ∀ column < s.width.toNat,
      (s.counterAt (rowMajor s.width.toNat row column)).toNat =
        min (landed (target hash s.width row) amount us column) u32Max
  total_eq : s.total.toNat = min (mass amount us) u64Max

section Steps

variable
  {hash : RowHash}
  {p : UInt32 × UInt32}
  {us us' : List Update}
  {s t r : CountMinSketch}

theorem tallies_tryNew
    (h : tryNew p.1 p.2 = .ok s) :
    s.Tallies hash p [] := by
  unfold tryNew at h
  split_ifs at h
  split at h
  · cases h
  · next size hsize =>
      cases h
      refine ⟨rfl, rfl, ?_, by simp⟩
      intro row _ column _
      simp [counterAt, List.getD_eq_getElem?_getD,
        List.getElem?_getD_replicate_default_eq]

theorem Tallies.add
    (hs : s.Tallies hash p us)
    (u : Update) :
    (s.add hash u.1 u.2).Tallies hash p (us ++ [u]) where
  depth_eq := hs.depth_eq
  width_eq := hs.width_eq
  counter := by
    intro row hrow column hcolumn
    have hold := hs.counter row hrow column hcolumn
    have hcell := s.counterAt_add hash u.1 u.2 hrow hcolumn
    change
      ((s.add hash u.1 u.2).counterAt
        (rowMajor s.width.toNat row column)).toNat =
        min (landed (target hash s.width row) amount _ column) u32Max
    rw [hcell, landed_append]
    by_cases hu : s.column hash u.1 row = column
    · have htarget : target hash s.width row u = column := hu
      rw [if_pos hu, toNat_saturatingAddU32, hold]
      simp only [landed, satAdd, List.map_cons, List.map_nil,
        List.sum_cons, List.sum_nil, if_pos htarget, amount]
      omega
    · have htarget : ¬ target hash s.width row u = column := hu
      rw [if_neg hu, hold]
      simp [landed, htarget]
  total_eq := by
    have hold := hs.total_eq
    change (saturatingAddU64 s.total u.2.toUInt64).toNat = _
    rw [toNat_saturatingAddU64, hold, mass_append,
      UInt32.toNat_toUInt64]
    simp only [mass, satAdd, List.map_cons, List.map_nil,
      List.sum_cons, List.sum_nil, amount]
    omega

theorem Tallies.merge
    (hs : s.Tallies hash p us)
    (ht : t.Tallies hash p us')
    (h : s.merge t = .ok r) :
    r.Tallies hash p (us ++ us') := by
  obtain ⟨_, hwidth, hrdepth, hrwidth, hcell⟩ := counterAt_merge h
  refine ⟨hrdepth.trans hs.depth_eq, hrwidth.trans hs.width_eq, ?_, ?_⟩
  · intro row hrow column hcolumn
    rw [hrdepth] at hrow
    rw [hrwidth] at hcolumn ⊢
    have hposition :
        rowMajor s.width.toNat row column < s.counters.length := by
      rw [s.wellFormed.length_eq]
      exact rowMajor_lt hrow hcolumn
    have hleft := hs.counter row hrow column hcolumn
    have hright :=
      ht.counter row (by rwa [ht.depth_eq, ← hs.depth_eq]) column
        (by rwa [← hwidth])
    rw [← hwidth] at hright
    rw [hcell _ hposition, toNat_saturatingAddU32, hleft, hright,
      landed_append, satAdd]
    omega
  · have htotal : r.total = saturatingAddU64 s.total t.total := by
      unfold CountMinSketch.merge at h
      split_ifs at h
      cases h
      rfl
    rw [htotal, toNat_saturatingAddU64, hs.total_eq, ht.total_eq,
      mass_append, satAdd]
    omega

/-- Sketches of one shape with one record merge. -/
theorem Tallies.exists_merge
    (hs : s.Tallies hash p us)
    (ht : t.Tallies hash p us') :
    ∃ r, s.merge t = .ok r := by
  unfold CountMinSketch.merge
  rw [if_neg]
  · exact ⟨_, rfl⟩
  · simp [hs.depth_eq, hs.width_eq, ht.depth_eq, ht.width_eq]

/-- The counters are those that rows and columns address. -/
theorem ext_counterAt
    (hdepth : s.depth = t.depth)
    (hwidth : s.width = t.width)
    (hcounter :
      ∀ row < s.depth.toNat, ∀ column < s.width.toNat,
        s.counterAt (rowMajor s.width.toNat row column) =
          t.counterAt (rowMajor s.width.toNat row column))
    (htotal : s.total = t.total) :
    s = t := by
  have hcounters : s.counters = t.counters := by
    have hlength := t.wellFormed.length_eq
    rw [← hdepth, ← hwidth] at hlength
    rw [← flatMap_rowMajor s.wellFormed.length_eq 0,
      ← flatMap_rowMajor hlength 0]
    apply List.flatMap_congr
    intro row hrow
    apply List.map_congr_left
    intro column hcolumn
    exact
      hcounter row (List.mem_range.mp hrow) column
        (List.mem_range.mp hcolumn)
  obtain ⟨⟨_, _, _, _⟩, _⟩ := s
  obtain ⟨⟨_, _, _, _⟩, _⟩ := t
  cases hdepth
  cases hwidth
  cases hcounters
  cases htotal
  rfl

/-- Sketches of one shape with the same deposits are equal. -/
theorem Tallies.unique
    (hus : us.Perm us')
    (hs : s.Tallies hash p us)
    (ht : t.Tallies hash p us') :
    s = t := by
  have hdepth := hs.depth_eq.trans ht.depth_eq.symm
  have hwidth := hs.width_eq.trans ht.width_eq.symm
  apply ext_counterAt hdepth hwidth
  · intro row hrow column hcolumn
    have hleft := hs.counter row hrow column hcolumn
    have hright :=
      ht.counter row (hdepth ▸ hrow) column (hwidth ▸ hcolumn)
    rw [← hwidth] at hright
    apply UInt32.toNat_inj.mp
    rw [hleft, hright, landed_perm _ _ hus]
  · apply UInt64.toNat_inj.mp
    rw [hs.total_eq, ht.total_eq, mass_perm _ hus]

end Steps

/-- Additions and merges of one shape may come in any order. -/
theorem updates_orderFree
    (hash : RowHash) :
    (updates hash).OrderFree List.Perm
      (fun p us s => s.Tallies hash p us) where
  fresh := by
    intro p s h
    exact tallies_tryNew h
  step := by
    intro p us s u hs
    exact ⟨_, rfl, hs.add u⟩
  merge := by
    intro p us s us' t hs ht
    obtain ⟨r, hr⟩ := hs.exists_merge ht
    exact ⟨r, hr, hs.merge ht hr⟩
  unique := by
    intro p us s us' t hus hs ht
    exact hs.unique hus ht

section Mass

variable
  {hash : RowHash}
  {p : UInt32 × UInt32}
  {us : List Update}
  {s : CountMinSketch}

/-- Whatever ran to a sketch is recorded in it, under its own shape. -/
theorem tallies_invariant
    (hash : RowHash) :
    (updates hash).Invariant
      (fun us s => s.Tallies hash (s.depth, s.width) us) where
  fresh := by
    intro p s h
    have hs : s.Tallies hash p [] := tallies_tryNew h
    have hp : (s.depth, s.width) = p :=
      Prod.ext hs.depth_eq hs.width_eq
    rwa [hp]
  step := by
    intro us s u t hs h
    cases h
    exact hs.add u
  merge := by
    intro us s us' t r hs ht h
    obtain ⟨hdepth, hwidth, hrdepth, hrwidth, _⟩ := counterAt_merge h
    rw [← hdepth, ← hwidth] at ht
    rw [hrdepth, hrwidth]
    exact hs.merge ht h

/-- Without a saturated counter nothing was cut off in the matrix. -/
theorem Tallies.counter_eq_landed
    (hs : s.Tallies hash p us)
    (hsat : s.isSaturated = false)
    {row column : Nat}
    (hrow : row < s.depth.toNat)
    (hcolumn : column < s.width.toNat) :
    (s.counterAt (rowMajor s.width.toNat row column)).toNat =
      landed (target hash s.width row) amount us column := by
  have hcell := hs.counter row hrow column hcolumn
  have hposition :
      rowMajor s.width.toNat row column < s.counters.length := by
    rw [s.wellFormed.length_eq]
    exact rowMajor_lt hrow hcolumn
  have hmem := s.counterAt_mem hposition
  have hne :
      (s.counterAt (rowMajor s.width.toNat row column)).toNat ≠
        u32Max := by
    intro heq
    rw [← @UInt32.ofNat_toNat
      (s.counterAt (rowMajor s.width.toNat row column)), heq] at hmem
    simp [isSaturated, hmem] at hsat
  omega

/-- The counters of one row. -/
def row (s : CountMinSketch) (row : Nat) : List UInt32 :=
  matrixRow s.width.toNat row s.counters

/-- Every row of an unsaturated sketch holds all that was added. -/
theorem Tallies.sum_row
    (hs : s.Tallies hash p us)
    (hsat : s.isSaturated = false)
    {i : Nat}
    (hi : i < s.depth.toNat) :
    ((s.row i).map UInt32.toNat).sum = mass amount us := by
  have hcells :
      (s.row i).map UInt32.toNat =
        (List.range s.width.toNat).map
          (landed (target hash s.width i) amount us) := by
    rw [row, matrixRow_eq_map s.wellFormed.length_eq hi 0, List.map_map]
    apply List.map_congr_left
    intro column hcolumn
    exact
      hs.counter_eq_landed hsat hi (List.mem_range.mp hcolumn)
  have htarget :
      ∀ u ∈ us, target hash s.width i u < s.width.toNat := by
    intro u _
    exact s.column_lt hash u.1 i
  rw [hcells, ← sum_landed (target hash s.width i) amount htarget]
  rfl

/-- A counter is at most the sum of its row. -/
theorem counterAt_le_sum_row
    {i column : Nat}
    (hi : i < s.depth.toNat)
    (hcolumn : column < s.width.toNat) :
    (s.counterAt (rowMajor s.width.toNat i column)).toNat ≤
      ((s.row i).map UInt32.toNat).sum := by
  apply List.le_sum_of_mem
  rw [row, matrixRow_eq_map s.wellFormed.length_eq hi 0, List.map_map]
  exact
    List.mem_map.mpr ⟨column, List.mem_range.mpr hcolumn, rfl⟩

end Mass

end CountMinSketch

open CountMinSketch in
/--
**Count-Min mass is conserved.**  After a history that saturates neither a
counter nor the total, every row of counters sums to the total, which is the
sum of all counts added, and no estimate exceeds it.
-/
theorem countMin_mass
    (hash : RowHash)
    (h : History (UInt32 × UInt32) Update)
    (s : CountMinSketch)
    (hrun : h.run (updates hash) = .ok s)
    (hsat : s.isSaturated = false)
    (htotal : s.total.toNat < 2 ^ 64 - 1) :
    (∀ i < s.depth.toNat,
      ((s.row i).map UInt32.toNat).sum = s.total.toNat) ∧
    s.total.toNat = (h.ops.map (fun u => u.2.toNat)).sum ∧
    ∀ k, (s.estimate hash k).toNat ≤ s.total.toNat := by
  have hs := (tallies_invariant hash).of_run hrun
  have hmass : s.total.toNat = mass amount h.ops := by
    have htally :
        s.total.toNat = min (mass amount h.ops) (2 ^ 64 - 1) :=
      hs.total_eq
    omega
  have hrows :
      ∀ i < s.depth.toNat,
        ((s.row i).map UInt32.toNat).sum = s.total.toNat := by
    intro i hi
    rw [hs.sum_row hsat hi, hmass]
  refine ⟨hrows, hmass, fun k => ?_⟩
  obtain ⟨i, hi, hestimate⟩ := exists_estimate_eq hash s k
  rw [hestimate, ← hrows i hi]
  exact counterAt_le_sum_row hi (s.column_lt hash k i)

section MassPair

open CountMinSketch

/-- Three additions in two sketches, merged. -/
def massPair : History (UInt32 × UInt32) Update :=
  .merge
    (.step (.step (.fresh (2, 3)) ([7], 1)) ([1, 2], 4))
    (.step (.fresh (2, 3)) ([7], 2))

def massPairSketch : CountMinSketch where
  depth := 2
  width := 3
  counters := [0, 3, 4, 4, 0, 3]
  total := 7
  wellFormed := ⟨by decide, by decide, rfl⟩

theorem countMin_mass_massPair :
    ((massPairSketch.row 1).map UInt32.toNat).sum = 7 ∧
      (massPairSketch.estimate lengthHash [7]).toNat ≤ 7 := by
  have h :=
    countMin_mass lengthHash massPair massPairSketch
      (by decide +kernel) (by decide) (by decide)
  exact ⟨h.1 1 (by decide), h.2.2 [7]⟩

end MassPair

end Samkhya
