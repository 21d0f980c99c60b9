import Mathlib.Data.List.GetD
import Mathlib.Tactic

/-!
# Arrays of cells updated in place

Two loops that summaries run over an array of cells: updating the cells at a
list of positions (`modifyAll`), and combining an array with a second one cell
by cell (`zipInto`, which like an in-place zip leaves the first array's length
alone).  Each has one lemma that reads a cell of the result.  `rowMajor`
addresses a matrix stored row after row; reading it so gives all its cells.
-/

namespace Samkhya
namespace CellArray

universe u

variable {α : Type u}

/-- Update the cells at the given positions, one after the other. -/
def modifyAll
    (f : α → α)
    (positions : List Nat)
    (cells : List α) : List α :=
  positions.foldl (fun cells p => cells.modify p f) cells

@[simp] theorem length_modifyAll
    (f : α → α)
    (positions : List Nat)
    (cells : List α) :
    (modifyAll f positions cells).length = cells.length := by
  unfold modifyAll
  induction positions generalizing cells with
  | nil =>
      rfl
  | cons p positions ih =>
      rw [List.foldl_cons, ih, List.length_modify]

/-- One cell after one update. -/
theorem getD_modify
    (f : α → α)
    (cells : List α)
    (p i : Nat)
    (d : α)
    (hi : i < cells.length) :
    (cells.modify p f).getD i d =
      if p = i then f (cells.getD i d) else cells.getD i d := by
  have hlength : i < (cells.modify p f).length := by
    rwa [List.length_modify]
  rw [List.getD_eq_getElem _ _ hlength,
    List.getD_eq_getElem _ _ hi, List.getElem_modify]

/-- Cells off the positions keep their value. -/
theorem getD_modifyAll_of_not_mem
    (f : α → α)
    {positions : List Nat}
    (cells : List α)
    {i : Nat}
    (d : α)
    (hi : i < cells.length)
    (hp : i ∉ positions) :
    (modifyAll f positions cells).getD i d = cells.getD i d := by
  unfold modifyAll
  induction positions generalizing cells with
  | nil =>
      rfl
  | cons p positions ih =>
      rw [List.mem_cons, not_or] at hp
      rw [List.foldl_cons,
        ih _ (by rwa [List.length_modify]) hp.2,
        getD_modify f cells p i d hi, if_neg (Ne.symm hp.1)]

/-- A cell at one of several different positions is updated once. -/
theorem getD_modifyAll_of_mem
    (f : α → α)
    {positions : List Nat}
    (hnodup : positions.Nodup)
    (cells : List α)
    {i : Nat}
    (d : α)
    (hi : i < cells.length)
    (hp : i ∈ positions) :
    (modifyAll f positions cells).getD i d =
      f (cells.getD i d) := by
  induction positions generalizing cells with
  | nil =>
      exact absurd hp List.not_mem_nil
  | cons p positions ih =>
      obtain ⟨hnot, hnodup⟩ := List.nodup_cons.mp hnodup
      have hi' : i < (cells.modify p f).length := by
        rwa [List.length_modify]
      have hfirst := getD_modify f cells p i d hi
      change
        (modifyAll f positions (cells.modify p f)).getD i d = _
      rcases List.mem_cons.mp hp with hip | hp
      · rw [getD_modifyAll_of_not_mem f _ d hi' (hip ▸ hnot),
          hfirst, if_pos hip.symm]
      · have hne : p ≠ i := by
          rintro rfl
          exact hnot hp
        rw [ih hnodup _ hi' hp, hfirst, if_neg hne]

/-- Combine the cells of a second array into the first. -/
def zipInto
    (f : α → α → α) : List α → List α → List α
  | a :: cells, b :: other => f a b :: zipInto f cells other
  | cells, _ => cells

@[simp] theorem length_zipInto
    (f : α → α → α)
    (cells other : List α) :
    (zipInto f cells other).length = cells.length := by
  fun_induction zipInto f cells other with
  | case1 a cells b other ih =>
      simp [ih]
  | case2 cells other _ =>
      rfl

/-- One cell of two combined arrays of one length. -/
theorem getD_zipInto
    (f : α → α → α)
    {cells other : List α}
    (hlength : cells.length = other.length)
    {i : Nat}
    (d : α)
    (hi : i < cells.length) :
    (zipInto f cells other).getD i d =
      f (cells.getD i d) (other.getD i d) := by
  induction cells generalizing other i with
  | nil =>
      exact absurd hi (Nat.not_lt_zero i)
  | cons a cells ih =>
      cases other with
      | nil =>
          cases hlength
      | cons b other =>
          cases i with
          | zero =>
              rfl
          | succ i =>
              exact ih (Nat.succ.inj hlength) (Nat.lt_of_succ_lt_succ hi)

/-- A count over a list is a count over its indices. -/
theorem countP_eq_card_filter
    (p : α → Bool)
    (xs : List α)
    (d : α) :
    xs.countP p =
      ((Finset.range xs.length).filter
        (fun i => p (xs.getD i d) = true)).card := by
  induction xs using List.reverseRecOn with
  | nil =>
      rfl
  | append_singleton xs x ih =>
      have hearlier :
          (Finset.range xs.length).filter
              (fun i => p ((xs ++ [x]).getD i d) = true) =
            (Finset.range xs.length).filter
              (fun i => p (xs.getD i d) = true) := by
        apply Finset.filter_congr
        intro i hi
        rw [List.getD_append _ _ _ _ (Finset.mem_range.mp hi)]
      have hlast : (xs ++ [x]).getD xs.length d = x := by
        rw [List.getD_append_right _ _ _ _ le_rfl, Nat.sub_self]
        rfl
      rw [List.countP_append, List.length_append,
        List.length_singleton, Finset.range_add_one,
        Finset.filter_insert, hearlier, hlast, ih]
      by_cases hx : p x = true
      · rw [if_pos hx, Finset.card_insert_of_notMem (by simp)]
        simp [hx]
      · rw [if_neg hx]
        simp [hx]

/-- Position of a cell in a matrix of `width` columns. -/
def rowMajor (width row column : Nat) : Nat :=
  row * width + column

theorem rowMajor_lt
    {depth width row column : Nat}
    (hrow : row < depth)
    (hcolumn : column < width) :
    rowMajor width row column < depth * width := by
  calc
    row * width + column < row * width + width :=
      Nat.add_lt_add_left hcolumn _
    _ = (row + 1) * width := by ring
    _ ≤ depth * width := Nat.mul_le_mul_right width hrow

/-- Different cells of the matrix have different positions. -/
theorem rowMajor_inj
    {width row column row' column' : Nat}
    (hcolumn : column < width)
    (hcolumn' : column' < width) :
    rowMajor width row column = rowMajor width row' column' ↔
      row = row' ∧ column = column' := by
  constructor
  · intro h
    unfold rowMajor at h
    have hwidth : 0 < width := Nat.zero_lt_of_lt hcolumn
    have hdiv : ∀ r c, c < width → (r * width + c) / width = r := by
      intro r c hc
      rw [Nat.mul_comm, Nat.mul_add_div hwidth,
        Nat.div_eq_of_lt hc, Nat.add_zero]
    have hrow : row = row' := by
      rw [← hdiv row column hcolumn, h, hdiv row' column' hcolumn']
    subst hrow
    exact ⟨rfl, Nat.add_left_cancel h⟩
  · rintro ⟨rfl, rfl⟩
    rfl

section Sums

/-- A list is what its indices read. -/
theorem map_getD_range
    (xs : List α)
    (d : α) :
    (List.range xs.length).map (fun i => xs.getD i d) = xs := by
  apply List.ext_getElem
  · rw [List.length_map, List.length_range]
  · intro i _ hi
    rw [List.getElem_map, List.getElem_range,
      List.getD_eq_getElem _ _ hi]

/-- Reading a matrix row by row reads all its cells in order. -/
theorem flatMap_rowMajor
    {cells : List α}
    {depth width : Nat}
    (h : cells.length = depth * width)
    (d : α) :
    (List.range depth).flatMap
        (fun i =>
          (List.range width).map
            (fun j => cells.getD (rowMajor width i j) d)) =
      cells := by
  have hpositions :
      (List.range depth).flatMap
          (fun i =>
            (List.range width).map (fun j => rowMajor width i j)) =
        List.range (depth * width) := by
    clear h
    induction depth with
    | zero =>
        simp
    | succ depth ih =>
        rw [List.range_succ, List.flatMap_append, ih, Nat.succ_mul,
          List.range_add]
        simp [rowMajor]
  calc
    _ =
        ((List.range depth).flatMap
          (fun i =>
            (List.range width).map
              (fun j => rowMajor width i j))).map
          (fun i => cells.getD i d) := by
      rw [List.map_flatMap]
      simp [List.map_map, Function.comp_def]
    _ = cells := by
      rw [hpositions, ← h, map_getD_range]

/-- Raising one cell raises the sum by as much. -/
theorem sum_map_modify
    {g : α → Nat}
    {f : α → α}
    {xs : List α}
    {i k : Nat}
    (hi : i < xs.length)
    (h : g (f (xs.get ⟨i, hi⟩)) = g (xs.get ⟨i, hi⟩) + k) :
    ((xs.modify i f).map g).sum = (xs.map g).sum + k := by
  induction xs generalizing i with
  | nil =>
      cases hi
  | cons x xs ih =>
      cases i with
      | zero =>
          rw [List.modify_zero_cons]
          simp only [List.map_cons, List.sum_cons]
          have hx : g (f x) = g x + k := h
          omega
      | succ i =>
          rw [List.modify_succ_cons]
          simp only [List.map_cons, List.sum_cons]
          have htail := ih (Nat.lt_of_succ_lt_succ hi) h
          omega

/-- One row of a matrix stored row after row. -/
def matrixRow
    (width row : Nat)
    (cells : List α) : List α :=
  (cells.drop (row * width)).take width

/-- The cells of a row are those that `rowMajor` addresses. -/
theorem matrixRow_eq_map
    {cells : List α}
    {depth width row : Nat}
    (h : cells.length = depth * width)
    (hrow : row < depth)
    (d : α) :
    matrixRow width row cells =
      (List.range width).map
        (fun j => cells.getD (rowMajor width row j) d) := by
  have hend : row * width + width ≤ cells.length := by
    calc
      row * width + width = (row + 1) * width := by ring
      _ ≤ depth * width := Nat.mul_le_mul_right width hrow
      _ = cells.length := h.symm
  apply List.ext_getElem
  · simp [matrixRow]
    omega
  · intro j hj _
    have hj : j < width := by
      simp [matrixRow] at hj
      omega
    have hcell : row * width + j < cells.length := by
      omega
    rw [List.getElem_map, List.getElem_range, rowMajor,
      List.getD_eq_getElem _ _ hcell]
    simp [matrixRow]

end Sums

section Deposits

universe v

variable {ω : Type v}

/-- What lands in a cell when every deposit goes to one cell. -/
def landed
    (target amount : ω → Nat)
    (deposits : List ω)
    (cell : Nat) : Nat :=
  (deposits.map
    (fun u => if target u = cell then amount u else 0)).sum

/-- All that is deposited. -/
def mass
    (amount : ω → Nat)
    (deposits : List ω) : Nat :=
  (deposits.map amount).sum

variable (target amount : ω → Nat)

@[simp] theorem landed_nil
    (cell : Nat) :
    landed target amount [] cell = 0 :=
  rfl

@[simp] theorem mass_nil : mass amount [] = 0 :=
  rfl

@[simp] theorem landed_append
    (xs ys : List ω)
    (cell : Nat) :
    landed target amount (xs ++ ys) cell =
      landed target amount xs cell + landed target amount ys cell := by
  simp [landed]

@[simp] theorem mass_append
    (xs ys : List ω) :
    mass amount (xs ++ ys) = mass amount xs + mass amount ys := by
  simp [mass]

/-- The order of the deposits does not matter. -/
theorem landed_perm
    {xs ys : List ω}
    (h : xs.Perm ys)
    (cell : Nat) :
    landed target amount xs cell = landed target amount ys cell :=
  (h.map _).sum_eq

theorem mass_perm
    {xs ys : List ω}
    (h : xs.Perm ys) :
    mass amount xs = mass amount ys :=
  (h.map _).sum_eq

/-- Deposits that all go to one of `width` cells are found in them. -/
theorem sum_landed
    {deposits : List ω}
    {width : Nat}
    (h : ∀ u ∈ deposits, target u < width) :
    ∑ cell ∈ Finset.range width, landed target amount deposits cell =
      mass amount deposits := by
  induction deposits with
  | nil =>
      simp
  | cons u deposits ih =>
      have hrest := ih fun v hv => h v (List.mem_cons_of_mem u hv)
      have hu := h u List.mem_cons_self
      simp only [landed, mass, List.map_cons, List.sum_cons,
        Finset.sum_add_distrib] at hrest ⊢
      rw [hrest, Finset.sum_ite_eq, if_pos (Finset.mem_range.mpr hu)]

end Deposits

end CellArray
end Samkhya
