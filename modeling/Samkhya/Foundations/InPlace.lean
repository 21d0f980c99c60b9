import Samkhya.Foundations.CellArray

/-!
# Methods that write to their receiver

A method that mutates its receiver and may fail is a program over the receiver;
what it wrote before a failure stays written.  `Computes` compares it with a
pure function: it returns with the function's value in the receiver, or it fails
and the receiver is as it was.
-/

namespace Samkhya

universe u

namespace InPlace

variable {ε σ β : Type}

/-- The method leaves the pure result, and on failure the old receiver. -/
def Computes
    (m : EStateM ε σ Unit)
    (s : σ)
    (result : Except ε σ) : Prop :=
  m.run s =
    match result with
    | .ok r => .ok () r
    | .error e => .error e s

/-- A loop that rewrites the receiver once for every element. -/
def forEach
    (xs : List β)
    (body : β → σ → σ) : EStateM ε σ Unit :=
  xs.forM fun x => modify (body x)

/-- The loop leaves what a fold computes, and does not fail. -/
theorem run_forEach
    (xs : List β)
    (body : β → σ → σ)
    (s : σ) :
    (forEach xs body : EStateM ε σ Unit).run s =
      .ok () (xs.foldl (fun s x => body x s) s) := by
  induction xs generalizing s with
  | nil =>
      rfl
  | cons x xs ih =>
      exact ih (body x s)

end InPlace

namespace CellArray

variable {α : Type u}

/-- Writing behind the end of an array changes nothing. -/
theorem foldl_zipIdx_beyond
    (f : α → α → α)
    (cells other : List α)
    {k : Nat}
    (hk : cells.length ≤ k) :
    (other.zipIdx k).foldl
        (fun cells b => cells.modify b.2 (fun a => f a b.1)) cells =
      cells := by
  induction other generalizing k with
  | nil =>
      rfl
  | cons b other ih =>
      rw [List.zipIdx_cons, List.foldl_cons, List.modify_eq_self hk]
      exact ih (Nat.le_succ_of_le hk)

/-- The loop over an array and a second one, behind cells already done. -/
theorem foldl_zipIdx_append
    (f : α → α → α)
    (front cells other : List α) :
    (other.zipIdx front.length).foldl
        (fun cells b => cells.modify b.2 (fun a => f a b.1))
        (front ++ cells) =
      front ++ zipInto f cells other := by
  induction other generalizing front cells with
  | nil =>
      cases cells <;> rfl
  | cons b other ih =>
      cases cells with
      | nil =>
          rw [foldl_zipIdx_beyond f _ _ (by simp)]
          rfl
      | cons a cells =>
          have hstep :
              (front ++ a :: cells).modify front.length
                  (fun a => f a b) =
                front ++ [f a b] ++ cells := by
            rw [List.modify_eq_take_cons_drop (by simp)]
            simp
          have hnext := ih (front ++ [f a b]) cells
          rw [List.length_append, List.length_singleton] at hnext
          rw [List.zipIdx_cons, List.foldl_cons, hstep, hnext, zipInto,
            List.append_assoc]
          rfl

/-- The loop over an array and a second one, cell by cell. -/
theorem foldl_zipIdx_modify
    (f : α → α → α)
    (cells other : List α) :
    other.zipIdx.foldl
        (fun cells b => cells.modify b.2 (fun a => f a b.1)) cells =
      zipInto f cells other :=
  foldl_zipIdx_append f [] cells other

end CellArray

namespace InPlace

open CellArray

variable {ε σ α : Type}

/--
A loop over the cells that one field of the receiver holds.  `put` writes the
field that `cells` reads.
-/
theorem run_forEach_zipIdx
    (cells : σ → List α)
    (put : σ → List α → σ)
    (hread : ∀ s l, cells (put s l) = l)
    (hwrite : ∀ s l l', put (put s l) l' = put s l')
    (hself : ∀ s, put s (cells s) = s)
    (f : α → α → α)
    (other : List α)
    (s : σ) :
    (forEach other.zipIdx
        (fun b s =>
          put s ((cells s).modify b.2 (fun a => f a b.1))) :
        EStateM ε σ Unit).run s =
      .ok () (put s (zipInto f (cells s) other)) := by
  have hfold :
      ∀ (bs : List (α × Nat)) (s : σ),
        bs.foldl
            (fun s b =>
              put s ((cells s).modify b.2 (fun a => f a b.1))) s =
          put s
            (bs.foldl
              (fun cells b => cells.modify b.2 (fun a => f a b.1))
              (cells s)) := by
    intro bs
    induction bs with
    | nil =>
        intro s
        exact (hself s).symm
    | cons b bs ih =>
        intro s
        rw [List.foldl_cons, ih, hread, hwrite, List.foldl_cons]
  rw [run_forEach, hfold, foldl_zipIdx_modify]

end InPlace

end Samkhya
