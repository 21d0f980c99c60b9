import Samkhya.Foundations.SummaryHistory

/-!
# Summaries that merge to one value in any order

A summary is order free when its values record their operations up to a
relation on operation lists, such as reordering: every step of one parameter
succeeds and keeps the record, and two values with related records are equal.
Any tree of constructions, updates and merges of that parameter then computes
what the operations in a row compute (`OrderFree.run_eq_foldlM`).  So does a
tree whose leaves are values that were built elsewhere, each from a list of
operations of its own (`OrderFree.run_parts`).
-/

namespace Samkhya

universe u v w x

namespace History

variable {π : Type u} {ω : Type v} {σ : Type w} {ε : Type x}

/-- The parameters of all constructions of a history. -/
def params : History π ω → List π
  | fresh p => [p]
  | step h _ => h.params
  | merge left right => left.params ++ right.params

/-- One construction, then the operations in order. -/
def ofList (p : π) (ops : List ω) : History π ω :=
  ops.foldl step (fresh p)

@[simp] theorem ofList_append_singleton
    (p : π)
    (ops : List ω)
    (op : ω) :
    ofList p (ops ++ [op]) = step (ofList p ops) op := by
  simp [ofList]

@[simp] theorem params_ofList
    (p : π)
    (ops : List ω) :
    (ofList p ops).params = [p] := by
  induction ops using List.reverseRecOn with
  | nil =>
      rfl
  | append_singleton ops op ih =>
      simpa [params] using ih

@[simp] theorem ops_ofList
    (p : π)
    (items : List ω) :
    (ofList p items).ops = items := by
  induction items using List.reverseRecOn with
  | nil =>
      rfl
  | append_singleton items op ih =>
      simp [ops, ih]

/-- A history without merges runs its operations one after the other. -/
theorem run_ofList
    (S : Summary π ω σ ε)
    (p : π)
    (items : List ω) :
    (ofList p items).run S =
      (S.fresh p >>= fun s => items.foldlM S.step s) := by
  induction items using List.reverseRecOn with
  | nil =>
      simp [ofList, run]
  | append_singleton items op ih =>
      simp [run, ih, List.foldlM_append]

/-- A history whose constructions are replaced by histories. -/
def graft
    {ρ : Type u}
    (build : ρ → History π ω) : History ρ ω → History π ω
  | fresh r => build r
  | step h op => step (h.graft build) op
  | merge left right => merge (left.graft build) (right.graft build)

section Graft

variable {ρ : Type u} {ε' : Type x}

theorem mapError_bind
    (f : ε → ε')
    (x : Except ε σ)
    (g : σ → Except ε σ) :
    (x >>= g).mapError f =
      x.mapError f >>= fun s => (g s).mapError f := by
  cases x <;> rfl

/-- What the constructions build, the steps and the merges go on with. -/
theorem run_graft
    {S : Summary π ω σ ε}
    {T : Summary ρ ω σ ε'}
    {f : ε → ε'}
    {build : ρ → History π ω}
    (hfresh : ∀ r, T.fresh r = ((build r).run S).mapError f)
    (hstep : ∀ s op, T.step s op = (S.step s op).mapError f)
    (hmerge : ∀ s t, T.merge s t = (S.merge s t).mapError f)
    (h : History ρ ω) :
    h.run T = ((h.graft build).run S).mapError f := by
  induction h with
  | fresh r => exact hfresh r
  | step h op ih =>
      simp only [run, graft, mapError_bind, ih, hstep]
  | merge left right ihl ihr =>
      simp only [run, graft, mapError_bind, ihl, ihr, hmerge]

/-- If nothing can be constructed, a history fails as a construction does. -/
theorem run_eq_error
    {T : Summary ρ ω σ ε'}
    {e : ε'}
    (hfresh : ∀ r, T.fresh r = .error e)
    (h : History ρ ω) :
    h.run T = .error e := by
  induction h with
  | fresh r => exact hfresh r
  | step h op ih =>
      rw [run, ih]
      rfl
  | merge left right ihl ihr =>
      rw [run, ihl]
      rfl

theorem eq_of_mem_params_graft
    {p q : π}
    {items : ρ → List ω}
    {h : History ρ ω}
    (hq : q ∈ (h.graft fun r => ofList p (items r)).params) :
    q = p := by
  induction h with
  | fresh r => simpa [graft] using hq
  | step h op ih => exact ih hq
  | merge left right ihl ihr =>
      rcases List.mem_append.mp hq with hleft | hright
      · exact ihl hleft
      · exact ihr hright

theorem ops_graft_perm
    (p : π)
    (items : ρ → List ω)
    (h : History ρ ω) :
    (h.graft fun r => ofList p (items r)).ops.Perm
      (h.params.flatMap items ++ h.ops) := by
  induction h with
  | fresh r => simp [graft, params, ops]
  | step h op ih =>
      have hadded := ih.append_right [op]
      simpa [graft, params, ops, List.append_assoc] using hadded
  | merge left right ihl ihr =>
      have hboth := ihl.append ihr
      refine hboth.trans ?_
      simp only [params, ops, List.flatMap_append, List.append_assoc]
      exact
        (List.perm_append_left_iff _).mpr
          (List.perm_append_comm_assoc _ _ _)

end Graft

end History

namespace Summary

variable {π : Type u} {ω : Type v} {σ : Type w} {ε : Type x}

/--
Values record their operations: steps of one parameter succeed and keep the
record, and operations that are the same leave one value.
-/
structure OrderFree
    (S : Summary π ω σ ε)
    (Same : List ω → List ω → Prop)
    (Records : π → List ω → σ → Prop) : Prop where
  fresh : ∀ p s, S.fresh p = .ok s → Records p [] s
  step :
    ∀ p os s op, Records p os s →
      ∃ t, S.step s op = .ok t ∧ Records p (os ++ [op]) t
  merge :
    ∀ p os s os' t, Records p os s → Records p os' t →
      ∃ r, S.merge s t = .ok r ∧ Records p (os ++ os') r
  unique :
    ∀ p os s os' t, Same os os' →
      Records p os s → Records p os' t → s = t

variable
  {S : Summary π ω σ ε}
  {Same : List ω → List ω → Prop}
  {Records : π → List ω → σ → Prop}

/-- A history of one accepted parameter runs, and records its operations. -/
theorem OrderFree.exists_run
    (hS : S.OrderFree Same Records)
    {p : π}
    {s : σ}
    (hp : S.fresh p = .ok s)
    (h : History π ω)
    (hparams : ∀ q ∈ h.params, q = p) :
    ∃ t, h.run S = .ok t ∧ Records p h.ops t := by
  induction h with
  | fresh q =>
      have hq : q = p := hparams q (List.mem_singleton_self q)
      subst hq
      exact ⟨s, hp, hS.fresh q s hp⟩
  | step h op ih =>
      obtain ⟨t, hrun, ht⟩ := ih hparams
      obtain ⟨t', hstep, ht'⟩ := hS.step p h.ops t op ht
      refine ⟨t', ?_, ht'⟩
      rw [History.run, hrun]
      exact hstep
  | merge left right ihl ihr =>
      obtain ⟨t, hleft, ht⟩ :=
        ihl fun q hq => hparams q (List.mem_append_left _ hq)
      obtain ⟨t', hright, ht'⟩ :=
        ihr fun q hq => hparams q (List.mem_append_right _ hq)
      obtain ⟨r, hmerge, hr⟩ := hS.merge p _ t _ t' ht ht'
      refine ⟨r, ?_, hr⟩
      rw [History.run, hleft, hright]
      exact hmerge

/-- Histories of one parameter with the same operations agree. -/
theorem OrderFree.run_eq
    (hS : S.OrderFree Same Records)
    {p : π}
    {s : σ}
    (hp : S.fresh p = .ok s)
    {h h' : History π ω}
    (hparams : ∀ q ∈ h.params, q = p)
    (hparams' : ∀ q ∈ h'.params, q = p)
    (hops : Same h.ops h'.ops) :
    h.run S = h'.run S := by
  obtain ⟨t, hrun, ht⟩ := hS.exists_run hp h hparams
  obtain ⟨t', hrun', ht'⟩ := hS.exists_run hp h' hparams'
  rw [hrun, hrun', hS.unique p _ t _ t' hops ht ht']

/-- Every history computes what its operations in a row compute. -/
theorem OrderFree.run_eq_foldlM
    (hS : S.OrderFree Same Records)
    {p : π}
    {s : σ}
    (hp : S.fresh p = .ok s)
    {h : History π ω}
    (hparams : ∀ q ∈ h.params, q = p)
    {items : List ω}
    (hops : Same h.ops items) :
    h.run S = items.foldlM S.step s := by
  have hrun :
      h.run S = (History.ofList p items).run S :=
    hS.run_eq hp hparams (by simp) (by simpa using hops)
  rw [hrun, History.run_ofList, hp]
  rfl

/-- Parts that were built apart merge to what all their operations build. -/
theorem OrderFree.run_parts
    (hS : S.OrderFree Same Records)
    (hSame : ∀ {os os'}, os.Perm os' → Same os os')
    {p : π}
    {s : σ}
    (hp : S.fresh p = .ok s)
    {ρ : Type u}
    {ε' : Type x}
    {T : Summary ρ ω σ ε'}
    {f : ε → ε'}
    {items : ρ → List ω}
    (hfresh : ∀ r, T.fresh r = ((items r).foldlM S.step s).mapError f)
    (hstep : ∀ s op, T.step s op = (S.step s op).mapError f)
    (hmerge : ∀ s t, T.merge s t = (S.merge s t).mapError f)
    {h : History ρ ω}
    {all : List ω}
    (hall : (h.params.flatMap items ++ h.ops).Perm all) :
    h.run T = (all.foldlM S.step s).mapError f := by
  have hbuild :
      ∀ r, T.fresh r =
        ((History.ofList p (items r)).run S).mapError f := by
    intro r
    rw [hfresh, History.run_ofList, hp]
    rfl
  rw [History.run_graft hbuild hstep hmerge,
    hS.run_eq_foldlM hp (fun q hq => History.eq_of_mem_params_graft hq)
      (hSame ((History.ops_graft_perm p items h).trans hall))]

end Summary

end Samkhya
