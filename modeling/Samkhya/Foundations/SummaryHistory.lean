import Mathlib.Tactic

/-!
# Histories of mergeable summaries

A summary is a value that is built fresh from parameters, updated by one
operation at a time and merged with other summaries; each of the three may
fail.  A history is any tree of these steps.  The invariant rule
`Summary.Invariant.of_run` carries a relation between the operations below a
node and the value computed there from the three steps to every history that
runs to a value.
-/

namespace Samkhya

universe u v w x

/-- A mergeable summary with parameters `π`, operations `ω` and values `σ`. -/
structure Summary
    (π : Type u)
    (ω : Type v)
    (σ : Type w)
    (ε : Type x) where
  fresh : π → Except ε σ
  step : σ → ω → Except ε σ
  merge : σ → σ → Except ε σ

/-- A tree of constructions, updates and merges. -/
inductive History (π : Type u) (ω : Type v) where
  | fresh (p : π)
  | step (h : History π ω) (op : ω)
  | merge (left right : History π ω)

namespace History

variable {π : Type u} {ω : Type v} {σ : Type w} {ε : Type x}

/-- The value a history computes, or its first failure. -/
def run
    (S : Summary π ω σ ε) :
    History π ω → Except ε σ
  | fresh p => S.fresh p
  | step h op => do
      let s ← h.run S
      S.step s op
  | merge left right => do
      let s ← left.run S
      let t ← right.run S
      S.merge s t

/-- All operations of a history. -/
def ops : History π ω → List ω
  | fresh _ => []
  | step h op => h.ops ++ [op]
  | merge left right => left.ops ++ right.ops

end History

/-- A bind succeeds through a successful first half. -/
theorem except_bind_eq_ok
    {ε : Type u} {α β : Type v}
    {x : Except ε α}
    {f : α → Except ε β}
    {b : β}
    (h : (x >>= f) = .ok b) :
    ∃ a, x = .ok a ∧ f a = .ok b := by
  cases x with
  | error e =>
      cases h
  | ok a =>
      exact ⟨a, rfl, h⟩

theorem except_bind_eq_ok_iff
    {ε : Type u} {α β : Type v}
    {x : Except ε α}
    {f : α → Except ε β}
    {b : β} :
    (x >>= f) = .ok b ↔ ∃ a, x = .ok a ∧ f a = .ok b := by
  constructor
  · exact except_bind_eq_ok
  · rintro ⟨a, rfl, h⟩
    exact h

namespace Summary

variable {π : Type u} {ω : Type v} {σ : Type w} {ε : Type x}

/-- A relation between operations and value that every step keeps. -/
structure Invariant
    (S : Summary π ω σ ε)
    (I : List ω → σ → Prop) : Prop where
  fresh : ∀ p s, S.fresh p = .ok s → I [] s
  step :
    ∀ os s op t, I os s → S.step s op = .ok t → I (os ++ [op]) t
  merge :
    ∀ os s os' t r, I os s → I os' t →
      S.merge s t = .ok r → I (os ++ os') r

/-- An invariant of the steps holds after every history. -/
theorem Invariant.of_run
    {S : Summary π ω σ ε}
    {I : List ω → σ → Prop}
    (hI : S.Invariant I)
    {h : History π ω}
    {s : σ}
    (hrun : h.run S = .ok s) :
    I h.ops s := by
  induction h generalizing s with
  | fresh p =>
      exact hI.fresh p s hrun
  | step h op ih =>
      obtain ⟨s', hs', hstep⟩ := except_bind_eq_ok hrun
      exact hI.step h.ops s' op s (ih hs') hstep
  | merge left right ihl ihr =>
      obtain ⟨s', hs', hrest⟩ := except_bind_eq_ok hrun
      obtain ⟨t', ht', hmerge⟩ := except_bind_eq_ok hrest
      exact
        hI.merge left.ops s' right.ops t' s (ihl hs') (ihr ht')
          hmerge

end Summary

end Samkhya
