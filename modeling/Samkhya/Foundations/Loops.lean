import Mathlib.Data.List.Basic
import Mathlib.Tactic

/-!
# Loops that may fail

A loop over a list whose body may fail is followed by a fold that cannot.  When
each round goes through and keeps the two states related, the loop goes through
and ends related to the fold.
-/

namespace Samkhya
namespace Loops

universe u v w

variable {m : Type u → Type v} [Monad m] [LawfulMonad m]
variable {α : Type w} {σ : Type u} {f : σ → α → m σ}

/-- A loop that goes through round by round, next to a fold. -/
theorem foldlM_simulates
    {τ : Type u}
    {g : τ → α → τ}
    {R : σ → τ → Prop}
    {l : List α}
    (hstep :
      ∀ a ∈ l, ∀ s t, R s t → ∃ s', f s a = pure s' ∧ R s' (g t a))
    {s : σ}
    {t : τ}
    (h : R s t) :
    ∃ s', l.foldlM f s = pure s' ∧ R s' (l.foldl g t) := by
  induction l generalizing s t with
  | nil =>
      exact ⟨s, rfl, h⟩
  | cons a l ih =>
      obtain ⟨s₁, hone, h₁⟩ := hstep a List.mem_cons_self s t h
      obtain ⟨s₂, hrest, h₂⟩ :=
        ih (fun b hb => hstep b (List.mem_cons_of_mem a hb)) h₁
      refine ⟨s₂, ?_, h₂⟩
      rw [List.foldlM_cons, hone, pure_bind]
      exact hrest

/-- A loop whose rounds go through and keep an invariant. -/
theorem foldlM_keeps
    {P : σ → Prop}
    {l : List α}
    (hstep : ∀ a ∈ l, ∀ s, P s → ∃ s', f s a = pure s' ∧ P s')
    {s : σ}
    (h : P s) :
    ∃ s', l.foldlM f s = pure s' ∧ P s' :=
  foldlM_simulates (g := fun (t : PUnit) _ => t) (R := fun s _ => P s)
    (fun a ha s _ hs => hstep a ha s hs) (t := .unit) h

/-- What every round that goes through keeps, a loop that does keeps. -/
theorem of_foldlM_eq_ok
    {ε : Type v}
    {f : σ → α → Except ε σ}
    {P : σ → Prop}
    {l : List α}
    (hstep : ∀ a ∈ l, ∀ s s', P s → f s a = .ok s' → P s')
    {s t : σ}
    (h : P s)
    (hrun : l.foldlM f s = .ok t) :
    P t := by
  induction l generalizing s with
  | nil =>
      obtain rfl := Except.ok.inj hrun
      exact h
  | cons a l ih =>
      rw [List.foldlM_cons] at hrun
      cases hone : f s a with
      | error e =>
          rw [hone] at hrun
          cases hrun
      | ok u =>
          rw [hone] at hrun
          exact
            ih (fun b hb => hstep b (List.mem_cons_of_mem a hb))
              (hstep a List.mem_cons_self s u h hone) hrun

end Loops
end Samkhya
