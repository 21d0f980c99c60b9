import Mathlib

/-!
# Sessions side by side

A step takes a state and an event to a state, or refuses the event.  Sessions
side by side interleave: an event belongs to one of them and leaves the others
alone.  A trace runs exactly when the events of every session run by themselves
(`run_together_iff`), so what holds of each session's own runs holds under every
interleaving.

A host may hold events back, depending on what it has seen of the sessions.  It
only takes interleavings away (`run_together_of_run_hosted`).
-/

namespace Samkhya
namespace Sessions

universe u v w

section Runs

variable {σ : Type u} {ε : Type v} (step : σ → ε → Option σ)

/-- Events one after the other, as long as none is refused. -/
def run : σ → List ε → Option σ
  | s, [] => some s
  | s, e :: rest => (step s e).bind fun t => run t rest

variable {step} {s t : σ} {events : List ε}

theorem run_append
    (events rest : List ε) :
    run step s (events ++ rest) =
      (run step s events).bind fun t => run step t rest := by
  induction events generalizing s with
  | nil => rfl
  | cons e events ih =>
      cases hstep : step s e with
      | none => simp [run, hstep]
      | some t => simp [run, hstep, ih]

/-- What holds of the events so far and the state is kept by every step. -/
theorem run_invariant
    {I : List ε → σ → Prop}
    (hstart : I [] s)
    (hkept :
      ∀ past s e t, I past s → step s e = some t → I (past ++ [e]) t)
    (hrun : run step s events = some t) :
    I events t := by
  induction events using List.reverseRecOn generalizing t with
  | nil =>
      obtain rfl := Option.some.inj hrun
      exact hstart
  | append_singleton events e ih =>
      rw [run_append] at hrun
      obtain ⟨middle, hmiddle, hlast⟩ := Option.bind_eq_some_iff.mp hrun
      obtain ⟨t', hstep, hdone⟩ := Option.bind_eq_some_iff.mp hlast
      obtain rfl := Option.some.inj hdone
      exact hkept events middle e t' (ih hmiddle) hstep

/-- A step that always lowers a measure leaves room for few events. -/
theorem length_add_le_of_run
    {measure : σ → Nat}
    (hlower : ∀ s e t, step s e = some t → measure t < measure s)
    (hrun : run step s events = some t) :
    events.length + measure t ≤ measure s := by
  induction events generalizing s with
  | nil =>
      obtain rfl := Option.some.inj hrun
      simp
  | cons e events ih =>
      obtain ⟨middle, hstep, hrest⟩ := Option.bind_eq_some_iff.mp hrun
      have hmeasure := hlower s e middle hstep
      have hlength := ih hrest
      rw [List.length_cons]
      omega

/-- Where something can always be done until all is done, a run gets there. -/
theorem exists_run_of_progress
    {I done : σ → Prop}
    {allowed : ε → Prop}
    {measure : σ → Nat}
    (hprogress :
      ∀ s, I s → ¬ done s →
        ∃ e t, allowed e ∧ step s e = some t ∧ I t)
    (hlower : ∀ s e t, step s e = some t → measure t < measure s)
    (hs : I s) :
    ∃ events t, (∀ e ∈ events, allowed e) ∧
      run step s events = some t ∧ done t := by
  induction hn : measure s using Nat.strong_induction_on generalizing s with
  | _ n ih =>
      by_cases hdone : done s
      · exact ⟨[], s, by simp, rfl, hdone⟩
      · obtain ⟨e, middle, hallowed, hstep, hmiddle⟩ :=
          hprogress s hs hdone
        have hmeasure := hlower s e middle hstep
        obtain ⟨events, t, hevents, hrun, ht⟩ :=
          ih (measure middle) (by omega) hmiddle rfl
        refine ⟨e :: events, t, ?_, ?_, ht⟩
        · simpa [hallowed] using hevents
        · simpa [run, hstep] using hrun

end Runs

section Together

variable
  {ι : Type u} [DecidableEq ι]
  {σ : Type v}
  {ε : Type w}
  {step : ι → σ → ε → Option σ}

/-- One event of one session. -/
def together
    (step : ι → σ → ε → Option σ)
    (s : ι → σ)
    (event : ι × ε) : Option (ι → σ) :=
  (step event.1 (s event.1) event.2).map (Function.update s event.1)

/-- The events of one session, in their order. -/
def mine (i : ι) (trace : List (ι × ε)) : List ε :=
  (trace.filter fun event => event.1 = i).map Prod.snd

theorem mine_cons_self
    (i : ι)
    (e : ε)
    (trace : List (ι × ε)) :
    mine i ((i, e) :: trace) = e :: mine i trace := by
  simp [mine]

theorem mine_cons_of_ne
    {i j : ι}
    (h : j ≠ i)
    (e : ε)
    (trace : List (ι × ε)) :
    mine i ((j, e) :: trace) = mine i trace := by
  simp [mine, h]

/-- An interleaving runs exactly when each session's own events do. -/
theorem run_together_iff
    {s t : ι → σ}
    {trace : List (ι × ε)} :
    run (together step) s trace = some t ↔
      ∀ i, run (step i) (s i) (mine i trace) = some (t i) := by
  induction trace generalizing s with
  | nil => simp [run, mine, funext_iff]
  | cons event trace ih =>
      obtain ⟨j, e⟩ := event
      cases hstep : step j (s j) e with
      | none =>
          simp only [run, together, hstep, Option.map_none,
            Option.bind_none, reduceCtorEq, false_iff, not_forall]
          refine ⟨j, ?_⟩
          simp [mine_cons_self, run, hstep]
      | some s' =>
          simp only [run, together, hstep, Option.map_some,
            Option.bind_some, ih]
          refine forall_congr' fun i => ?_
          by_cases hij : j = i
          · subst hij
            simp [mine_cons_self, run, hstep]
          · simp [mine_cons_of_ne hij, Function.update_of_ne (Ne.symm hij)]

end Together

section Hosted

variable
  {η : Type u}
  {ι : Type v} [DecidableEq ι]
  {σ : Type w}
  {ε : Type w}
  {admits : η → ι → ε → Bool}
  {sees : η → ι → σ → η}
  {step : ι → σ → ε → Option σ}

/-- One event of one session, if the host admits it; the host sees its state. -/
def hosted
    (admits : η → ι → ε → Bool)
    (sees : η → ι → σ → η)
    (step : ι → σ → ε → Option σ)
    (s : η × (ι → σ))
    (event : ι × ε) : Option (η × (ι → σ)) :=
  if admits s.1 event.1 event.2 then
    (step event.1 (s.2 event.1) event.2).map fun t =>
      (sees s.1 event.1 t, Function.update s.2 event.1 t)
  else
    none

/-- What a step of a host is made of. -/
theorem hosted_eq_some_iff
    {s t : η × (ι → σ)}
    {i : ι}
    {e : ε} :
    hosted admits sees step s (i, e) = some t ↔
      admits s.1 i e = true ∧
        ∃ c, step i (s.2 i) e = some c ∧
          t = (sees s.1 i c, Function.update s.2 i c) := by
  unfold hosted
  split_ifs with hadmits
  · simp only [Option.map_eq_some_iff, hadmits, true_and]
    constructor
    · rintro ⟨c, hc, rfl⟩
      exact ⟨c, hc, rfl⟩
    · rintro ⟨c, hc, rfl⟩
      exact ⟨c, hc, rfl⟩
  · simp [hadmits]

/-- What runs on a host runs without one. -/
theorem run_together_of_run_hosted
    {s t : η × (ι → σ)}
    {trace : List (ι × ε)}
    (h : run (hosted admits sees step) s trace = some t) :
    run (together step) s.2 trace = some t.2 := by
  induction trace generalizing s with
  | nil =>
      obtain rfl := Option.some.inj h
      rfl
  | cons event trace ih =>
      obtain ⟨i, e⟩ := event
      obtain ⟨middle, hstep, hrest⟩ := Option.bind_eq_some_iff.mp h
      obtain ⟨_, c, hc, rfl⟩ := hosted_eq_some_iff.mp hstep
      have hmine := ih hrest
      simp only at hmine
      simp [run, together, hc, hmine]

/-- A run of one session whose events the host admits, the others at rest. -/
theorem run_hosted_single
    {I : η → σ → Prop}
    {allowed : ε → Prop}
    {i : ι}
    (hadmits :
      ∀ w c e c', I w c → allowed e → step i c e = some c' →
        admits w i e = true ∧ I (sees w i c') c')
    {w : η}
    {s : ι → σ}
    {t : σ}
    {events : List ε}
    (hs : I w (s i))
    (hallowed : ∀ e ∈ events, allowed e)
    (h : run (step i) (s i) events = some t) :
    ∃ w',
      run (hosted admits sees step) (w, s) (events.map fun e => (i, e)) =
        some (w', Function.update s i t) := by
  induction events generalizing w s with
  | nil =>
      obtain rfl := Option.some.inj h
      exact ⟨w, by simp [run]⟩
  | cons e events ih =>
      obtain ⟨c, hc, hrest⟩ := Option.bind_eq_some_iff.mp h
      rw [List.forall_mem_cons] at hallowed
      obtain ⟨hallows, hnext⟩ := hadmits w (s i) e c hs hallowed.1 hc
      have hself : Function.update s i c i = c :=
        Function.update_self i c s
      obtain ⟨w', hrun⟩ :=
        @ih (sees w i c) (Function.update s i c)
          (by rwa [hself]) hallowed.2 (by rwa [hself])
      refine ⟨w', ?_⟩
      have hone :
          hosted admits sees step (w, s) (i, e) =
            some (sees w i c, Function.update s i c) :=
        hosted_eq_some_iff.mpr ⟨hallows, c, hc, rfl⟩
      rw [List.map_cons, run, hone, Option.bind_some, hrun,
        Function.update_idem]

end Hosted

end Sessions
end Samkhya
