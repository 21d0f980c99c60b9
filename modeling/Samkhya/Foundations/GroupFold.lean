import Mathlib

/-!
# Grouping a sorted stream

A stream that is sorted by a key is grouped in one pass: the open group takes
an item of its key in, and is closed by the first item of another.  The lines
are then one for each key, in order, and the line of a key is what its items
fold to (`tracks_run`).
-/

namespace Samkhya
namespace GroupFold

universe u v w

variable {α : Type u} {κ : Type v} {σ : Type w}

/-- The closed groups and the open one. -/
structure Grouping (κ : Type v) (σ : Type w) where
  done : List (κ × σ)
  current : Option (κ × σ)

namespace Grouping

def empty : Grouping κ σ where
  done := []
  current := none

/-- All lines, with that of the open group last. -/
def lines (g : Grouping κ σ) : List (κ × σ) :=
  g.done ++ g.current.toList

/-- Take an item in, closing the open group if its key is another. -/
def step
    [DecidableEq κ]
    (key : α → κ)
    (first : α → σ)
    (next : σ → α → σ)
    (g : Grouping κ σ)
    (a : α) : Grouping κ σ :=
  match g.current with
  | none => ⟨g.done, some (key a, first a)⟩
  | some (k, s) =>
      if k = key a then
        ⟨g.done, some (k, next s a)⟩
      else
        ⟨g.done ++ [(k, s)], some (key a, first a)⟩

end Grouping

/-- What the items of one group fold to. -/
def foldGroup
    (first : α → σ)
    (next : σ → α → σ) : List α → Option σ
  | [] => none
  | a :: rest => some (rest.foldl next (first a))

variable {key : α → κ} {first : α → σ} {next : σ → α → σ}

theorem foldGroup_append_singleton
    (l : List α)
    (a : α) :
    foldGroup first next (l ++ [a]) =
      match foldGroup first next l with
      | none => some (first a)
      | some s => some (next s a) := by
  cases l with
  | nil => rfl
  | cons b rest => simp [foldGroup]

/-- A property of folds: true of one item, and kept by every further one. -/
theorem foldGroup_induction
    {P : List α → σ → Prop}
    (hfirst : ∀ a, P [a] (first a))
    (hnext : ∀ l s a, P l s → P (l ++ [a]) (next s a))
    {l : List α}
    {s : σ}
    (h : foldGroup first next l = some s) :
    P l s := by
  induction l using List.reverseRecOn generalizing s with
  | nil =>
      cases h
  | append_singleton l a ih =>
      rw [foldGroup_append_singleton] at h
      cases hl : foldGroup first next l with
      | none =>
          rw [hl] at h
          cases l with
          | nil =>
              rw [← Option.some.inj h]
              exact hfirst a
          | cons b rest => cases hl
      | some s' =>
          rw [hl] at h
          rw [← Option.some.inj h]
          exact hnext l s' a (ih hl)

section Runs

variable [LinearOrder κ]

/-- The groups of the items taken in so far. -/
structure Tracks
    (key : α → κ)
    (first : α → σ)
    (next : σ → α → σ)
    (items : List α)
    (g : Grouping κ σ) : Prop where
  increasing : (g.lines.map Prod.fst).Pairwise (· < ·)
  mem_iff :
    ∀ k, k ∈ g.lines.map Prod.fst ↔ ∃ a ∈ items, key a = k
  folded :
    ∀ line ∈ g.lines,
      foldGroup first next (items.filter fun a => key a = line.1) =
        some line.2
  last : ∀ line, g.current = some line → ∀ a ∈ items, key a ≤ line.1
  started : g.current = none → items = []

theorem Tracks.empty :
    Tracks key first next [] .empty where
  increasing := by simp [Grouping.lines, Grouping.empty]
  mem_iff := by simp [Grouping.lines, Grouping.empty]
  folded := by simp [Grouping.lines, Grouping.empty]
  last := by simp [Grouping.empty]
  started _ := rfl

variable {items : List α} {g : Grouping κ σ} {a : α}

/-- The first item opens the first group. -/
theorem Tracks.open
    (h : Tracks key first next items g)
    (hcurrent : g.current = none) :
    Tracks key first next (items ++ [a])
      ⟨g.done, some (key a, first a)⟩ := by
  have hitems := h.started hcurrent
  subst hitems
  have hdone : g.done = [] := by
    have hnone : ∀ k, k ∉ g.lines.map Prod.fst := by
      intro k hk
      obtain ⟨b, hb, _⟩ := (h.mem_iff k).mp hk
      exact absurd hb List.not_mem_nil
    rw [Grouping.lines, hcurrent] at hnone
    cases hd : g.done with
    | nil => rfl
    | cons line rest =>
        rw [hd] at hnone
        exact absurd (by simp) (hnone line.1)
  rw [hdone]
  constructor
  · simp [Grouping.lines]
  · intro k
    simp [Grouping.lines, eq_comm]
  · simp [Grouping.lines, foldGroup]
  · simp
  · simp

/-- An item of the open group's key goes into it. -/
theorem Tracks.extend
    (h : Tracks key first next items g)
    {s : σ}
    (hcurrent : g.current = some (key a, s)) :
    Tracks key first next (items ++ [a])
      ⟨g.done, some (key a, next s a)⟩ := by
  have hlines : g.lines = g.done ++ [(key a, s)] := by
    rw [Grouping.lines, hcurrent]
    rfl
  have hincreasing := h.increasing
  have hmem := h.mem_iff
  have hfolded := h.folded
  rw [hlines, List.map_append] at hincreasing hmem
  rw [hlines] at hfolded
  constructor
  · simpa [Grouping.lines] using hincreasing
  · intro k
    have hk := hmem k
    simp only [Grouping.lines, Option.toList_some, List.map_append,
      List.map_cons, List.map_nil] at hk ⊢
    rw [hk]
    constructor
    · rintro ⟨b, hb, hkey⟩
      exact ⟨b, List.mem_append_left _ hb, hkey⟩
    · rintro ⟨b, hb, hkey⟩
      rcases List.mem_append.mp hb with hb | hb
      · exact ⟨b, hb, hkey⟩
      · rw [List.mem_singleton.mp hb] at hkey
        exact hk.mp (by simp [hkey])
  · intro line hline
    rcases List.mem_append.mp hline with hline | hline
    · -- a closed group has a smaller key
      have hlt : line.1 < key a :=
        (List.pairwise_append.mp hincreasing).2.2 line.1
          (List.mem_map_of_mem hline) (key a) (by simp)
      rw [List.filter_append, List.filter_cons_of_neg (by simp [hlt.ne']),
        List.filter_nil, List.append_nil]
      exact hfolded line (List.mem_append_left _ hline)
    · obtain rfl : line = (key a, next s a) := by
        simpa using hline
      have hopen := hfolded (key a, s) (by simp)
      rw [List.filter_append, List.filter_cons_of_pos (by simp),
        List.filter_nil, foldGroup_append_singleton, hopen]
  · intro line hline b hb
    obtain rfl := Option.some.inj hline
    rcases List.mem_append.mp hb with hb | hb
    · exact h.last _ hcurrent b hb
    · rw [List.mem_singleton.mp hb]
  · intro hnone
    cases hnone

/-- An item of a larger key closes the open group. -/
theorem Tracks.close
    (h : Tracks key first next items g)
    {k : κ}
    {s : σ}
    (hcurrent : g.current = some (k, s))
    (hlt : k < key a) :
    Tracks key first next (items ++ [a])
      ⟨g.done ++ [(k, s)], some (key a, first a)⟩ := by
  have hlines : g.lines = g.done ++ [(k, s)] := by
    rw [Grouping.lines, hcurrent]
    rfl
  have hlines' :
      (⟨g.done ++ [(k, s)], some (key a, first a)⟩ :
          Grouping κ σ).lines =
        g.lines ++ [(key a, first a)] := by
    rw [hlines]
    rfl
  have hbelow : ∀ b ∈ items, key b < key a := fun b hb =>
    (h.last _ hcurrent b hb).trans_lt hlt
  have hkeys : ∀ line ∈ g.lines, line.1 < key a := by
    intro line hline
    obtain ⟨b, hb, hkey⟩ :=
      (h.mem_iff line.1).mp (List.mem_map_of_mem hline)
    rw [← hkey]
    exact hbelow b hb
  constructor
  · rw [hlines', List.map_append, List.pairwise_append]
    refine ⟨h.increasing, by simp, ?_⟩
    intro k' hk' k'' hk''
    obtain ⟨line, hline, rfl⟩ := List.mem_map.mp hk'
    obtain rfl : k'' = key a := by simpa using hk''
    exact hkeys line hline
  · intro k'
    rw [hlines', List.map_append, List.mem_append, h.mem_iff k']
    simp only [List.map_cons, List.map_nil, List.mem_singleton,
      List.mem_append, or_and_right, exists_or, exists_eq_left]
    exact or_congr Iff.rfl eq_comm
  · intro line hline
    rw [hlines'] at hline
    rcases List.mem_append.mp hline with hline | hline
    · rw [List.filter_append,
        List.filter_cons_of_neg (by simp [(hkeys line hline).ne']),
        List.filter_nil, List.append_nil]
      exact h.folded line hline
    · obtain rfl : line = (key a, first a) := by
        simpa using hline
      have hnone : items.filter (fun b => key b = key a) = [] := by
        rw [List.filter_eq_nil_iff]
        intro b hb
        simpa using (hbelow b hb).ne
      rw [List.filter_append, hnone, List.filter_cons_of_pos (by simp),
        List.filter_nil]
      rfl
  · intro line hline b hb
    obtain rfl := Option.some.inj hline
    rcases List.mem_append.mp hb with hb | hb
    · exact (hbelow b hb).le
    · rw [List.mem_singleton.mp hb]
  · intro hnone
    cases hnone

/-- One item whose key is not below those before it. -/
theorem Tracks.step
    (h : Tracks key first next items g)
    (hsorted : ∀ b ∈ items, key b ≤ key a) :
    Tracks key first next (items ++ [a]) (g.step key first next a) := by
  unfold Grouping.step
  cases hcurrent : g.current with
  | none =>
      exact h.open hcurrent
  | some line =>
      obtain ⟨k, s⟩ := line
      by_cases hk : k = key a
      · subst hk
        simp only [if_true]
        exact h.extend hcurrent
      · simp only [if_neg hk]
        have hmem : k ∈ g.lines.map Prod.fst := by
          simp [Grouping.lines, hcurrent]
        obtain ⟨b, hb, hkey⟩ := (h.mem_iff k).mp hmem
        have hle : k ≤ key a := by
          rw [← hkey]
          exact hsorted b hb
        exact h.close hcurrent (lt_of_le_of_ne hle hk)

/-- The groups of a sorted stream. -/
theorem tracks_run
    (hsorted : items.Pairwise (fun a b => key a ≤ key b)) :
    Tracks key first next items
      (items.foldl (Grouping.step key first next) .empty) := by
  induction items using List.reverseRecOn with
  | nil =>
      exact Tracks.empty
  | append_singleton items a ih =>
      obtain ⟨hitems, _, hlast⟩ := List.pairwise_append.mp hsorted
      rw [List.foldl_append]
      refine (ih hitems).step fun b hb => ?_
      exact hlast b hb a (List.mem_singleton_self a)

end Runs

/-- What every item adds one to sums to the number of items. -/
theorem sum_lines_run
    [DecidableEq κ]
    (size : σ → Nat)
    (hfirst : ∀ a, size (first a) = 1)
    (hnext : ∀ s a, size (next s a) = size s + 1)
    (items : List α) :
    ((items.foldl (Grouping.step key first next) .empty).lines.map
        fun line => size line.2).sum =
      items.length := by
  induction items using List.reverseRecOn with
  | nil =>
      rfl
  | append_singleton items a ih =>
      rw [List.foldl_append, List.length_append, ← ih]
      generalize items.foldl (Grouping.step key first next) .empty = g
      simp only [List.foldl_cons, List.foldl_nil, Grouping.step]
      cases hcurrent : g.current with
      | none =>
          simp [Grouping.lines, hcurrent, hfirst]
      | some line =>
          obtain ⟨k, s⟩ := line
          by_cases hk : k = key a
          · simp [Grouping.lines, hcurrent, hk, hnext, Nat.add_assoc]
          · simp [Grouping.lines, hcurrent, hk, hfirst, Nat.add_assoc]

end GroupFold
end Samkhya
