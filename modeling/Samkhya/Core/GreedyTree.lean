import Mathlib
import Samkhya.Core.Connectivity
import Samkhya.Foundations.SpanningGrowth

/-!
# The greedy spanning tree of the ceiling

The loop that grows the spanning tree does two things at once: it picks edges,
and it multiplies their degrees until the product saturates.  `treeSteps` is the
list of picks without the early exit, `cutProduct` the product with it
(`growTree_eq`).

The picks are a greedy growth along the arcs of the component
(`treeSteps_greedy`), one arc for each direction of an edge, weighing the degree
of the relation it leads to.  They reach the whole component.
-/

namespace Samkhya

open Saturating SpanningGrowth

namespace JoinGraph

/-- Attaching a relation through an edge, with its degree as weight. -/
def Arc (g : JoinGraph) (component : List Nat) : Arcs Nat :=
  fun u v w =>
    u ∈ component ∧
    ∃ e ∈ g.edges,
      (u, v) ∈ e.orientations ∧
      w = (g.factorAt v e.attributeId).toNat

/-- The relations that the loop attaches, with their factors. -/
def treeSteps
    (g : JoinGraph)
    (component visited : List Nat) : List (Nat × Nat) :=
  if visited.length < component.length then
    match g.bestEdge component visited with
    | none => []
    | some (next, factor) =>
        (next, factor.toNat) ::
          treeSteps g component (visited ++ [next])
  else
    []
termination_by component.length - visited.length
decreasing_by
  rw [List.length_append, List.length_singleton]
  omega

/-- Multiply in the factors until the product saturates. -/
def cutProduct (bound : Nat) : List Nat → UInt64
  | [] => clampToU64 bound
  | factor :: rest =>
      let bound := satMul u128Max bound factor
      if bound ≥ u64Max then
        UInt64.ofNat u64Max
      else
        cutProduct bound rest

section CutProduct

theorem u64Max_le_u128Max : u64Max ≤ u128Max := by
  decide

theorem toNat_clampToU64
    (bound : Nat) :
    (clampToU64 bound).toNat = min bound u64Max := by
  unfold clampToU64
  split_ifs with h
  · rw [toNat_u64Max]
    exact (Nat.min_eq_right h).symm
  · rw [toNat_ofNat_of_le (by omega)]
    omega

/-- One factor: the exit, or the exact product. -/
theorem cutProduct_cons
    (bound factor : Nat)
    (rest : List Nat) :
    cutProduct bound (factor :: rest) =
      if u64Max ≤ bound * factor then
        UInt64.ofNat u64Max
      else
        cutProduct (bound * factor) rest := by
  have hmax := u64Max_le_u128Max
  have hsat : satMul u128Max bound factor =
      min (bound * factor) u128Max :=
    rfl
  rw [cutProduct]
  simp only [hsat]
  by_cases h : u64Max ≤ bound * factor
  · rw [if_pos h, if_pos (Nat.le_min.mpr ⟨h, hmax⟩)]
  · have hmin : min (bound * factor) u128Max = bound * factor :=
      Nat.min_eq_left (by omega)
    rw [hmin, if_neg h]

/-- The exit never cuts below the product. -/
theorem min_le_cutProduct
    (bound : Nat)
    (ws : List Nat) :
    min (bound * ws.prod) u64Max ≤ (cutProduct bound ws).toNat := by
  induction ws generalizing bound with
  | nil =>
      rw [cutProduct, toNat_clampToU64, List.prod_nil, Nat.mul_one]
  | cons w ws ih =>
      rw [cutProduct_cons, List.prod_cons, ← Nat.mul_assoc]
      split_ifs
      · rw [toNat_u64Max]
        exact Nat.min_le_right _ _
      · exact ih (bound * w)

/-- Without the exit the result is the product. -/
theorem toNat_cutProduct_of_ne
    {bound : Nat}
    {ws : List Nat}
    (h : cutProduct bound ws ≠ UInt64.ofNat u64Max) :
    (cutProduct bound ws).toNat = bound * ws.prod := by
  induction ws generalizing bound with
  | nil =>
      rw [cutProduct] at h ⊢
      rw [toNat_clampToU64, List.prod_nil, Nat.mul_one]
      apply Nat.min_eq_left
      by_contra hlt
      apply h
      unfold clampToU64
      rw [if_pos (by omega)]
  | cons w ws ih =>
      rw [cutProduct_cons] at h ⊢
      split_ifs at h ⊢ with hsat
      · exact absurd rfl h
      · rw [ih h, List.prod_cons, Nat.mul_assoc]

/-- The exit is not taken while the positive factors stay small. -/
theorem cutProduct_ne_of_lt
    {bound : Nat}
    {ws : List Nat}
    (h : bound * (ws.map (max 1)).prod < u64Max) :
    cutProduct bound ws ≠ UInt64.ofNat u64Max := by
  induction ws generalizing bound with
  | nil =>
      intro heq
      have hnat := congrArg UInt64.toNat heq
      rw [cutProduct, toNat_clampToU64, toNat_u64Max] at hnat
      rw [List.map_nil, List.prod_nil, Nat.mul_one] at h
      omega
  | cons w ws ih =>
      rw [List.map_cons, List.prod_cons, ← Nat.mul_assoc] at h
      have hpos : 0 < (ws.map (max 1)).prod := by
        apply List.prod_pos
        intro x hx
        obtain ⟨y, _, rfl⟩ := List.mem_map.mp hx
        exact Nat.lt_of_lt_of_le Nat.one_pos (Nat.le_max_left 1 y)
      have hle : bound * w ≤ bound * max 1 w :=
        Nat.mul_le_mul_left _ (Nat.le_max_right 1 w)
      have hfirst : bound * w < u64Max := by
        calc
          bound * w ≤ bound * max 1 w := hle
          _ ≤ bound * max 1 w * (ws.map (max 1)).prod :=
            Nat.le_mul_of_pos_right _ hpos
          _ < u64Max := h
      rw [cutProduct_cons, if_neg (not_le.mpr hfirst)]
      exact ih ((Nat.mul_le_mul_right _ hle).trans_lt h)

/-- Smaller factors in the same order make a smaller result. -/
theorem cutProduct_mono
    {bound bound' : Nat}
    {ws ws' : List Nat}
    (hbound : bound ≤ bound')
    (h : List.Forall₂ (· ≤ ·) ws ws') :
    (cutProduct bound ws).toNat ≤ (cutProduct bound' ws').toNat := by
  induction h generalizing bound bound' with
  | nil =>
      rw [cutProduct, cutProduct, toNat_clampToU64,
        toNat_clampToU64]
      exact min_le_min_right _ hbound
  | @cons w w' ws ws' hle _ ih =>
      have hmul := Nat.mul_le_mul hbound hle
      rw [cutProduct_cons, cutProduct_cons]
      split_ifs with hsat hsat' hsat'
      · exact le_rfl
      · exact absurd (hsat.trans hmul) hsat'
      · rw [toNat_u64Max]
        exact toNat_le_u64Max _
      · exact ih hmul

end CutProduct

section Scan

variable {g : JoinGraph} {component visited : List Nat}

/-- The scan has found something at least as cheap. -/
def AtMost (best : Option (Nat × UInt64)) (factor : UInt64) : Prop :=
  ∃ p, best = some p ∧ p.2 ≤ factor

/-- A consideration never gives up what it has for something dearer. -/
theorem AtMost.considerEdge
    {best : Option (Nat × UInt64)}
    {factor : UInt64}
    (h : AtMost best factor)
    (attributeId : AttributeId)
    (orientation : Nat × Nat) :
    AtMost
      (g.considerEdge component visited attributeId best orientation)
      factor := by
  obtain ⟨p, rfl, hp⟩ := h
  unfold JoinGraph.considerEdge
  simp only
  split_ifs with hfrontier hcomponent hbetter
  · exact ⟨p, rfl, hp⟩
  · exact ⟨p, rfl, hp⟩
  · have hlt : g.factorAt orientation.2 attributeId < p.2 := by
      simpa using hbetter
    exact ⟨_, rfl, UInt64.le_trans (UInt64.le_of_lt hlt) hp⟩
  · exact ⟨p, rfl, hp⟩

/-- Considering a crossing edge leaves nothing dearer. -/
theorem atMost_considerEdge
    {attributeId : AttributeId}
    {source target : Nat}
    (hsource : source ∈ visited)
    (htarget : target ∉ visited)
    (hcomponent : target ∈ component)
    (best : Option (Nat × UInt64)) :
    AtMost
      (g.considerEdge component visited attributeId best
        (source, target))
      (g.factorAt target attributeId) := by
  unfold JoinGraph.considerEdge
  simp only
  rw [if_neg (by simp [hsource, htarget]),
    if_neg (by simp [hcomponent])]
  split_ifs with hbetter
  · exact ⟨_, rfl, UInt64.le_refl _⟩
  · cases best with
    | none =>
        exact absurd rfl hbetter
    | some p =>
        exact ⟨p, rfl, UInt64.not_lt.mp (by simpa using hbetter)⟩

/-- What one element of a fold establishes and all others keep holds after it. -/
theorem foldl_establishes
    {α β : Type}
    {f : β → α → β}
    {P : β → Prop}
    (hkeep : ∀ b a, P b → P (f b a))
    {l : List α}
    {a : α}
    (ha : a ∈ l)
    (hset : ∀ b, P (f b a))
    (b : β) :
    P (l.foldl f b) := by
  induction l generalizing b with
  | nil =>
      cases ha
  | cons x l ih =>
      rcases List.mem_cons.mp ha with rfl | ha
      · exact
          List.foldlRecOn (motive := P) l f (hset b)
            fun b hb a _ => hkeep b a hb
      · exact ih ha (f b x)

/-- **The scan finds a cheapest crossing edge.** -/
theorem bestEdge_le
    {next target : Nat}
    {factor factor' : UInt64}
    (h : g.bestEdge component visited = some (next, factor))
    (hcross : g.Crossing component visited (target, factor')) :
    factor ≤ factor' := by
  obtain ⟨e, he, source, ho, hsource, htarget, hcomponent, hfactor⟩ :=
    hcross
  simp only at ho htarget hcomponent hfactor
  have hkeep :
      ∀ best (e : JoinEdge), AtMost best factor' →
        AtMost
          (e.orientations.foldl
            (g.considerEdge component visited e.attributeId) best)
          factor' := by
    intro best e hbest
    exact
      List.foldlRecOn
        (motive := fun best => AtMost best factor')
        _ _ hbest fun best hbest o _ => hbest.considerEdge _ o
  have hatMost : AtMost (g.bestEdge component visited) factor' := by
    unfold bestEdge
    apply
      foldl_establishes (P := fun best => AtMost best factor') hkeep
        he
    intro best
    apply
      foldl_establishes (P := fun best => AtMost best factor')
        (fun best o hbest => AtMost.considerEdge hbest _ o) ho
    intro best
    rw [hfactor]
    exact atMost_considerEdge hsource htarget hcomponent best
  obtain ⟨p, hp, hle⟩ := hatMost
  rw [h] at hp
  rw [← Option.some.inj hp] at hle
  exact hle

end Scan

section Steps

variable {g : JoinGraph} {c visited : List Nat}

/-- A crossing edge is an arc. -/
theorem Crossing.arc
    {next : Nat}
    {factor : UInt64}
    (h : g.Crossing c visited (next, factor))
    (hsub : ∀ x ∈ visited, x ∈ c) :
    ∃ u ∈ visited, g.Arc c u next factor.toNat := by
  obtain ⟨e, he, source, ho, hsource, _, _, hfactor⟩ := h
  simp only at ho hfactor
  rw [hfactor]
  exact ⟨source, hsource, hsub source hsource, e, he, ho, rfl⟩

/-- An arc that leaves the visited part of a component is a crossing edge. -/
theorem Arc.crossing
    {u v w : Nat}
    (h : g.Arc c u v w)
    (hc : c ∈ g.components)
    (hu : u ∈ visited)
    (hv : v ∉ visited) :
    ∃ factor : UInt64,
      factor.toNat = w ∧ g.Crossing c visited (v, factor) := by
  obtain ⟨huc, e, he, ho, rfl⟩ := h
  exact
    ⟨g.factorAt v e.attributeId, rfl, e, he, u, ho, hu, hv,
      component_closed hc huc he ho, rfl⟩

/-- While relations are missing, the scan finds an edge to one of them. -/
theorem exists_bestEdge
    (hc : c ∈ g.components)
    (hsub : ∀ x ∈ visited, x ∈ c)
    (hne : visited ≠ [])
    (hlt : visited.length < c.length) :
    ∃ p, g.bestEdge c visited = some p := by
  obtain ⟨u, hu⟩ := List.exists_mem_of_ne_nil visited hne
  have hmissing : ∃ v ∈ c, v ∉ visited := by
    by_contra hall
    push Not at hall
    have hle := ((component_nodup hc).subperm hall).length_le
    omega
  obtain ⟨v, hv, hnot⟩ := hmissing
  obtain ⟨p, hp⟩ := exists_crossing hc hsub hu hv hnot
  cases hbest : g.bestEdge c visited with
  | none =>
      exact absurd hp (not_crossing_of_bestEdge_eq_none hbest p)
  | some q =>
      exact ⟨q, rfl⟩

/-- What the loop keeps about the visited relations. -/
structure Visiting (g : JoinGraph) (c visited : List Nat) : Prop where
  component : c ∈ g.components
  sub : ∀ x ∈ visited, x ∈ c
  nodup : visited.Nodup
  ne_nil : visited ≠ []

theorem Visiting.root
    {root : Nat}
    (hc : c ∈ g.components)
    (hroot : root ∈ c) :
    g.Visiting c [root] where
  component := hc
  sub x hx := by
    rw [List.mem_singleton.mp hx]
    exact hroot
  nodup := List.nodup_singleton root
  ne_nil := List.cons_ne_nil _ _

theorem Visiting.next
    (h : g.Visiting c visited)
    {p : Nat × UInt64}
    (hcross : g.Crossing c visited p) :
    g.Visiting c (visited ++ [p.1]) := by
  obtain ⟨e, he, source, ho, hsource, hnot, hcomponent, _⟩ := hcross
  refine ⟨h.component, ?_, ?_, by simp⟩
  · intro x hx
    rcases List.mem_append.mp hx with hx | hx
    · exact h.sub x hx
    · rw [List.mem_singleton.mp hx]
      exact hcomponent
  · exact
      h.nodup.append (List.nodup_singleton _)
        (List.disjoint_singleton.mpr hnot)

/-- **The loop is the product of its picks, with the early exit.** -/
theorem growTree_eq
    (h : g.Visiting c visited)
    (bound : Nat) :
    g.growTree c visited bound =
      cutProduct bound (weights (g.treeSteps c visited)) := by
  fun_induction growTree g c visited bound with
  | case1 visited bound hlt hbest =>
      obtain ⟨p, hp⟩ :=
        exists_bestEdge h.component h.sub h.ne_nil hlt
      rw [hbest] at hp
      cases hp
  | case2 visited bound hlt next factor hbest bound' hsat =>
      rw [treeSteps, if_pos hlt, hbest]
      simp only [weights, List.map_cons]
      rw [cutProduct, if_pos hsat]
  | case3 visited bound hlt next factor hbest bound' hsat ih =>
      rw [ih (h.next (bestEdge_crossing hbest))]
      conv_rhs => rw [treeSteps, if_pos hlt, hbest]
      simp only [weights, List.map_cons]
      rw [cutProduct, if_neg hsat]
  | case4 visited bound hge =>
      rw [treeSteps, if_neg hge]
      rfl

/-- **The picks are a greedy growth.** -/
theorem treeSteps_greedy
    (h : g.Visiting c visited) :
    Greedy (g.Arc c) visited.toFinset (g.treeSteps c visited) ∧
      reached visited.toFinset (g.treeSteps c visited) =
        c.toFinset := by
  fun_induction treeSteps g c visited with
  | case1 visited hlt hbest =>
      obtain ⟨p, hp⟩ :=
        exists_bestEdge h.component h.sub h.ne_nil hlt
      rw [hbest] at hp
      cases hp
  | case2 visited hlt next factor hbest ih =>
      have hcross := bestEdge_crossing hbest
      obtain ⟨hgreedy, hreached⟩ := ih (h.next hcross)
      rw [toFinset_append_singleton] at hgreedy hreached
      obtain ⟨u, hu, harc⟩ := hcross.arc h.sub
      constructor
      · refine
          .attach harc (List.mem_toFinset.mpr hu) ?_ ?_ hgreedy
        · obtain ⟨_, _, _, _, _, hnot, _⟩ := hcross
          simpa using hnot
        · intro u' hu' v' hv' w' harc'
          obtain ⟨factor', rfl, hcross'⟩ :=
            harc'.crossing h.component (List.mem_toFinset.mp hu')
              (by simpa using hv')
          exact UInt64.le_iff_toNat_le.mp (bestEdge_le hbest hcross')
      · rw [reached_cons, hreached]
  | case3 visited hge =>
      refine ⟨.done _, ?_⟩
      rw [reached_nil]
      apply Finset.eq_of_subset_of_card_le
      · intro x hx
        exact
          List.mem_toFinset.mpr (h.sub x (List.mem_toFinset.mp hx))
      · have hvisited := List.toFinset_card_of_nodup h.nodup
        have hcomponent := List.toFinset_card_le c
        omega

end Steps

end JoinGraph

end Samkhya
