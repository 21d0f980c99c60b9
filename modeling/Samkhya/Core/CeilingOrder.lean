import Mathlib
import Samkhya.Core.CeilingMonotone
import Samkhya.Core.ProductEnvelope

/-!
# Writing down the same query twice

The order of the `with_edge` calls and the sides of each edge do not change what
a join graph says: it has the same components, up to their order, and each
component may be given the same bounds.

They do decide which of several cheapest edges the greedy search takes.  That is
of no consequence when the cheapest edges lead to the same relation, or when
the degrees are balanced, so that every greedy tree is the lightest.  The order
of the components is of no consequence as long as the early exit hides no zero.
-/

namespace Samkhya

open Saturating SpanningGrowth

/-- The same equality, written the other way round. -/
def JoinEdge.flip (e : JoinEdge) : JoinEdge where
  left := e.right
  right := e.left
  attributeId := e.attributeId

/-- The same equality with its sides in either order. -/
def JoinEdge.SameUpToSides (e e' : JoinEdge) : Prop :=
  e' = e ∨ e' = e.flip

theorem JoinEdge.inRange_iff
    {e : JoinEdge}
    {n u v : Nat}
    (ho : (u, v) ∈ e.orientations) :
    e.InRange n ↔ u < n ∧ v < n ∧ u ≠ v := by
  unfold JoinEdge.InRange
  rcases JoinEdge.mem_orientations_iff.mp ho with
    ⟨rfl, rfl⟩ | ⟨rfl, rfl⟩
  · exact Iff.rfl
  · rw [ne_comm]
    tauto

theorem JoinEdge.SameUpToSides.orientations_iff
    {e e' : JoinEdge}
    (h : e.SameUpToSides e')
    {u v : Nat} :
    (u, v) ∈ e'.orientations ↔ (u, v) ∈ e.orientations := by
  rw [JoinEdge.mem_orientations_iff, JoinEdge.mem_orientations_iff]
  rcases h with rfl | rfl
  · exact Iff.rfl
  · exact Or.comm

theorem JoinEdge.SameUpToSides.attributeId_eq
    {e e' : JoinEdge}
    (h : e.SameUpToSides e') :
    e'.attributeId = e.attributeId := by
  rcases h with rfl | rfl <;> rfl

/-- The same equalities in another order and with other sides. -/
def Rewriting (calls calls' : List JoinEdge) : Prop :=
  ∃ reordered,
    calls.Perm reordered ∧
    List.Forall₂ JoinEdge.SameUpToSides reordered calls'

namespace JoinGraph

/-- An equality on an attribute, from either side. -/
def Predicate
    (edges : List JoinEdge)
    (u v : Nat)
    (a : AttributeId) : Prop :=
  ∃ e ∈ edges, (u, v) ∈ e.orientations ∧ e.attributeId = a

/-- Two graphs over the same relations with the same equalities. -/
structure SameQuery (g g' : JoinGraph) : Prop where
  relations_eq : g'.relations = g.relations
  predicate_iff :
    ∀ u v a, Predicate g'.edges u v a ↔ Predicate g.edges u v a

/-- Two cheapest edges across one frontier lead to the same relation. -/
def TieFree (g : JoinGraph) (c : List Nat) : Prop :=
  ∀ visited p p',
    g.Visiting c visited →
    g.Crossing c visited p →
    g.Crossing c visited p' →
    (∀ q, g.Crossing c visited q → p.2 ≤ q.2) →
    p'.2 = p.2 →
    p'.1 = p.1

section Calls

variable {relations : List JoinRelation} {calls calls' : List JoinEdge}

theorem predicate_ofCalls_iff
    (u v : Nat)
    (a : AttributeId) :
    Predicate (ofCalls relations calls).edges u v a ↔
      Predicate calls u v a ∧
        u < relations.length ∧ v < relations.length ∧ u ≠ v := by
  unfold Predicate
  simp only [mem_ofCalls_edges]
  constructor
  · rintro ⟨e, ⟨he, hin⟩, ho, ha⟩
    exact ⟨⟨e, he, ho, ha⟩, (JoinEdge.inRange_iff ho).mp hin⟩
  · rintro ⟨⟨e, he, ho, ha⟩, hin⟩
    exact ⟨e, ⟨he, (JoinEdge.inRange_iff ho).mpr hin⟩, ho, ha⟩

theorem predicate_of_forall₂
    (h : List.Forall₂ JoinEdge.SameUpToSides calls calls')
    (u v : Nat)
    (a : AttributeId) :
    Predicate calls' u v a ↔ Predicate calls u v a := by
  induction h with
  | nil =>
      exact Iff.rfl
  | @cons e e' es es' hsame _ ih =>
      unfold Predicate at ih ⊢
      rw [List.exists_mem_cons_iff, List.exists_mem_cons_iff, ih,
        hsame.orientations_iff, hsame.attributeId_eq]

/-- Rewritten calls build the same query. -/
theorem sameQuery_of_rewriting
    (h : Rewriting calls calls') :
    (ofCalls relations calls).SameQuery (ofCalls relations calls') := by
  obtain ⟨reordered, hperm, hsides⟩ := h
  refine ⟨by simp, ?_⟩
  intro u v a
  have hreordered :
      Predicate reordered u v a ↔ Predicate calls u v a := by
    unfold Predicate
    simp only [hperm.mem_iff]
  rw [predicate_ofCalls_iff, predicate_ofCalls_iff,
    predicate_of_forall₂ hsides, hreordered]

end Calls

namespace SameQuery

variable {g g' : JoinGraph} {c : List Nat}

theorem symm
    (h : g.SameQuery g') :
    g'.SameQuery g where
  relations_eq := h.relations_eq.symm
  predicate_iff u v a := (h.predicate_iff u v a).symm

theorem relation_eq
    (h : g.SameQuery g') :
    g'.relation = g.relation := by
  funext i
  unfold relation
  rw [h.relations_eq]

theorem rowsAt_eq
    (h : g.SameQuery g') :
    g'.rowsAt = g.rowsAt := by
  funext i
  unfold rowsAt
  rw [h.relation_eq]

theorem factorAt_eq
    (h : g.SameQuery g') :
    g'.factorAt = g.factorAt := by
  funext i a
  unfold factorAt
  rw [h.relation_eq]

theorem joined_eq
    (h : g.SameQuery g') :
    Joined g'.edges = Joined g.edges := by
  have hiff :
      ∀ edges u v,
        Joined edges u v ↔ ∃ a, Predicate edges u v a := by
    intro edges u v
    constructor
    · rintro ⟨e, he, ho⟩
      exact ⟨e.attributeId, e, he, ho, rfl⟩
    · rintro ⟨a, e, he, ho, _⟩
      exact ⟨e, he, ho⟩
  funext u v
  apply propext
  rw [hiff, hiff]
  simp only [h.predicate_iff]

/-- **The components are the same, up to their order.** -/
theorem components_perm
    (h : g.SameQuery g') :
    g'.components.Perm g.components := by
  rw [List.perm_ext_iff_of_nodup (components_nodup g')
    (components_nodup g)]
  have hlabel :
      ∀ u v,
        labelOf g'.edges u = labelOf g'.edges v ↔
          labelOf g.edges u = labelOf g.edges v := by
    intro u v
    rw [labelOf_eq_iff, labelOf_eq_iff, h.joined_eq]
  intro c
  rw [mem_components_iff, mem_components_iff, h.relations_eq]
  simp only [hlabel]

theorem arc_eq
    (h : g.SameQuery g') :
    g'.Arc c = g.Arc c := by
  have hiff :
      ∀ (g : JoinGraph) u v w,
        g.Arc c u v w ↔
          u ∈ c ∧
          ∃ a, Predicate g.edges u v a ∧ w = (g.factorAt v a).toNat := by
    intro g u v w
    constructor
    · rintro ⟨hu, e, he, ho, hw⟩
      exact ⟨hu, e.attributeId, ⟨e, he, ho, rfl⟩, hw⟩
    · rintro ⟨hu, _, ⟨e, he, ho, rfl⟩, hw⟩
      exact ⟨hu, e, he, ho, hw⟩
  funext u v w
  apply propext
  rw [hiff, hiff]
  simp only [h.predicate_iff, h.factorAt_eq]

/-- The search can cross the frontier in the same ways. -/
theorem crossing
    (h : g.SameQuery g')
    {visited : List Nat}
    {p : Nat × UInt64}
    (hcross : g.Crossing c visited p) :
    g'.Crossing c visited p := by
  obtain ⟨e, he, source, ho, hsource, hnot, hcomponent, hfactor⟩ :=
    hcross
  obtain ⟨e', he', ho', ha⟩ :=
    (h.predicate_iff source p.1 e.attributeId).mpr ⟨e, he, ho, rfl⟩
  refine ⟨e', he', source, ho', hsource, hnot, hcomponent, ?_⟩
  rw [h.factorAt_eq, ha]
  exact hfactor

theorem treeGrowth
    (h : g.SameQuery g')
    {visited : List Nat}
    {bound : Nat}
    {r : UInt64}
    (hgrow : g.TreeGrowth c visited bound r) :
    g'.TreeGrowth c visited bound r := by
  induction hgrow with
  | covered hge =>
      exact .covered hge
  | @stuck visited bound hnone =>
      have hremaining :
          g'.multiplyRemaining c (visited, bound) =
            g.multiplyRemaining c (visited, bound) := by
        unfold multiplyRemaining
        rw [h.rowsAt_eq]
      rw [← hremaining]
      exact .stuck fun p hp => hnone p (h.symm.crossing hp)
  | saturated hcross hsat =>
      exact .saturated (h.crossing hcross) hsat
  | attach hcross _ ih =>
      exact .attach (h.crossing hcross) ih

theorem componentBound
    (h : g.SameQuery g')
    {b : UInt64}
    (hb : g.ComponentBound c b) :
    g'.ComponentBound c b := by
  cases hb with
  | product =>
      rw [← h.relation_eq]
      exact .product
  | tree hroot hgrow =>
      rw [← h.rowsAt_eq] at hgrow
      exact .tree hroot (h.treeGrowth hgrow)

/-- Without ties the scan finds the same edge. -/
theorem bestEdge_eq
    (h : g.SameQuery g')
    (htie : g.TieFree c)
    {visited : List Nat}
    (hvisiting : g.Visiting c visited) :
    g'.bestEdge c visited = g.bestEdge c visited := by
  cases hbest : g.bestEdge c visited with
  | none =>
      cases hbest' : g'.bestEdge c visited with
      | none =>
          rfl
      | some p =>
          exact
            absurd (h.symm.crossing (bestEdge_crossing hbest'))
              (not_crossing_of_bestEdge_eq_none hbest p)
  | some p =>
      have hcross := bestEdge_crossing hbest
      cases hbest' : g'.bestEdge c visited with
      | none =>
          exact
            absurd (h.crossing hcross)
              (not_crossing_of_bestEdge_eq_none hbest' p)
      | some p' =>
          have hcross' := h.symm.crossing (bestEdge_crossing hbest')
          have hle : p.2 ≤ p'.2 := bestEdge_le hbest hcross'
          have hge : p'.2 ≤ p.2 :=
            bestEdge_le hbest' (h.crossing hcross)
          have hfactor : p'.2 = p.2 := UInt64.le_antisymm hge hle
          have htarget :=
            htie visited p p' hvisiting hcross hcross'
              (fun q hq => bestEdge_le hbest hq) hfactor
          rw [Prod.ext htarget hfactor]

theorem treeSteps_eq
    (h : g.SameQuery g')
    (htie : g.TieFree c)
    {visited : List Nat}
    (hvisiting : g.Visiting c visited) :
    g'.treeSteps c visited = g.treeSteps c visited := by
  fun_induction treeSteps g c visited with
  | case1 visited hlt hbest =>
      rw [treeSteps, if_pos hlt, h.bestEdge_eq htie hvisiting, hbest]
  | case2 visited hlt next factor hbest ih =>
      rw [treeSteps, if_pos hlt, h.bestEdge_eq htie hvisiting, hbest]
      simp only
      rw [ih (hvisiting.next (bestEdge_crossing hbest))]
  | case3 visited hge =>
      rw [treeSteps, if_neg hge]

/-- The same tree bounds make the same component ceiling. -/
theorem componentCeiling_eq
    (h : g.SameQuery g')
    (htree :
      ∀ root ∈ c,
        g'.spanningTreeCeiling c root = g.spanningTreeCeiling c root) :
    g'.componentCeiling c = g.componentCeiling c := by
  unfold componentCeiling
  simp only
  rw [h.relation_eq]
  split_ifs
  · rfl
  · apply foldl_congr_mem
    intro root hroot best
    rw [htree root hroot]

theorem componentCeiling_eq_of_tieFree
    (h : g.SameQuery g')
    (hc : c ∈ g.components)
    (htie : g.TieFree c) :
    g'.componentCeiling c = g.componentCeiling c := by
  have hc' : c ∈ g'.components := h.components_perm.mem_iff.mpr hc
  apply h.componentCeiling_eq
  intro root hroot
  rw [spanningTreeCeiling_eq hc hroot,
    spanningTreeCeiling_eq hc' hroot,
    h.treeSteps_eq htie (.root hc hroot), h.rowsAt_eq]

/-- Balanced greedy trees are equally light. -/
theorem prod_eq_of_balanced
    (h : g.SameQuery g')
    (hc : c ∈ g.components)
    (hbalanced : Balanced (g.Arc c))
    {root : Nat}
    (hroot : root ∈ c) :
    (weights (g'.treeSteps c [root])).prod =
      (weights (g.treeSteps c [root])).prod := by
  have hc' : c ∈ g'.components := h.components_perm.mem_iff.mpr hc
  obtain ⟨hgreedy, hreached⟩ :=
    treeSteps_greedy (Visiting.root hc hroot)
  obtain ⟨hgreedy', hreached'⟩ :=
    treeSteps_greedy (Visiting.root hc' hroot)
  rw [h.arc_eq] at hgreedy'
  have hle :=
    hgreedy.prod_le hbalanced hgreedy'.growth
      (hreached.trans hreached'.symm)
  have hge :=
    hgreedy'.prod_le hbalanced hgreedy.growth
      (hreached'.trans hreached.symm)
  exact Nat.le_antisymm hge hle

theorem componentCeiling_eq_of_balanced
    (h : g.SameQuery g')
    (hc : c ∈ g.components)
    (hbalanced : Balanced (g.Arc c)) :
    g'.componentCeiling c = g.componentCeiling c := by
  have hc' : c ∈ g'.components := h.components_perm.mem_iff.mpr hc
  by_cases hzero : ∃ u v, g.Arc c u v 0
  · obtain ⟨u, v, harc⟩ := hzero
    have harc' := harc
    rw [← h.arc_eq] at harc'
    rw [componentCeiling_eq_zero hc harc,
      componentCeiling_eq_zero hc' harc']
  · push Not at hzero
    apply h.componentCeiling_eq
    intro root hroot
    rw [← UInt64.toNat_inj,
      toNat_spanningTreeCeiling hc
        (fun u v w harc hw => hzero u v (hw ▸ harc)) hroot,
      toNat_spanningTreeCeiling hc'
        (fun u v w harc hw =>
          hzero u v (hw ▸ h.arc_eq (c := c) ▸ harc)) hroot,
      h.prod_eq_of_balanced hc hbalanced hroot, h.rowsAt_eq]

/-- The product of the component ceilings does not depend on their order. -/
theorem ceilingProduct_eq
    (h : g.SameQuery g')
    (hcs :
      ∀ c ∈ g.components,
        g'.componentCeiling c = g.componentCeiling c) :
    g'.ceilingProduct g'.components =
      g.ceilingProduct g.components := by
  unfold ceilingProduct
  rw [(h.components_perm.map _).prod_eq]
  apply congrArg List.prod
  apply List.map_congr_left
  intro c hc
  rw [hcs c hc]

/-- Harmless ties and no hidden zero make the same ceiling. -/
theorem ceiling_eq
    (h : g.SameQuery g')
    (hcs :
      ∀ c ∈ g.components, g.TieFree c ∨ Balanced (g.Arc c))
    (hzero : ¬ g.HidesZero)
    (hzero' : ¬ g'.HidesZero) :
    g'.ceiling = g.ceiling := by
  by_cases hne : g.relations = []
  · unfold ceiling
    rw [h.relations_eq, hne, if_pos List.isEmpty_nil,
      if_pos List.isEmpty_nil]
  · have hne' : g'.relations ≠ [] := by
      rw [h.relations_eq]
      exact hne
    rw [← UInt64.toNat_inj,
      toNat_ceiling_of_not_hidesZero hne hzero,
      toNat_ceiling_of_not_hidesZero hne' hzero',
      h.ceilingProduct_eq]
    intro c hc
    rcases hcs c hc with htie | hbalanced
    · exact h.componentCeiling_eq_of_tieFree hc htie
    · exact h.componentCeiling_eq_of_balanced hc hbalanced

end SameQuery

/--
**The ceiling and the order of the edges.**  Rewritten calls have the same
components with the same possible bounds; the ceiling is the same when ties in
each component are harmless and neither graph hides a zero.
-/
theorem rewriting_ceiling
    (relations : List JoinRelation)
    (calls calls' : List JoinEdge)
    (h : Rewriting calls calls') :
    (ofCalls relations calls').components.Perm
      (ofCalls relations calls).components ∧
    (∀ c b,
      (ofCalls relations calls').ComponentBound c b ↔
        (ofCalls relations calls).ComponentBound c b) ∧
    ((∀ c ∈ (ofCalls relations calls).components,
        (ofCalls relations calls).TieFree c ∨
          Balanced ((ofCalls relations calls).Arc c)) →
      ¬ (ofCalls relations calls).HidesZero →
      ¬ (ofCalls relations calls').HidesZero →
      (ofCalls relations calls').ceiling =
        (ofCalls relations calls).ceiling) := by
  have hsame :
      (ofCalls relations calls).SameQuery (ofCalls relations calls') :=
    sameQuery_of_rewriting h
  exact
    ⟨hsame.components_perm,
      fun c b => ⟨hsame.symm.componentBound, hsame.componentBound⟩,
      hsame.ceiling_eq⟩

/-- A chain of three relations, written down in two ways. -/
def chainCalls : List JoinEdge :=
  [⟨0, 1, 1⟩, ⟨1, 2, 2⟩]

def chainCallsRewritten : List JoinEdge :=
  [⟨2, 1, 2⟩, ⟨0, 1, 1⟩]

theorem chainCalls_rewriting :
    Rewriting chainCalls chainCallsRewritten :=
  ⟨[⟨1, 2, 2⟩, ⟨0, 1, 1⟩], .swap _ _ [],
    .cons (Or.inr rfl) (.cons (Or.inl rfl) .nil)⟩

/-- Without statistics relations of one size have one degree. -/
theorem factorAt_four
    (calls : List JoinEdge)
    {v : Nat}
    (hv : v < 3)
    (a : AttributeId) :
    (ofCalls [.new 4, .new 4, .new 4] calls).factorAt v a = 4 := by
  have hrelation :
      (ofCalls [.new 4, .new 4, .new 4] calls).relation v = .new 4 := by
    rw [relation, ofCalls_relations]
    interval_cases v <;> rfl
  rw [factorAt, hrelation, JoinRelation.new_degree]
  rfl

/-- The theorem holds of the two ways to write the chain. -/
theorem rewriting_ceiling_chain :
    (ofCalls [.new 4, .new 4, .new 4] chainCallsRewritten).ceiling =
      (ofCalls [.new 4, .new 4, .new 4] chainCalls).ceiling := by
  have hmain :=
    rewriting_ceiling [.new 4, .new 4, .new 4] chainCalls
      chainCallsRewritten chainCalls_rewriting
  refine hmain.2.2 ?_ ?_ ?_
  · intro c hc
    right
    rintro u v w ⟨hu, e, he, ho, rfl⟩
    left
    refine
      ⟨component_closed hc hu he ho, e, he,
        JoinEdge.swap_mem_orientations ho, ?_⟩
    have hin :=
      (JoinEdge.inRange_iff ho).mp
        ((mem_ofCalls_edges _ _ e).mp he).2
    rw [factorAt_four chainCalls hin.1, factorAt_four chainCalls hin.2.1]
  · apply not_hidesZero_of_ne_zero
    decide +kernel
  · apply not_hidesZero_of_ne_zero
    decide +kernel

/--
Three relations joined in a triangle; from the first one, which has a single
row, the other two cost the same, and only the third is cheap from the second.
-/
def tiedTriangle : List JoinRelation :=
  [JoinRelation.new 1, (JoinRelation.new 100).withDegree 1 ⟨2⟩,
    ((JoinRelation.new 100).withDegree 2 ⟨2⟩).withDegree 3 ⟨1⟩]

/--
**The order of the edges and their sides can change the ceiling.**  The first of
two equally cheap edges is taken, and it decides what the rest costs.  An empty
relation counts only if its component is listed before those that saturate.
-/
theorem rewriting_changes_ceiling :
    (Rewriting
        [⟨0, 1, 1⟩, ⟨0, 2, 2⟩, ⟨1, 2, 3⟩]
        [⟨0, 2, 2⟩, ⟨0, 1, 1⟩, ⟨1, 2, 3⟩] ∧
      (ofCalls tiedTriangle
        [⟨0, 1, 1⟩, ⟨0, 2, 2⟩, ⟨1, 2, 3⟩]).ceiling = 2 ∧
      (ofCalls tiedTriangle
        [⟨0, 2, 2⟩, ⟨0, 1, 1⟩, ⟨1, 2, 3⟩]).ceiling = 4) ∧
    (Rewriting [⟨0, 2, 1⟩] [⟨2, 0, 1⟩] ∧
      (ofCalls [.new 4294967296, .new 0, .new 4294967296]
        [⟨0, 2, 1⟩]).ceiling = 0 ∧
      (ofCalls [.new 4294967296, .new 0, .new 4294967296]
        [⟨2, 0, 1⟩]).ceiling = UInt64.ofNat u64Max) :=
  ⟨⟨⟨_, .swap _ _ _,
        .cons (Or.inl rfl) (.cons (Or.inl rfl) (.cons (Or.inl rfl) .nil))⟩,
      by decide +kernel, by decide +kernel⟩,
    ⟨⟨_, .refl _, .cons (Or.inr rfl) .nil⟩, by decide +kernel,
      by decide +kernel⟩⟩

end JoinGraph

end Samkhya
