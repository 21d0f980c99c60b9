import Mathlib
import Samkhya.Core.CeilingMonotone
import Samkhya.Core.ProductEnvelope

/-!
# Better statistics, new predicates and the ceiling

New predicates may attach relations that no predicate reached so far.  A tree of
the old component goes on to them, each at a degree within its row count, which
is what it contributed to the product before.

When the better informed degrees are balanced the greedy tree is the lightest,
so it is no dearer than that tree at the better prices.  `betterInformed_ceiling`
puts this together with the case of unchanged degrees; the graphs after it show
what goes wrong otherwise.
-/

namespace Samkhya

open Saturating SpanningGrowth

namespace JoinGraph

/--
A component is one of the first graph with lone relations attached to it, at
degrees within their row counts.
-/
structure Attached (g g' : JoinGraph) (c a : List Nat) : Prop where
  core : a ∈ g.components
  sub : ∀ v ∈ a, v ∈ c
  lone : ∀ v ∈ c, v ∉ a → [v] ∈ g.components
  degree_le : ∀ u v w, g'.Arc c u v w → v ∉ a → w ≤ g.rowsAt v

/-- The relations of a component that are not in its core. -/
def newcomers (c a : List Nat) : List Nat :=
  c.filter (fun v => v ∉ a)

/-- The components that lie within a list of relations. -/
def within (g : JoinGraph) (c : List Nat) : List (List Nat) :=
  g.components.filter (fun a => ∀ v ∈ a, v ∈ c)

variable {g g' : JoinGraph} {c a : List Nat}

theorem mem_newcomers_iff
    {v : Nat} :
    v ∈ newcomers c a ↔ v ∈ c ∧ v ∉ a := by
  simp [newcomers]

theorem newcomers_nodup
    (hc : c.Nodup) :
    (newcomers c a).Nodup :=
  hc.filter _

theorem mem_within_iff :
    a ∈ g.within c ↔ a ∈ g.components ∧ ∀ v ∈ a, v ∈ c := by
  simp [within]

theorem within_nodup
    (g : JoinGraph)
    (c : List Nat) :
    (g.within c).Nodup :=
  g.components_nodup.filter _

/-- A component that stays as it is has nothing attached. -/
theorem Attached.self
    (hc : c ∈ g.components)
    (hc' : c ∈ g'.components) :
    g.Attached g' c c where
  core := hc
  sub _ hv := hv
  lone _ hv hnot := absurd hv hnot
  degree_le _ _ _ harc hnot := by
    obtain ⟨hu, e, he, ho, _⟩ := harc
    exact absurd (component_closed hc' hu he ho) hnot

section Trees

/-- The old arcs of the core at the better prices. -/
theorem Attached.arc
    (hattached : g.Attached g' c a)
    (h : g.BetterInformed g')
    (u v w : Nat)
    (harc : g.Arc a u v w) :
    ∃ w' ≤ w, g'.Arc c u v w' := by
  obtain ⟨w', hle, hu, hedge⟩ := h.arc u v w harc
  exact ⟨w', hle, hattached.sub u hu, hedge⟩

/-- The core is a part of the new component to go on from. -/
theorem Attached.visiting
    (hattached : g.Attached g' c a)
    (hc : c ∈ g'.components) :
    g'.Visiting c a where
  component := hc
  sub := hattached.sub
  nodup := component_nodup hattached.core
  ne_nil := component_ne_nil hattached.core

/-- Going on from the core attaches the newcomers. -/
theorem newcomers_perm
    {steps : List (Nat × Nat)}
    (hgrowth : Growth (g.Arc c) a.toFinset steps)
    (hreached : reached a.toFinset steps = c.toFinset)
    (hnodup : c.Nodup) :
    (steps.map Prod.fst).Perm (newcomers c a) := by
  rw [List.perm_ext_iff_of_nodup hgrowth.nodup (newcomers_nodup hnodup)]
  intro v
  rw [hgrowth.mem_attached_iff, hreached, mem_newcomers_iff,
    List.mem_toFinset, List.mem_toFinset]

/-- The newcomers cost at most their row counts. -/
theorem Attached.prod_newcomers_le
    (hattached : g.Attached g' c a)
    (hc : c ∈ g'.components) :
    (weights (g'.treeSteps c a)).prod ≤
      ((newcomers c a).map g.rowsAt).prod := by
  obtain ⟨hgreedy, hreached⟩ :=
    treeSteps_greedy (hattached.visiting hc)
  have hperm :=
    newcomers_perm hgreedy.growth hreached (component_nodup hc)
  rw [← (hperm.map g.rowsAt).prod_eq]
  apply prod_weights_le
  intro p hp
  obtain ⟨hnot, u, harc⟩ := hgreedy.growth.of_mem hp
  exact hattached.degree_le u p.1 p.2 harc (by simpa using hnot)

/-- **The balanced greedy tree is no dearer than an old one gone on.** -/
theorem Attached.prod_treeSteps_le
    (hattached : g.Attached g' c a)
    (h : g.BetterInformed g')
    (hc : c ∈ g'.components)
    (hbalanced : Balanced (g'.Arc c))
    {root : Nat}
    (hroot : root ∈ a) :
    (weights (g'.treeSteps c [root])).prod ≤
      (weights (g.treeSteps a [root])).prod *
        ((newcomers c a).map g.rowsAt).prod := by
  obtain ⟨hgreedy, hreached⟩ :=
    treeSteps_greedy (Visiting.root hattached.core hroot)
  obtain ⟨hgreedy', hreached'⟩ :=
    treeSteps_greedy (Visiting.root hc (hattached.sub root hroot))
  obtain ⟨hrest, hreachedRest⟩ :=
    treeSteps_greedy (hattached.visiting hc)
  obtain ⟨steps, hgrowth, hsame, hlighter⟩ :=
    hgreedy.growth.lighten (hattached.arc h)
  have hcore := hsame.trans hreached
  have hwhole :
      Growth (g'.Arc c) [root].toFinset
        (steps ++ g'.treeSteps c a) := by
    apply hgrowth.append
    rw [hcore]
    exact hrest.growth
  have hreachedWhole :
      reached [root].toFinset (g'.treeSteps c [root]) =
        reached [root].toFinset (steps ++ g'.treeSteps c a) := by
    rw [reached_append, hcore, hreachedRest, hreached']
  calc
    (weights (g'.treeSteps c [root])).prod ≤
        (weights (steps ++ g'.treeSteps c a)).prod :=
      hgreedy'.prod_le hbalanced hwhole hreachedWhole
    _ = (weights steps).prod *
        (weights (g'.treeSteps c a)).prod := by
      rw [weights_append, List.prod_append]
    _ ≤ (weights (g.treeSteps a [root])).prod *
        ((newcomers c a).map g.rowsAt).prod :=
      Nat.mul_le_mul hlighter.prod_le_prod'
        (hattached.prod_newcomers_le hc)

end Trees

section Components

/-- A cut-off factor is enough when the other one is not zero. -/
theorem min_mul_le
    (x y m : Nat) :
    min (x * y) m ≤ min x m * y := by
  rcases Nat.eq_zero_or_pos y with rfl | hy
  · simp
  · rw [← Nat.mul_min_mul_right]
    exact min_le_min_left _ (Nat.le_mul_of_pos_right m hy)

/-- The rows of a component are those of its core and of its newcomers. -/
theorem Attached.prod_rows
    (hattached : g.Attached g' c a)
    (hc : c.Nodup) :
    (c.map g.rowsAt).prod =
      (a.map g.rowsAt).prod *
        ((newcomers c a).map g.rowsAt).prod := by
  rw [← List.prod_append, ← List.map_append]
  apply List.Perm.prod_eq
  apply List.Perm.map
  have hdisjoint : a.Disjoint (newcomers c a) := by
    intro v hv hnew
    exact (mem_newcomers_iff.mp hnew).2 hv
  rw [List.perm_ext_iff_of_nodup hc
    ((component_nodup hattached.core).append (newcomers_nodup hc)
      hdisjoint)]
  intro v
  rw [List.mem_append, mem_newcomers_iff]
  constructor
  · intro hv
    by_cases hva : v ∈ a
    · exact Or.inl hva
    · exact Or.inr ⟨hv, hva⟩
  · rintro (hv | ⟨hv, _⟩)
    · exact hattached.sub v hv
    · exact hv

/-- The product of the rows of the core, times those of the newcomers. -/
theorem Attached.componentCeiling_le_product
    (hattached : g.Attached g' c a)
    (h : g.BetterInformed g')
    (hc : c ∈ g'.components) :
    (g'.componentCeiling c).toNat ≤
      min (a.map g.rowsAt).prod u64Max *
        ((newcomers c a).map g.rowsAt).prod := by
  have hrows :
      (c.map g'.rowsAt).prod ≤ (c.map g.rowsAt).prod :=
    List.prod_le_prod' fun v _ => h.rowsAt_le v
  calc
    (g'.componentCeiling c).toNat ≤
        min (c.map g.rowsAt).prod u64Max :=
      Nat.le_min.mpr
        ⟨(g'.componentCeiling_le c).trans hrows,
          toNat_le_u64Max _⟩
    _ = min
        ((a.map g.rowsAt).prod *
          ((newcomers c a).map g.rowsAt).prod) u64Max := by
      rw [hattached.prod_rows (component_nodup hc)]
    _ ≤ min (a.map g.rowsAt).prod u64Max *
        ((newcomers c a).map g.rowsAt).prod :=
      min_mul_le _ _ _

/-- The greedy tree of a root of the core, times the newcomers. -/
theorem Attached.componentCeiling_le_growth
    (hattached : g.Attached g' c a)
    (h : g.BetterInformed g')
    (hc : c ∈ g'.components)
    (hbalanced : Balanced (g'.Arc c))
    (hpositive : ∀ u v w, g'.Arc c u v w → w ≠ 0)
    {root : Nat}
    (hroot : root ∈ a) :
    (g'.componentCeiling c).toNat ≤
      min (g.rowsAt root * (weights (g.treeSteps a [root])).prod)
          u64Max *
        ((newcomers c a).map g.rowsAt).prod := by
  have hprod := hattached.prod_treeSteps_le h hc hbalanced hroot
  have hle :=
    UInt64.le_iff_toNat_le.mp
      (componentCeiling_le_tree (g := g')
        (hattached.sub root hroot))
  rw [toNat_spanningTreeCeiling hc hpositive
    (hattached.sub root hroot)] at hle
  calc
    (g'.componentCeiling c).toNat ≤
        min
          (g'.rowsAt root * (weights (g'.treeSteps c [root])).prod)
          u64Max := hle
    _ ≤ min
        (g.rowsAt root * (weights (g.treeSteps a [root])).prod *
          ((newcomers c a).map g.rowsAt).prod) u64Max := by
      rw [Nat.mul_assoc]
      exact
        min_le_min_right _
          (Nat.mul_le_mul (h.rowsAt_le root) hprod)
    _ ≤ min
          (g.rowsAt root * (weights (g.treeSteps a [root])).prod)
          u64Max *
        ((newcomers c a).map g.rowsAt).prod :=
      min_mul_le _ _ _

/-- **Attaching lone relations at balanced degrees keeps the bound.** -/
theorem Attached.componentCeiling_le
    (hattached : g.Attached g' c a)
    (h : g.BetterInformed g')
    (hc : c ∈ g'.components)
    (hbalanced : Balanced (g'.Arc c)) :
    (g'.componentCeiling c).toNat ≤
      (g.componentCeiling a).toNat *
        ((newcomers c a).map g.rowsAt).prod := by
  by_cases hzero : ∃ u v, g'.Arc c u v 0
  · obtain ⟨u, v, harc⟩ := hzero
    rw [componentCeiling_eq_zero hc harc]
    exact Nat.zero_le _
  push Not at hzero
  have hpositive' : ∀ u v w, g'.Arc c u v w → w ≠ 0 := by
    rintro u v w harc rfl
    exact hzero u v harc
  have hpositive : ∀ u v w, g.Arc a u v w → w ≠ 0 := by
    rintro u v w harc rfl
    obtain ⟨w', hle, harc'⟩ := hattached.arc h u v 0 harc
    exact hpositive' u v w' harc' (Nat.le_zero.mp hle)
  rcases g.componentCeiling_cases a with hproduct | ⟨root, hroot, htree⟩
  · rw [hproduct, ProductBound.toNat_ceiling, List.map_map]
    exact hattached.componentCeiling_le_product h hc
  · rw [htree,
      toNat_spanningTreeCeiling hattached.core hpositive hroot]
    exact
      hattached.componentCeiling_le_growth h hc hbalanced hpositive'
        hroot

end Components

section Regroup

theorem ceilingProduct_perm
    {cs cs' : List (List Nat)}
    (h : cs.Perm cs') :
    g.ceilingProduct cs = g.ceilingProduct cs' :=
  (h.map _).prod_eq

/-- Components that share a relation are the same. -/
theorem component_eq_of_mem
    {c' : List Nat}
    {v : Nat}
    (hc : c ∈ g.components)
    (hc' : c' ∈ g.components)
    (hv : v ∈ c)
    (hv' : v ∈ c') :
    c = c' := by
  obtain ⟨w, _, rfl⟩ := (g.mem_components_iff c).mp hc
  obtain ⟨w', _, rfl⟩ := (g.mem_components_iff c').mp hc'
  have hlabel : labelOf g.edges v = labelOf g.edges w := by
    simpa using (List.mem_filter.mp hv).2
  have hlabel' : labelOf g.edges v = labelOf g.edges w' := by
    simpa using (List.mem_filter.mp hv').2
  rw [← hlabel, ← hlabel']

/-- More edges only merge components. -/
theorem BetterInformed.exists_containing
    (h : g.BetterInformed g')
    (ha : a ∈ g.components) :
    ∃ c ∈ g'.components, ∀ v ∈ a, v ∈ c := by
  obtain ⟨u, hu⟩ :=
    List.exists_mem_of_ne_nil a (component_ne_nil ha)
  have hlength := h.length_eq
  have hrange : ∀ v ∈ a, v < g'.relations.length := by
    intro v hv
    rw [hlength]
    exact ((mem_component_iff ha hu).mp hv).1
  have hmem : u ∈ g'.components.flatten :=
    g'.components_perm.mem_iff.mpr (List.mem_range.mpr (hrange u hu))
  obtain ⟨c, hc, huc⟩ := List.mem_flatten.mp hmem
  refine ⟨c, hc, ?_⟩
  intro v hv
  rw [mem_component_iff hc huc]
  refine ⟨hrange v hv, ?_⟩
  refine
    Relation.EqvGen.mono ?_ _ _ ((mem_component_iff ha hu).mp hv).2
  rintro x y ⟨e, he, ho⟩
  exact ⟨e, h.edges.subset he, ho⟩

/-- Every old component lies within one new one. -/
theorem BetterInformed.flatMap_within_perm
    (h : g.BetterInformed g') :
    (g'.components.flatMap g.within).Perm g.components := by
  have hnodup : (g'.components.flatMap g.within).Nodup := by
    rw [List.nodup_flatMap]
    refine ⟨fun c _ => g.within_nodup c, ?_⟩
    refine List.Pairwise.imp_of_mem ?_ g'.components_nodup
    intro c c' hc hc' hne a ha ha'
    obtain ⟨hcomponent, hsub⟩ := mem_within_iff.mp ha
    obtain ⟨v, hv⟩ :=
      List.exists_mem_of_ne_nil a (component_ne_nil hcomponent)
    exact
      hne
        (component_eq_of_mem hc hc' (hsub v hv)
          ((mem_within_iff.mp ha').2 v hv))
  rw [List.perm_ext_iff_of_nodup hnodup g.components_nodup]
  intro a
  rw [List.mem_flatMap]
  constructor
  · rintro ⟨c, _, ha⟩
    exact (mem_within_iff.mp ha).1
  · intro ha
    obtain ⟨c, hc, hsub⟩ := h.exists_containing ha
    exact ⟨c, hc, mem_within_iff.mpr ⟨ha, hsub⟩⟩

/-- The core and the newcomers are what lies within the new component. -/
theorem Attached.within_perm
    (hattached : g.Attached g' c a)
    (hc : c.Nodup) :
    (g.within c).Perm (a :: (newcomers c a).map (fun v => [v])) := by
  have hnodup :
      (a :: (newcomers c a).map (fun v => [v])).Nodup := by
    rw [List.nodup_cons]
    constructor
    · intro hmem
      obtain ⟨v, hv, hva⟩ := List.mem_map.mp hmem
      exact
        (mem_newcomers_iff.mp hv).2 (hva ▸ List.mem_singleton_self v)
    · exact
        (newcomers_nodup hc).map fun u v huv => List.singleton_inj.mp huv
  rw [List.perm_ext_iff_of_nodup (g.within_nodup c) hnodup]
  intro b
  rw [mem_within_iff, List.mem_cons, List.mem_map]
  constructor
  · rintro ⟨hb, hsub⟩
    obtain ⟨v, hv⟩ :=
      List.exists_mem_of_ne_nil b (component_ne_nil hb)
    by_cases hva : v ∈ a
    · exact Or.inl (component_eq_of_mem hb hattached.core hv hva)
    · have hvc := hsub v hv
      exact
        Or.inr
          ⟨v, mem_newcomers_iff.mpr ⟨hvc, hva⟩,
            component_eq_of_mem (hattached.lone v hvc hva) hb
              (List.mem_singleton_self v) hv⟩
  · rintro (rfl | ⟨v, hv, rfl⟩)
    · exact ⟨hattached.core, hattached.sub⟩
    · obtain ⟨hvc, hva⟩ := mem_newcomers_iff.mp hv
      refine ⟨hattached.lone v hvc hva, ?_⟩
      intro u hu
      rw [List.mem_singleton.mp hu]
      exact hvc

/-- Relations on their own contribute their row counts. -/
theorem ceilingProduct_lone
    (vs : List Nat) :
    g.ceilingProduct (vs.map (fun v => [v])) =
      (vs.map g.rowsAt).prod := by
  unfold ceilingProduct
  rw [List.map_map]
  rfl

/-- Bounds for all new components make one for the ceiling. -/
theorem BetterInformed.ceiling_le_of_within
    (h : g.BetterInformed g')
    (hhides : ¬ g'.HidesZero)
    (hcs :
      ∀ c ∈ g'.components,
        (g'.componentCeiling c).toNat ≤
          g.ceilingProduct (g.within c)) :
    g'.ceiling ≤ g.ceiling := by
  by_cases hempty : g.relations = []
  · have hempty' : g'.relations = [] := by
      rw [← List.length_eq_zero_iff, h.length_eq, hempty]
      rfl
    unfold ceiling
    rw [hempty, hempty', if_pos List.isEmpty_nil,
      if_pos List.isEmpty_nil]
    exact UInt64.le_refl _
  · have hne' : g'.relations ≠ [] := by
      rw [← List.length_pos_iff, h.length_eq, List.length_pos_iff]
      exact hempty
    rw [UInt64.le_iff_toNat_le, toNat_ceiling_of_not_hidesZero hne' hhides]
    refine le_trans ?_ (min_ceilingProduct_le hempty)
    apply min_le_min_right
    calc
      g'.ceilingProduct g'.components ≤
          (g'.components.map
            (fun c => g.ceilingProduct (g.within c))).prod :=
        List.prod_le_prod' hcs
      _ = g.ceilingProduct (g'.components.flatMap g.within) := by
        unfold ceilingProduct
        rw [List.map_flatMap, List.flatMap, List.prod_flatten,
          List.map_map]
        rfl
      _ = g.ceilingProduct g.components :=
        ceilingProduct_perm h.flatMap_within_perm

/-- What lies within an attached component bounds it. -/
theorem Attached.le_ceilingProduct
    (hattached : g.Attached g' c a)
    (h : g.BetterInformed g')
    (hc : c ∈ g'.components)
    (hbalanced : Balanced (g'.Arc c)) :
    (g'.componentCeiling c).toNat ≤
      g.ceilingProduct (g.within c) := by
  rw [ceilingProduct_perm
    (hattached.within_perm (component_nodup hc)),
    ceilingProduct_cons, ceilingProduct_lone]
  exact hattached.componentCeiling_le h hc hbalanced

/-- What lies within a component that stays as it is. -/
theorem ceilingProduct_within_self
    (hc : c ∈ g.components)
    (hc' : c ∈ g'.components) :
    g.ceilingProduct (g.within c) =
      (g.componentCeiling c).toNat := by
  have hself : g.Attached g' c c := .self hc hc'
  have hnone : newcomers c c = [] := by
    apply List.filter_eq_nil_iff.mpr
    intro v hv
    simpa using hv
  rw [ceilingProduct_perm (hself.within_perm (component_nodup hc)),
    hnone, ceilingProduct_cons]
  simp [ceilingProduct]

end Regroup

/--
**Better statistics and the ceiling.**  When the new edges stay within
components, some choice of trees does no worse; the greedy choice does no worse
when each component keeps its edges and degrees or has balanced ones.  Nor does
it when balanced edges attach lone relations, unless a zero is hidden behind the
early exit.
-/
theorem betterInformed_ceiling
    (g g' : JoinGraph)
    (h : g.BetterInformed g') :
    (g.FusesNothing g' →
      (∀ r, g.CeilingRun 1 g.components r →
        ∃ r' ≤ r, g'.CeilingRun 1 g'.components r') ∧
      ((∀ c ∈ g.components,
          g.SameDegrees g' c ∨ Balanced (g'.Arc c)) →
        g'.ceiling ≤ g.ceiling)) ∧
    ((∀ c ∈ g'.components,
        (c ∈ g.components ∧ g.SameDegrees g' c) ∨
          (Balanced (g'.Arc c) ∧ ∃ a, g.Attached g' c a)) →
      ¬ g'.HidesZero →
      g'.ceiling ≤ g.ceiling) := by
  constructor
  · intro hfuses
    have hcomponents := components_extension h hfuses
    constructor
    · intro r hrun
      rw [hcomponents]
      exact hrun.improve h (fun _ hc => hc) le_rfl (by decide)
    · intro hcs
      apply ceiling_mono h hfuses
      intro c hc
      have hc' : c ∈ g'.components := by
        rw [hcomponents]
        exact hc
      rcases hcs c hc with hsame | hbalanced
      · exact componentCeiling_le_of_sameDegrees h hc hc' hsame
      · rw [UInt64.le_iff_toNat_le, ← ceilingProduct_within_self hc hc']
        exact (Attached.self hc hc').le_ceilingProduct h hc' hbalanced
  · intro hcs hhides
    apply h.ceiling_le_of_within hhides
    intro c hc
    rcases hcs c hc with ⟨hold, hsame⟩ | ⟨hbalanced, a, hattached⟩
    · rw [ceilingProduct_within_self hold hc]
      exact
        UInt64.le_iff_toNat_le.mp
          (componentCeiling_le_of_sameDegrees h hold hc hsame)
    · exact hattached.le_ceilingProduct h hc hbalanced

/-- Two relations with a registered degree each, joined by some edges. -/
def pairGraph (rows : UInt64) (calls : List JoinEdge) : JoinGraph :=
  ofCalls
    [(JoinRelation.new 10).withDegree 1 ⟨1⟩,
      (JoinRelation.new rows).withDegree 1 ⟨2⟩]
    calls

theorem pairGraph_betterInformed
    (calls further : List JoinEdge) :
    (pairGraph 9 calls).BetterInformed
      (pairGraph 4 (calls ++ further)) := by
  have hle : (4 : UInt64) ≤ 9 := by
    decide
  apply BetterInformed.ofCalls
  refine .cons ⟨UInt64.le_refl _, fun a => UInt64.le_refl _⟩
    (.cons ⟨hle, ?_⟩ .nil)
  intro a
  rw [JoinRelation.withDegree_degree, JoinRelation.withDegree_degree]
  split_ifs
  · exact UInt64.le_refl _
  · simp

/-- The arcs of the joined pair. -/
theorem pairGraph_arc
    {c : List Nat}
    {u v w : Nat}
    (h : (pairGraph 4 [⟨0, 1, 1⟩]).Arc c u v w) :
    (u = 0 ∧ v = 1 ∧ w = 2) ∨ (u = 1 ∧ v = 0 ∧ w = 1) := by
  obtain ⟨_, e, he, ho, rfl⟩ := h
  rw [pairGraph, mem_ofCalls_edges] at he
  rw [List.mem_singleton.mp he.1] at ho ⊢
  simp only [JoinEdge.orientations, List.mem_cons, Prod.mk.injEq,
    List.not_mem_nil, or_false] at ho
  rcases ho with ⟨rfl, rfl⟩ | ⟨rfl, rfl⟩
  · exact Or.inl ⟨rfl, rfl, by decide +kernel⟩
  · exact Or.inr ⟨rfl, rfl, by decide +kernel⟩

/-- A single edge lies on no cycle. -/
theorem pairGraph_balanced
    (c : List Nat) :
    Balanced ((pairGraph 4 [⟨0, 1, 1⟩]).Arc c) := by
  intro u v w harc
  right
  intro hdetour
  have hends := pairGraph_arc harc
  have hnone :
      ∀ x y,
        (∃ w, (pairGraph 4 [⟨0, 1, 1⟩]).Arc c x y w) ∧
          ¬ (x = u ∧ y = v) ∧ ¬ (x = v ∧ y = u) →
        (x = u ↔ y = u) := by
    rintro x y ⟨⟨w', harc'⟩, hne, hne'⟩
    have hends' := pairGraph_arc harc'
    omega
  have hsame := (iff_of_eqvGen hnone hdetour).mp rfl
  omega

/-- The theorem holds of a smaller row count and of a first predicate. -/
theorem betterInformed_ceiling_pair :
    (pairGraph 4 [⟨0, 1, 1⟩]).ceiling ≤
        (pairGraph 9 [⟨0, 1, 1⟩]).ceiling ∧
      (pairGraph 4 [⟨0, 1, 1⟩]).ceiling ≤
        (pairGraph 9 []).ceiling := by
  have hcomponents :
      (pairGraph 4 [⟨0, 1, 1⟩]).components = [[0, 1]] := by
    decide +kernel
  constructor
  · refine
      ((betterInformed_ceiling (pairGraph 9 [⟨0, 1, 1⟩])
          (pairGraph 4 [⟨0, 1, 1⟩])
          (pairGraph_betterInformed [⟨0, 1, 1⟩] [])).1 ?_).2
        fun c _ => Or.inr (pairGraph_balanced c)
    intro e he
    rw [pairGraph, mem_ofCalls_edges] at he
    rw [List.mem_singleton.mp he.1]
    exact ⟨[0, 1], by decide +kernel, by decide, by decide⟩
  · refine
      (betterInformed_ceiling (pairGraph 9 [])
        (pairGraph 4 [⟨0, 1, 1⟩])
        (pairGraph_betterInformed [] [⟨0, 1, 1⟩])).2 ?_ ?_
    · intro c hc
      rw [hcomponents] at hc
      rw [List.mem_singleton.mp hc]
      refine Or.inr ⟨pairGraph_balanced [0, 1], [0], ?_⟩
      refine
        ⟨by decide +kernel, by decide, by decide +kernel, ?_⟩
      intro u v w harc hnot
      have hrows : (pairGraph 9 []).rowsAt 1 = 9 := by
        decide +kernel
      rcases pairGraph_arc harc with ⟨_, rfl, rfl⟩ | ⟨_, rfl, _⟩
      · rw [hrows]
        decide
      · exact absurd (List.mem_singleton_self 0) hnot
    · apply not_hidesZero_of_ne_zero
      decide +kernel

/--
Three relations joined in a triangle.  From the first one, which has a single
row, the second costs `degree` rows and the third three; on attribute 4 the
second would cost two.
-/
def steeredTriangle
    (degree : UInt64)
    (further : List JoinEdge) : JoinGraph :=
  ofCalls
    [JoinRelation.new 1,
      (((JoinRelation.new 100).withDegree 3 ⟨1⟩).withDegree 4
        ⟨2⟩).withDegree 1 ⟨degree⟩,
      (JoinRelation.new 100).withDegree 2 ⟨3⟩]
    ([⟨0, 1, 1⟩, ⟨0, 2, 2⟩, ⟨1, 2, 3⟩] ++ further)

/-- Two foreign-key joins, and perhaps predicates between them. -/
def linkedPairs (further : List JoinEdge) : JoinGraph :=
  ofCalls
    [(JoinRelation.new 100).withDegree 1 ⟨1⟩, JoinRelation.new 1,
      (JoinRelation.new 100).withDegree 1 ⟨1⟩, JoinRelation.new 1]
    ([⟨0, 1, 1⟩, ⟨2, 3, 1⟩] ++ further)

theorem steeredTriangle_betterInformed
    {degree degree' : UInt64}
    (hle : degree' ≤ degree)
    (further : List JoinEdge) :
    (steeredTriangle degree []).BetterInformed
      (steeredTriangle degree' further) := by
  unfold steeredTriangle
  rw [List.append_nil]
  apply BetterInformed.ofCalls
  refine .cons ⟨UInt64.le_refl _, fun a => UInt64.le_refl _⟩
    (.cons ⟨UInt64.le_refl _, ?_⟩
      (.cons ⟨UInt64.le_refl _, fun a => UInt64.le_refl _⟩ .nil))
  intro a
  rw [JoinRelation.withDegree_degree _ 1 a ⟨degree⟩,
    JoinRelation.withDegree_degree _ 1 a ⟨degree'⟩]
  split_ifs
  · exact hle
  · exact UInt64.le_refl _

theorem steeredTriangle_fusesNothing
    (degree degree' : UInt64)
    (further : List JoinEdge)
    (hcomponents :
      (steeredTriangle degree []).components = [[0, 1, 2]]) :
    (steeredTriangle degree []).FusesNothing
      (steeredTriangle degree' further) := by
  intro e he
  rw [steeredTriangle, mem_ofCalls_edges] at he
  have hall : ∀ v < 3, v ∈ [0, 1, 2] := by
    decide
  rw [hcomponents]
  exact
    ⟨[0, 1, 2], List.mem_singleton_self _, hall e.left he.2.1,
      hall e.right he.2.2.1⟩

/--
**Better statistics can raise the ceiling.**  A smaller degree, or a cheaper
predicate beside another, steers the greedy search into a dearer tree; a
predicate between two components has one of them attached at what it costs from
the other.
-/
theorem better_statistics_raise_ceiling :
    ((steeredTriangle 4 []).BetterInformed (steeredTriangle 2 []) ∧
      (steeredTriangle 4 []).FusesNothing (steeredTriangle 2 []) ∧
      (steeredTriangle 4 []).ceiling < (steeredTriangle 2 []).ceiling) ∧
    ((steeredTriangle 4 []).BetterInformed
        (steeredTriangle 4 [⟨0, 1, 4⟩]) ∧
      (steeredTriangle 4 []).FusesNothing
        (steeredTriangle 4 [⟨0, 1, 4⟩]) ∧
      (steeredTriangle 4 []).ceiling <
        (steeredTriangle 4 [⟨0, 1, 4⟩]).ceiling) ∧
    ((linkedPairs []).BetterInformed (linkedPairs [⟨0, 2, 2⟩]) ∧
      (linkedPairs []).ceiling < (linkedPairs [⟨0, 2, 2⟩]).ceiling) := by
  have hcomponents :
      (steeredTriangle 4 []).components = [[0, 1, 2]] := by
    decide +kernel
  have hlinked :
      (linkedPairs []).BetterInformed (linkedPairs [⟨0, 2, 2⟩]) := by
    apply BetterInformed.ofCalls
    exact
      List.forall₂_same.mpr fun r _ =>
        ⟨UInt64.le_refl _, fun a => UInt64.le_refl _⟩
  exact
    ⟨⟨steeredTriangle_betterInformed (by decide) [],
        steeredTriangle_fusesNothing 4 2 [] hcomponents,
        by decide +kernel⟩,
      ⟨steeredTriangle_betterInformed (UInt64.le_refl 4) [⟨0, 1, 4⟩],
        steeredTriangle_fusesNothing 4 4 [⟨0, 1, 4⟩] hcomponents,
        by decide +kernel⟩,
      hlinked, by decide +kernel⟩

end JoinGraph

end Samkhya
