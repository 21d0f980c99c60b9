import Mathlib
import Samkhya.Core.CeilingMonotone
import Samkhya.Core.ProductEnvelope

/-!
# The factors of a ceiling

The bound that a spanning tree gives to a component is a product with one
factor for each relation: all rows of the root, and a degree of each other
relation.  A ceiling without zeros is such a product over all relations, cut
off once (`exists_factors`).  When the degree of a relation is the same on all
its edges, every choice of roots bounds the ceiling from above
(`ceiling_le_prod`).
-/

namespace Samkhya

open Saturating SpanningGrowth

namespace JoinGraph

variable {g : JoinGraph} {c : List Nat}

/-- Factors of the relations of a component, one of them with all its rows. -/
structure FactorsOf
    (g : JoinGraph)
    (c : List Nat)
    (x : Nat → Nat) : Prop where
  pos : ∀ v ∈ c, 0 < x v
  le : ∀ v ∈ c, x v ≤ g.rowsAt v
  full : ∃ r ∈ c, x r = g.rowsAt r

theorem FactorsOf.congr
    {x y : Nat → Nat}
    (h : g.FactorsOf c x)
    (hsame : ∀ v ∈ c, y v = x v) :
    g.FactorsOf c y where
  pos v hv := by
    rw [hsame v hv]
    exact h.pos v hv
  le v hv := by
    rw [hsame v hv]
    exact h.le v hv
  full := by
    obtain ⟨r, hr, hfull⟩ := h.full
    exact ⟨r, hr, by rw [hsame r hr, hfull]⟩

/-- Relations have rows, and degrees from one up to their row counts. -/
structure Ordinary (g : JoinGraph) : Prop where
  rows_pos : ∀ v < g.relations.length, 0 < g.rowsAt v
  factor_pos :
    ∀ e ∈ g.edges, ∀ u v, (u, v) ∈ e.orientations →
      0 < (g.factorAt v e.attributeId).toNat
  factor_le :
    ∀ e ∈ g.edges, ∀ u v, (u, v) ∈ e.orientations →
      (g.factorAt v e.attributeId).toNat ≤ g.rowsAt v

theorem lt_of_mem_component
    (hc : c ∈ g.components)
    {v : Nat}
    (hv : v ∈ c) :
    v < g.relations.length :=
  ((mem_component_iff hc hv).mp hv).1

/-- The bound of a root, as one factor for each relation. -/
theorem exists_factors_tree
    (hg : g.Ordinary)
    (hc : c ∈ g.components)
    {root : Nat}
    (hroot : root ∈ c) :
    ∃ y,
      y root = g.rowsAt root ∧
      (∀ v ∈ c, v ≠ root → ∃ u, g.Arc c u v (y v)) ∧
      (g.spanningTreeCeiling c root).toNat =
        min (c.map y).prod u64Max := by
  obtain ⟨hgreedy, hreached⟩ :=
    treeSteps_greedy (Visiting.root hc hroot)
  obtain ⟨y, hstart, harcs, hprod⟩ :=
    hgreedy.growth.exists_factors g.rowsAt
  rw [hreached] at harcs hprod
  refine ⟨y, hstart root (by simp), ?_, ?_⟩
  · intro v hv hne
    exact harcs v (List.mem_toFinset.mpr hv) (by simpa using hne)
  · have hpositive : ∀ u v w, g.Arc c u v w → w ≠ 0 := by
      rintro u v w ⟨_, e, he, ho, rfl⟩
      exact (hg.factor_pos e he u v ho).ne'
    have hlist :
        ∏ v ∈ c.toFinset, y v = (c.map y).prod :=
      List.prod_toFinset y (component_nodup hc)
    rw [toNat_spanningTreeCeiling hc hpositive hroot, ← hlist, hprod]
    simp

/-- The ceiling of a component is a product of factors, cut off once. -/
theorem exists_factors_component
    (hg : g.Ordinary)
    (hc : c ∈ g.components) :
    ∃ x,
      g.FactorsOf c x ∧
      (g.componentCeiling c).toNat = min (c.map x).prod u64Max := by
  have hrows : ∀ v ∈ c, 0 < g.rowsAt v :=
    fun v hv => hg.rows_pos v (lt_of_mem_component hc hv)
  rcases g.componentCeiling_cases c with
    hproduct | ⟨root, hroot, htree⟩
  · obtain ⟨r, hr⟩ := List.exists_mem_of_ne_nil c (component_ne_nil hc)
    refine ⟨g.rowsAt, ⟨hrows, fun _ _ => le_rfl, r, hr, rfl⟩, ?_⟩
    rw [hproduct, ProductBound.toNat_ceiling, List.map_map]
    rfl
  · obtain ⟨y, hfull, harcs, hprod⟩ :=
      exists_factors_tree hg hc hroot
    have hfactor : ∀ v ∈ c, 0 < y v ∧ y v ≤ g.rowsAt v := by
      intro v hv
      by_cases hne : v = root
      · rw [hne, hfull]
        exact ⟨hrows root hroot, le_rfl⟩
      · obtain ⟨u, _, e, he, ho, hy⟩ := harcs v hv hne
        rw [hy]
        exact ⟨hg.factor_pos e he u v ho, hg.factor_le e he u v ho⟩
    refine
      ⟨y, ⟨fun v hv => (hfactor v hv).1, fun v hv => (hfactor v hv).2,
        root, hroot, hfull⟩, ?_⟩
    rw [htree, hprod]

/-- Nothing is lost to a zero. -/
theorem Ordinary.ceilingProduct_ne_zero
    (hg : g.Ordinary) :
    g.ceilingProduct g.components ≠ 0 := by
  intro hzero
  obtain ⟨c, hc, hcz⟩ :=
    List.mem_map.mp (List.prod_eq_zero_iff.mp hzero)
  obtain ⟨x, hx, hceiling⟩ := exists_factors_component hg hc
  have hprod : (c.map x).prod ≠ 0 := by
    rw [ne_eq, List.prod_eq_zero_iff, List.mem_map]
    rintro ⟨v, hv, hvz⟩
    exact (hx.pos v hv).ne' hvz
  have hmax : u64Max ≠ 0 := by decide
  omega

/-- Factors of disjoint components, put together. -/
theorem exists_factors_components
    (hg : g.Ordinary)
    {cs : List (List Nat)}
    (hcs : ∀ c ∈ cs, c ∈ g.components)
    (hdisjoint : cs.Pairwise List.Disjoint) :
    ∃ x,
      ∀ c ∈ cs,
        g.FactorsOf c x ∧
        (g.componentCeiling c).toNat =
          min (c.map x).prod u64Max := by
  induction cs with
  | nil =>
      exact ⟨g.rowsAt, by simp⟩
  | cons c cs ih =>
      obtain ⟨hfirst, hrest⟩ := List.pairwise_cons.mp hdisjoint
      obtain ⟨y, hy, hyceiling⟩ :=
        exists_factors_component hg (hcs c List.mem_cons_self)
      obtain ⟨x, hx⟩ :=
        ih (fun d hd => hcs d (List.mem_cons_of_mem c hd)) hrest
      have hmine :
          ∀ v ∈ c, (if v ∈ c then y v else x v) = y v :=
        fun v hv => if_pos hv
      have hothers :
          ∀ d ∈ cs, ∀ v ∈ d,
            (if v ∈ c then y v else x v) = x v :=
        fun d hd v hv => if_neg (fun hvc => hfirst d hd hvc hv)
      refine ⟨fun v => if v ∈ c then y v else x v, ?_⟩
      intro d hd
      rcases List.mem_cons.mp hd with rfl | hd
      · refine ⟨hy.congr hmine, ?_⟩
        rw [List.map_congr_left hmine, hyceiling]
      · obtain ⟨hfactors, hceiling⟩ := hx d hd
        refine ⟨hfactors.congr (hothers d hd), ?_⟩
        rw [List.map_congr_left (hothers d hd), hceiling]

/-- The product over the components is the product over all relations. -/
theorem prod_components
    (g : JoinGraph)
    (x : Nat → Nat) :
    (g.components.map (fun c => (c.map x).prod)).prod =
      ((List.range g.relations.length).map x).prod := by
  have hflatten :
      ∀ cs : List (List Nat),
        (cs.map (fun c => (c.map x).prod)).prod =
          (cs.flatten.map x).prod := by
    intro cs
    induction cs with
    | nil =>
        rfl
    | cons c cs ih =>
        rw [List.map_cons, List.prod_cons, ih, List.flatten_cons,
          List.map_append, List.prod_append]
  rw [hflatten]
  exact (g.components_perm.map x).prod_eq

/-- Cut-off products of the components make up the ceiling. -/
theorem min_ceilingProduct_eq
    {x : Nat → Nat}
    (h :
      ∀ c ∈ g.components,
        (g.componentCeiling c).toNat = min (c.map x).prod u64Max) :
    min (g.ceilingProduct g.components) u64Max =
      min ((List.range g.relations.length).map x).prod u64Max := by
  have hmap :
      g.components.map (fun c => (g.componentCeiling c).toNat) =
        (g.components.map (fun c => (c.map x).prod)).map
          (fun p => min p u64Max) := by
    rw [List.map_map]
    exact List.map_congr_left h
  rw [ceilingProduct, hmap, min_prod_min, prod_components]

/-- **An ordinary ceiling is a product of factors, cut off once.** -/
theorem exists_factors
    (hg : g.Ordinary)
    (hne : g.relations ≠ []) :
    ∃ x,
      (∀ c ∈ g.components, g.FactorsOf c x) ∧
      g.ceiling.toNat =
        min ((List.range g.relations.length).map x).prod u64Max := by
  obtain ⟨x, hx⟩ :=
    exists_factors_components hg (fun _ hc => hc)
      (List.nodup_flatten.mp
        (g.components_perm.nodup_iff.mpr List.nodup_range)).2
  refine ⟨x, fun c hc => (hx c hc).1, ?_⟩
  rw [toNat_ceiling_of_not_hidesZero hne
    (not_hidesZero_of_ne_zero hg.ceilingProduct_ne_zero)]
  exact min_ceilingProduct_eq fun c hc => (hx c hc).2

/-- **Degrees that are factors themselves bound the ceiling.** -/
theorem ceiling_le_prod
    (hg : g.Ordinary)
    (hne : g.relations ≠ [])
    {x : Nat → Nat}
    (hx : ∀ c ∈ g.components, g.FactorsOf c x)
    (hfactor :
      ∀ e ∈ g.edges, ∀ u v, (u, v) ∈ e.orientations →
        (g.factorAt v e.attributeId).toNat = x v) :
    g.ceiling.toNat ≤
      min ((List.range g.relations.length).map x).prod u64Max := by
  have hcomponent :
      ∀ c ∈ g.components,
        (g.componentCeiling c).toNat ≤ min (c.map x).prod u64Max := by
    intro c hc
    obtain ⟨root, hroot, hfull⟩ := (hx c hc).full
    obtain ⟨y, hyroot, harcs, hprod⟩ :=
      exists_factors_tree hg hc hroot
    have hsame : ∀ v ∈ c, y v = x v := by
      intro v hv
      by_cases hvr : v = root
      · rw [hvr, hyroot, hfull]
      · obtain ⟨u, _, e, he, ho, hy⟩ := harcs v hv hvr
        rw [hy]
        exact hfactor e he u v ho
    have hle :=
      UInt64.le_iff_toNat_le.mp (componentCeiling_le_tree (g := g) hroot)
    rw [hprod, List.map_congr_left hsame] at hle
    exact hle
  have hproduct :
      g.ceilingProduct g.components ≤
        ((g.components.map (fun c => (c.map x).prod)).map
          (fun p => min p u64Max)).prod := by
    rw [ceilingProduct, List.map_map]
    exact
      List.prod_map_le_prod_map₀ _ _ (fun _ _ => Nat.zero_le _)
        hcomponent
  rw [toNat_ceiling_of_not_hidesZero hne
    (not_hidesZero_of_ne_zero hg.ceilingProduct_ne_zero)]
  calc
    min (g.ceilingProduct g.components) u64Max
        ≤ min
            ((g.components.map (fun c => (c.map x).prod)).map
              (fun p => min p u64Max)).prod u64Max :=
      min_le_min_right u64Max hproduct
    _ = min ((List.range g.relations.length).map x).prod u64Max := by
      rw [min_prod_min, prod_components]

end JoinGraph

end Samkhya
