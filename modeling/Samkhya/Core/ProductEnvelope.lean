import Mathlib
import Samkhya.Core.JoinCeiling

/-!
# The ceiling against the Cartesian product

Every component ceiling is capped by its Cartesian product, so the ceiling of a
graph should never exceed `ProductBound` of all row counts, should coincide
with it when no degree is registered, and should be zero as soon as some
relation is empty.  `ProductEnvelope` is this promise.

The component loop leaves early once the running product reaches `u64::MAX`.
A zero factor that it has not read yet is then lost, and that is the only way
the promise can fail: `productEnvelope_iff` gives the exact condition, per
graph in terms of the ceilings of the components read so far, and per shape,
over all degrees, in terms of their row counts alone.
-/

namespace Samkhya

open Saturating

namespace JoinGraph

/-- No relation carries a registered degree. -/
def Uninformed (g : JoinGraph) : Prop :=
  ∀ r ∈ g.relations, ∀ a : AttributeId, r.degrees[a]? = none

/-- The promise relating the ceiling to the Cartesian product. -/
structure ProductEnvelope (g : JoinGraph) : Prop where
  le_product : g.ceiling ≤ ProductBound.ceiling g.rowCounts []
  eq_product :
    g.Uninformed → g.ceiling = ProductBound.ceiling g.rowCounts []
  eq_zero : (∃ r ∈ g.relations, r.rows = 0) → g.ceiling = 0

/-- Product of the ceilings of some components. -/
def ceilingProduct (g : JoinGraph) (cs : List (List Nat)) : Nat :=
  (cs.map (fun c => (g.componentCeiling c).toNat)).prod

/-- Product of the row counts of some components. -/
def rowProduct (g : JoinGraph) (cs : List (List Nat)) : Nat :=
  (cs.map (fun c => (c.map g.rowsAt).prod)).prod

/--
An empty relation is listed after components whose ceilings already multiply to
`u64::MAX` or more.
-/
def SaturatesBeforeEmpty (g : JoinGraph) : Prop :=
  ∃ before after,
    g.components = before ++ after ∧
    u64Max ≤ g.ceilingProduct before ∧
    ∃ i ∈ after.flatten, g.rowsAt i = 0

/--
An empty relation is listed after components whose row counts already multiply
to `u64::MAX` or more.
-/
def RowsSaturateBeforeEmpty (g : JoinGraph) : Prop :=
  ∃ before after,
    g.components = before ++ after ∧
    u64Max ≤ g.rowProduct before ∧
    ∃ i ∈ after.flatten, g.rowsAt i = 0

/-- Two graphs with the same edges and row counts; degrees may differ. -/
structure SameShape (g g' : JoinGraph) : Prop where
  rowCounts_eq : g'.rowCounts = g.rowCounts
  edges_eq : g'.edges = g.edges

@[simp] theorem rowProduct_append
    (g : JoinGraph)
    (cs ds : List (List Nat)) :
    g.rowProduct (cs ++ ds) =
      g.rowProduct cs * g.rowProduct ds := by
  simp [rowProduct]

@[simp] theorem ceilingProduct_cons
    (g : JoinGraph)
    (c : List Nat)
    (cs : List (List Nat)) :
    g.ceilingProduct (c :: cs) =
      (g.componentCeiling c).toNat * g.ceilingProduct cs := by
  simp [ceilingProduct]

@[simp] theorem rowProduct_cons
    (g : JoinGraph)
    (c : List Nat)
    (cs : List (List Nat)) :
    g.rowProduct (c :: cs) =
      (c.map g.rowsAt).prod * g.rowProduct cs := by
  simp [rowProduct]

/-- The product over components is the product over all their relations. -/
theorem rowProduct_eq_flatten
    (g : JoinGraph)
    (cs : List (List Nat)) :
    g.rowProduct cs = (cs.flatten.map g.rowsAt).prod := by
  induction cs with
  | nil =>
      rfl
  | cons c cs ih =>
      rw [rowProduct_cons, ih, List.flatten_cons, List.map_append,
        List.prod_append]

theorem map_rowsAt_range
    (g : JoinGraph) :
    (List.range g.relations.length).map g.rowsAt =
      g.rowCounts.map UInt64.toNat := by
  apply List.ext_getElem
  · simp [rowCounts]
  · intro i hi _
    have hlt : i < g.relations.length := by
      simpa using hi
    simp [rowCounts, rowsAt, relation, hlt]

/-- The components together hold every row count once. -/
theorem rowProduct_components
    (g : JoinGraph) :
    g.rowProduct g.components =
      (g.rowCounts.map UInt64.toNat).prod := by
  rw [rowProduct_eq_flatten, ← map_rowsAt_range]
  exact (g.components_perm.map g.rowsAt).prod_eq

/-- A component's ceiling is capped by its Cartesian product. -/
theorem componentCeiling_le
    (g : JoinGraph)
    (component : List Nat) :
    (g.componentCeiling component).toNat ≤
      (component.map g.rowsAt).prod := by
  unfold componentCeiling
  simp only
  split_ifs with hone
  · obtain ⟨v, rfl⟩ := List.length_eq_one_iff.mp hone
    simp [rowsAt]
  · refine
      List.foldlRecOn
        (motive := fun best : UInt64 =>
          best.toNat ≤ (component.map g.rowsAt).prod)
        _ _ ?_ ?_
    · rw [ProductBound.toNat_ceiling, List.map_map]
      exact Nat.min_le_left _ _
    · intro best hbest root _
      split_ifs with hlt
      · exact (UInt64.lt_iff_toNat_lt.mp hlt).le.trans hbest
      · exact hbest

theorem ceilingProduct_le
    (g : JoinGraph)
    (cs : List (List Nat)) :
    g.ceilingProduct cs ≤ g.rowProduct cs := by
  induction cs with
  | nil =>
      exact le_rfl
  | cons c cs ih =>
      rw [ceilingProduct_cons, rowProduct_cons]
      exact Nat.mul_le_mul (g.componentCeiling_le c) ih

/-- An empty relation makes the Cartesian product of its components vanish. -/
theorem rowProduct_eq_zero
    (g : JoinGraph)
    {cs : List (List Nat)}
    {i : Nat}
    (hi : i ∈ cs.flatten)
    (hzero : g.rowsAt i = 0) :
    g.rowProduct cs = 0 := by
  rw [rowProduct_eq_flatten]
  exact
    List.prod_eq_zero (List.mem_map.mpr ⟨i, hi, hzero⟩)

theorem ceilingProduct_eq_zero
    (g : JoinGraph)
    {cs : List (List Nat)}
    {i : Nat}
    (hi : i ∈ cs.flatten)
    (hzero : g.rowsAt i = 0) :
    g.ceilingProduct cs = 0 :=
  Nat.le_zero.mp
    ((g.ceilingProduct_le cs).trans
      (g.rowProduct_eq_zero hi hzero).le)

/-- A prefix that reaches the limit makes the loop answer `u64::MAX`. -/
theorem ceilingLoop_eq_max
    (g : JoinGraph)
    {total : Nat}
    (htotal : total < u64Max)
    {before after : List (List Nat)}
    (hbefore : u64Max ≤ total * g.ceilingProduct before) :
    (g.ceilingLoop total (before ++ after)).toNat = u64Max := by
  induction before generalizing total with
  | nil =>
      simp only [ceilingProduct, List.map_nil, List.prod_nil,
        Nat.mul_one] at hbefore
      omega
  | cons c before ih =>
      rw [List.cons_append, ceilingLoop]
      rw [satMul_u128_eq htotal.le (toNat_le_u64Max _)]
      split_ifs with hsat
      · exact toNat_u64Max
      · apply ih (Nat.lt_of_not_le hsat)
        rw [ceilingProduct_cons, ← Nat.mul_assoc] at hbefore
        exact hbefore

/-- Without such a prefix the loop computes the exact product. -/
theorem ceilingLoop_eq_prod
    (g : JoinGraph)
    {total : Nat}
    {cs : List (List Nat)}
    (hearlier :
      ∀ before after, cs = before ++ after →
        total * g.ceilingProduct before < u64Max) :
    (g.ceilingLoop total cs).toNat =
      total * g.ceilingProduct cs := by
  induction cs generalizing total with
  | nil =>
      have htotal := hearlier [] [] rfl
      simp only [ceilingProduct, List.map_nil, List.prod_nil,
        Nat.mul_one] at htotal ⊢
      exact toNat_ofNat_of_le htotal.le
  | cons c cs ih =>
      have htotal := hearlier [] (c :: cs) rfl
      have hstep := hearlier [c] cs rfl
      simp only [ceilingProduct, List.map_nil, List.map_cons,
        List.prod_nil, List.prod_cons, Nat.mul_one]
        at htotal hstep
      rw [ceilingLoop]
      rw [satMul_u128_eq htotal.le (toNat_le_u64Max _)]
      rw [if_neg (Nat.not_le_of_lt hstep)]
      rw [ih, ceilingProduct_cons, Nat.mul_assoc]
      intro before after hcs
      have h := hearlier (c :: before) after (by rw [hcs]; rfl)
      rwa [ceilingProduct_cons, ← Nat.mul_assoc] at h

/-- Without degrees the Cartesian product is a join weight. -/
theorem joinWeight_product
    {g : JoinGraph}
    (h : g.Uninformed) :
    g.JoinWeight (fun S => ∏ i ∈ S, g.rowsAt i) where
  empty_le := by
    simp
  single_le := by
    intro v _
    simp
  union_le := by
    intro S T hST
    exact (Finset.prod_union hST).le
  attach_le := by
    intro S e _ source target _ _ htarget
    have hfactor :
        (g.factorAt target e.attributeId).toNat =
          g.rowsAt target := by
      have hnone :
          (g.relation target).degrees[e.attributeId]? = none := by
        unfold relation
        rw [List.getD_eq_getElem?_getD]
        cases hget : g.relations[target]? with
        | none =>
            simp [JoinRelation.new]
        | some r =>
            exact h r (List.mem_of_getElem? hget) e.attributeId
      simp [factorAt, JoinRelation.degree, hnone, rowsAt]
    rw [hfactor, Finset.prod_insert htarget, Nat.mul_comm]

/-- Without degrees the ceiling is at least the product. -/
theorem product_le_ceiling
    {g : JoinGraph}
    (hne : g.relations ≠ [])
    (h : g.Uninformed) :
    ProductBound.ceiling g.rowCounts [] ≤ g.ceiling := by
  have hle :=
    (joinWeight_product h).le_of_run (g.ceiling_run hne)
  have hprod :
      ∏ i ∈ Finset.range g.relations.length, g.rowsAt i =
        (g.rowCounts.map UInt64.toNat).prod := by
    rw [← map_rowsAt_range, ← List.prod_toFinset _ List.nodup_range,
      List.toFinset_range]
  rw [UInt64.le_iff_toNat_le, ProductBound.toNat_ceiling, ← hprod]
  exact hle

/-- An empty relation is listed in some component. -/
theorem exists_mem_components_of_empty
    {g : JoinGraph}
    (h : ∃ r ∈ g.relations, r.rows = 0) :
    ∃ i ∈ g.components.flatten, g.rowsAt i = 0 := by
  obtain ⟨r, hr, hzero⟩ := h
  obtain ⟨i, hi, hget⟩ := List.mem_iff_getElem.mp hr
  refine ⟨i, ?_, ?_⟩
  · exact
      g.components_perm.mem_iff.mpr (List.mem_range.mpr hi)
  · simp [rowsAt, relation, hi, hget, hzero]

theorem ceiling_eq_loop
    {g : JoinGraph}
    (hne : g.relations ≠ []) :
    g.ceiling = g.ceilingLoop 1 g.components := by
  unfold ceiling
  rw [if_neg (by simpa using hne)]

/-- Some components, read first, already reach `u64::MAX`. -/
def PrefixSaturates (g : JoinGraph) (before : List (List Nat)) : Prop :=
  ∃ after,
    g.components = before ++ after ∧
    u64Max ≤ g.ceilingProduct before

/-- A saturating prefix decides the ceiling. -/
theorem ceiling_eq_max
    {g : JoinGraph}
    (hne : g.relations ≠ [])
    {before : List (List Nat)}
    (h : g.PrefixSaturates before) :
    g.ceiling.toNat = u64Max := by
  obtain ⟨after, hcs, hsat⟩ := h
  rw [ceiling_eq_loop hne, hcs]
  apply g.ceilingLoop_eq_max (by decide)
  rw [Nat.one_mul]
  exact hsat

/-- Without a saturating prefix the ceiling is the exact product. -/
theorem ceiling_eq_prod
    {g : JoinGraph}
    (hne : g.relations ≠ [])
    (h : ∀ before, ¬ g.PrefixSaturates before) :
    g.ceiling.toNat = g.ceilingProduct g.components := by
  rw [ceiling_eq_loop hne, ceilingLoop_eq_prod, Nat.one_mul]
  intro before after hcs
  rw [Nat.one_mul]
  apply Nat.lt_of_not_le
  intro hge
  exact h before ⟨after, hcs, hge⟩

/--
A component with a ceiling of zero is listed after components whose ceilings
already multiply to `u64::MAX` or more.
-/
def HidesZero (g : JoinGraph) : Prop :=
  ∃ before after,
    g.components = before ++ after ∧
    u64Max ≤ g.ceilingProduct before ∧
    g.ceilingProduct after = 0

/-- Without a zero there is none to hide. -/
theorem not_hidesZero_of_ne_zero
    {g : JoinGraph}
    (h : g.ceilingProduct g.components ≠ 0) :
    ¬ g.HidesZero := by
  rintro ⟨before, after, hcs, _, hzero⟩
  apply h
  have hsplit :
      g.ceilingProduct (before ++ after) =
        g.ceilingProduct before * g.ceilingProduct after := by
    simp [ceilingProduct]
  rw [hcs, hsplit, hzero, Nat.mul_zero]

/-- Unless a zero is hidden the ceiling is the exact product, cut off once. -/
theorem toNat_ceiling_of_not_hidesZero
    {g : JoinGraph}
    (hne : g.relations ≠ [])
    (h : ¬ g.HidesZero) :
    g.ceiling.toNat = min (g.ceilingProduct g.components) u64Max := by
  by_cases hprefix : ∃ before, g.PrefixSaturates before
  · obtain ⟨before, hsaturates⟩ := hprefix
    rw [ceiling_eq_max hne hsaturates]
    obtain ⟨after, hcs, hsat⟩ := hsaturates
    have hpos : 0 < g.ceilingProduct after := by
      apply Nat.pos_of_ne_zero
      intro hzero
      exact h ⟨before, after, hcs, hsat, hzero⟩
    have hsplit :
        g.ceilingProduct g.components =
          g.ceilingProduct before * g.ceilingProduct after := by
      rw [hcs]
      simp [ceilingProduct]
    rw [hsplit]
    exact
      (Nat.min_eq_right
        (hsat.trans (Nat.le_mul_of_pos_right _ hpos))).symm
  · push Not at hprefix
    rw [← ceiling_eq_prod hne hprefix]
    exact (Nat.min_eq_left (toNat_le_u64Max _)).symm

/-- The early exit never cuts below the product. -/
theorem min_ceilingProduct_le
    {g : JoinGraph}
    (hne : g.relations ≠ []) :
    min (g.ceilingProduct g.components) u64Max ≤
      g.ceiling.toNat := by
  by_cases hprefix : ∃ before, g.PrefixSaturates before
  · obtain ⟨before, hsaturates⟩ := hprefix
    rw [ceiling_eq_max hne hsaturates]
    exact Nat.min_le_right _ _
  · push Not at hprefix
    rw [ceiling_eq_prod hne hprefix]
    exact Nat.min_le_left _ _

/-- Components without an empty relation multiply to something positive. -/
theorem rowProduct_pos
    {g : JoinGraph}
    {cs : List (List Nat)}
    (h : ∀ i ∈ cs.flatten, g.rowsAt i ≠ 0) :
    0 < g.rowProduct cs := by
  rw [rowProduct_eq_flatten]
  apply Nat.pos_of_ne_zero
  intro hzero
  obtain ⟨i, hi, hi0⟩ :=
    List.mem_map.mp (List.prod_eq_zero_iff.mp hzero)
  exact h i hi hi0

/-- A saturating prefix with no empty relation saturates the product too. -/
theorem product_eq_max
    {g : JoinGraph}
    {before : List (List Nat)}
    (hearlier : g.PrefixSaturates before)
    (hnozero : ∀ i ∈ g.components.flatten, g.rowsAt i ≠ 0) :
    (ProductBound.ceiling g.rowCounts []).toNat = u64Max := by
  obtain ⟨after, hcs, hsat⟩ := hearlier
  have hafter : 0 < g.rowProduct after := by
    apply rowProduct_pos
    intro i hi
    apply hnozero
    rw [hcs, List.flatten_append]
    exact List.mem_append_right _ hi
  rw [ProductBound.toNat_ceiling, ← rowProduct_components, hcs,
    rowProduct_append]
  apply Nat.min_eq_right
  calc
    u64Max ≤ g.rowProduct before :=
      hsat.trans (g.ceilingProduct_le before)
    _ ≤ g.rowProduct before * g.rowProduct after :=
      Nat.le_mul_of_pos_right _ hafter

/-- The early exit before an empty relation breaks the promise. -/
theorem not_productEnvelope
    {g : JoinGraph}
    (hne : g.relations ≠ [])
    (h : g.SaturatesBeforeEmpty) :
    ¬ g.ProductEnvelope := by
  obtain ⟨before, after, hcs, hsat, i, hi, hzero⟩ := h
  intro henv
  have hceiling := ceiling_eq_max hne ⟨after, hcs, hsat⟩
  have hproduct :
      (ProductBound.ceiling g.rowCounts []).toNat = 0 := by
    have hmem : i ∈ g.components.flatten := by
      rw [hcs, List.flatten_append]
      exact List.mem_append_right _ hi
    rw [ProductBound.toNat_ceiling, ← rowProduct_components,
      g.rowProduct_eq_zero hmem hzero]
    exact Nat.zero_min _
  have hle := UInt64.le_iff_toNat_le.mp henv.le_product
  rw [hceiling, hproduct] at hle
  exact absurd hle (by decide)

/-- Without the early exit before an empty relation the promise holds. -/
theorem productEnvelope_of_not
    {g : JoinGraph}
    (hne : g.relations ≠ [])
    (h : ¬ g.SaturatesBeforeEmpty) :
    g.ProductEnvelope := by
  have hmain :
      g.ceiling ≤ ProductBound.ceiling g.rowCounts [] ∧
      ((∃ r ∈ g.relations, r.rows = 0) → g.ceiling = 0) := by
    by_cases hearlier : ∃ before, g.PrefixSaturates before
    · obtain ⟨before, hbefore⟩ := hearlier
      have hnozero :
          ∀ i ∈ g.components.flatten, g.rowsAt i ≠ 0 := by
        intro i hi hzero
        obtain ⟨after, hcs, hsat⟩ := hbefore
        rw [hcs, List.flatten_append] at hi
        rcases List.mem_append.mp hi with hi | hi
        · rw [g.ceilingProduct_eq_zero hi hzero] at hsat
          exact absurd hsat (by decide)
        · exact h ⟨before, after, hcs, hsat, i, hi, hzero⟩
      constructor
      · rw [UInt64.le_iff_toNat_le, product_eq_max hbefore hnozero]
        exact toNat_le_u64Max g.ceiling
      · intro hempty
        obtain ⟨i, hi, hzero⟩ :=
          exists_mem_components_of_empty hempty
        exact absurd hzero (hnozero i hi)
    · have hexact :=
        ceiling_eq_prod hne (not_exists.mp hearlier)
      constructor
      · rw [UInt64.le_iff_toNat_le, ProductBound.toNat_ceiling,
          ← rowProduct_components]
        exact
          Nat.le_min.mpr
            ⟨hexact.le.trans (g.ceilingProduct_le _),
              toNat_le_u64Max g.ceiling⟩
      · intro hempty
        obtain ⟨i, hi, hzero⟩ :=
          exists_mem_components_of_empty hempty
        apply UInt64.toNat_inj.mp
        rw [hexact, g.ceilingProduct_eq_zero hi hzero]
        rfl
  refine ⟨hmain.1, ?_, hmain.2⟩
  intro huninformed
  exact
    UInt64.le_antisymm hmain.1
      (product_le_ceiling hne huninformed)

/-- The same graph with every degree forgotten. -/
def eraseDegrees (g : JoinGraph) : JoinGraph where
  relations := g.relations.map (fun r => JoinRelation.new r.rows)
  edges := g.edges
  edges_inRange := by
    rw [List.length_map]
    exact g.edges_inRange

theorem eraseDegrees_sameShape
    (g : JoinGraph) :
    g.SameShape g.eraseDegrees where
  rowCounts_eq := by
    simp [rowCounts, eraseDegrees]
  edges_eq := rfl

theorem eraseDegrees_uninformed
    (g : JoinGraph) :
    g.eraseDegrees.Uninformed := by
  intro r hr a
  obtain ⟨r₀, _, rfl⟩ := List.mem_map.mp hr
  simp [JoinRelation.new]

namespace SameShape

variable {g g' : JoinGraph}

theorem length_eq
    (h : g.SameShape g') :
    g'.relations.length = g.relations.length := by
  simpa [rowCounts] using congrArg List.length h.rowCounts_eq

/-- Components do not look at degrees. -/
theorem components_eq
    (h : g.SameShape g') :
    g'.components = g.components := by
  have htry : g'.tryComponents = g.tryComponents := by
    unfold tryComponents
    rw [h.length_eq, h.edges_eq]
  apply Option.some.inj
  unfold components
  rw [Option.some_get, Option.some_get]
  exact htry

theorem rowsAt_eq
    (h : g.SameShape g')
    (i : Nat) :
    g'.rowsAt i = g.rowsAt i := by
  have hget :
      ∀ g : JoinGraph,
        g.rowsAt i = (g.rowCounts.getD i 0).toNat := by
    intro g
    unfold rowsAt relation rowCounts
    simp only [List.getD_eq_getElem?_getD, List.getElem?_map]
    cases g.relations[i]? <;> rfl
  rw [hget g', hget g, h.rowCounts_eq]

theorem rowProduct_eq
    (h : g.SameShape g')
    (cs : List (List Nat)) :
    g'.rowProduct cs = g.rowProduct cs := by
  unfold rowProduct
  rw [funext h.rowsAt_eq]

end SameShape

/-- Without degrees a component's ceiling is its product, up to the limit. -/
theorem min_rowProduct_le
    {g : JoinGraph}
    (h : g.Uninformed)
    (cs : List (List Nat))
    (hrange : ∀ c ∈ cs, ∀ v ∈ c, v < g.relations.length)
    (hnodup : ∀ c ∈ cs, c.Nodup) :
    min (g.rowProduct cs) u64Max ≤ g.ceilingProduct cs := by
  induction cs with
  | nil =>
      exact Nat.min_le_left _ _
  | cons c cs ih =>
      have hc :=
        (joinWeight_product h).le_componentBound
          (hrange c List.mem_cons_self)
          (hnodup c List.mem_cons_self)
          (g.componentCeiling_bound c)
      rw [List.prod_toFinset _ (hnodup c List.mem_cons_self)] at hc
      rw [rowProduct_cons, ceilingProduct_cons]
      exact
        min_le_mul hc
          (ih
            (fun d hd => hrange d (List.mem_cons_of_mem c hd))
            (fun d hd => hnodup d (List.mem_cons_of_mem c hd)))
          le_rfl

/-- A shape that saturates on its rows has an offending member. -/
theorem eraseDegrees_saturates
    {g : JoinGraph}
    (h : g.RowsSaturateBeforeEmpty) :
    g.eraseDegrees.SaturatesBeforeEmpty := by
  obtain ⟨before, after, hcs, hsat, i, hi, hzero⟩ := h
  have hshape := g.eraseDegrees_sameShape
  refine
    ⟨before, after, hshape.components_eq.trans hcs, ?_, i, hi,
      (hshape.rowsAt_eq i).trans hzero⟩
  have hperm := g.components_perm
  have hmem : ∀ c ∈ before, c ∈ g.components := by
    intro c hc
    rw [hcs]
    exact List.mem_append_left _ hc
  have hle :=
    min_rowProduct_le g.eraseDegrees_uninformed before
      (by
        intro c hc v hv
        rw [hshape.length_eq]
        exact
          List.mem_range.mp
            (hperm.mem_iff.mp
              (List.mem_flatten_of_mem (hmem c hc) hv)))
      (by
        intro c hc
        have hflat := hperm.nodup_iff.mpr List.nodup_range
        exact (List.nodup_flatten.mp hflat).1 c (hmem c hc))
  rw [hshape.rowProduct_eq, Nat.min_eq_right hsat] at hle
  exact hle

end JoinGraph

/--
**The ceiling respects the Cartesian product exactly when the component loop
does not stop early in front of an empty relation**: for one graph, in terms of
the component ceilings read so far; for one shape and all degrees, in terms of
the row counts read so far.
-/
theorem productEnvelope_iff
    (g : JoinGraph)
    (hne : g.relations ≠ []) :
    (g.ProductEnvelope ↔ ¬ g.SaturatesBeforeEmpty) ∧
    ((∀ g', g.SameShape g' → g'.ProductEnvelope) ↔
      ¬ g.RowsSaturateBeforeEmpty) := by
  have hiff :
      ∀ g : JoinGraph, g.relations ≠ [] →
        (g.ProductEnvelope ↔ ¬ g.SaturatesBeforeEmpty) :=
    fun g hne =>
      ⟨fun henv hsat => JoinGraph.not_productEnvelope hne hsat henv,
        JoinGraph.productEnvelope_of_not hne⟩
  have hne' :
      ∀ g', g.SameShape g' → g'.relations ≠ [] := by
    intro g' hshape hnil
    apply hne
    apply List.length_eq_zero_iff.mp
    rw [← hshape.length_eq, hnil]
    rfl
  refine ⟨hiff g hne, ?_, ?_⟩
  · intro hall hsat
    have hshape := g.eraseDegrees_sameShape
    exact
      (hiff _ (hne' _ hshape)).mp (hall _ hshape)
        (JoinGraph.eraseDegrees_saturates hsat)
  · intro hsat g' hshape
    apply (hiff g' (hne' g' hshape)).mpr
    rintro ⟨before, after, hcs, hle, i, hi, hzero⟩
    apply hsat
    refine
      ⟨before, after, hshape.components_eq.symm.trans hcs, ?_, i,
        hi, (hshape.rowsAt_eq i).symm.trans hzero⟩
    rw [← hshape.rowProduct_eq]
    exact hle.trans (g'.ceilingProduct_le before)

/-- Two relations that are not empty. -/
def sixAndSeven : JoinGraph :=
  JoinGraph.new [JoinRelation.new 6, JoinRelation.new 7]

/-- They meet the condition, so the bound is below the product. -/
theorem productEnvelope_iff_two :
    sixAndSeven.ProductEnvelope ∧
      ∀ g', sixAndSeven.SameShape g' → g'.ProductEnvelope := by
  have hrows :
      ∀ before after, sixAndSeven.components = before ++ after →
        ∀ i ∈ after.flatten, sixAndSeven.rowsAt i ≠ 0 := by
    intro before after hcs i hi
    have hall :
        ∀ i ∈ sixAndSeven.components.flatten,
          sixAndSeven.rowsAt i ≠ 0 := by
      decide +kernel
    apply hall
    rw [hcs, List.flatten_append]
    exact List.mem_append_right _ hi
  obtain ⟨henvelope, hshape⟩ :=
    productEnvelope_iff sixAndSeven (List.cons_ne_nil _ _)
  refine ⟨henvelope.mpr ?_, hshape.mpr ?_⟩
  · rintro ⟨before, after, hcs, _, i, hi, hzero⟩
    exact hrows before after hcs i hi hzero
  · rintro ⟨before, after, hcs, _, i, hi, hzero⟩
    exact hrows before after hcs i hi hzero

/-- A relation of `u64::MAX` rows followed by an empty one, not joined. -/
def hugeThenEmpty : JoinGraph :=
  JoinGraph.new
    [JoinRelation.new (UInt64.ofNat u64Max), JoinRelation.new 0]

/-- The ceiling of an empty product is published as `u64::MAX`. -/
theorem hugeThenEmpty_ceiling :
    hugeThenEmpty.ceiling = UInt64.ofNat u64Max ∧
      ProductBound.ceiling hugeThenEmpty.rowCounts [] = 0 ∧
      ¬ hugeThenEmpty.ProductEnvelope := by
  have hceiling :
      hugeThenEmpty.ceiling = UInt64.ofNat u64Max := by
    decide +kernel
  have hproduct :
      ProductBound.ceiling hugeThenEmpty.rowCounts [] = 0 := by
    decide +kernel
  refine ⟨hceiling, hproduct, ?_⟩
  intro henv
  have hle := henv.le_product
  rw [hceiling, hproduct] at hle
  exact absurd hle (by decide)

end Samkhya
