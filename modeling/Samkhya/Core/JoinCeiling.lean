import Mathlib
import Samkhya.Core.Components

/-!
# The spanning-tree degree ceiling

`ceiling` multiplies one ceiling per connected component; a component's ceiling
is the smaller of its Cartesian product and the greedy spanning-tree bounds
grown from each of its relations.

The greedy choice is a matter of tightness only.  `TreeGrowth` is the same loop
with any crossing edge allowed at each step, `ComponentBound` any of the bounds
a component may be given and `CeilingRun` the product over the components; the
code is one such run (`ceiling_run`).

Soundness is one induction over the tree that is being grown.  A `JoinWeight`
is any quantity on sets of relations that behaves like a number of partial
tuples: one for the empty set, at most the row count for one relation, at most
the product for two disjoint sets, and at most a factor `degree` for a relation
reached through an edge.  `JoinWeight.le_of_run` bounds every such quantity on
the whole graph by the result of every run, wherever the arithmetic saturates.
-/

namespace Samkhya

open Saturating

/-- Both directions in which an edge can cross the frontier. -/
def JoinEdge.orientations (e : JoinEdge) : List (Nat × Nat) :=
  [(e.left, e.right), (e.right, e.left)]

theorem JoinEdge.mem_orientations_iff
    {e : JoinEdge}
    {source target : Nat} :
    (source, target) ∈ e.orientations ↔
      (source = e.left ∧ target = e.right) ∨
      (source = e.right ∧ target = e.left) := by
  simp [orientations]

namespace JoinGraph

/-- Degree factor of attaching a relation through an attribute. -/
def factorAt
    (g : JoinGraph)
    (target : Nat)
    (attributeId : AttributeId) : UInt64 :=
  ((g.relation target).degree attributeId).maxDegree

/-- One orientation of an edge, as the frontier scan considers it. -/
def considerEdge
    (g : JoinGraph)
    (component visited : List Nat)
    (attributeId : AttributeId)
    (best : Option (Nat × UInt64))
    (orientation : Nat × Nat) : Option (Nat × UInt64) :=
  let (source, target) := orientation
  if !visited.contains source || visited.contains target then
    best
  else if !component.contains target then
    best
  else
    let factor := g.factorAt target attributeId
    if best.all (fun current => factor < current.2) then
      some (target, factor)
    else
      best

/-- The cheapest edge crossing the frontier, the first one among equals. -/
def bestEdge
    (g : JoinGraph)
    (component visited : List Nat) : Option (Nat × UInt64) :=
  g.edges.foldl
    (fun best edge =>
      edge.orientations.foldl
        (g.considerEdge component visited edge.attributeId) best)
    none

/-- The fallback: multiply in the rows of every unvisited relation. -/
def multiplyRemaining
    (g : JoinGraph)
    (component : List Nat)
    (state : List Nat × Nat) : List Nat × Nat :=
  component.foldl
    (fun state v =>
      if state.1.contains v then
        state
      else
        (state.1 ++ [v], satMul u128Max state.2 (g.rowsAt v)))
    state

/-- The final conversion of the `u128` bound. -/
def clampToU64 (bound : Nat) : UInt64 :=
  if bound ≥ u64Max then UInt64.ofNat u64Max else UInt64.ofNat bound

/-- The `while` loop that attaches one relation per round. -/
def growTree
    (g : JoinGraph)
    (component visited : List Nat)
    (bound : Nat) : UInt64 :=
  if visited.length < component.length then
    match g.bestEdge component visited with
    | none =>
        clampToU64
          (g.multiplyRemaining component (visited, bound)).2
    | some (next, factor) =>
        let bound := satMul u128Max bound factor.toNat
        if bound ≥ u64Max then
          UInt64.ofNat u64Max
        else
          growTree g component (visited ++ [next]) bound
  else
    clampToU64 bound
termination_by component.length - visited.length
decreasing_by
  rw [List.length_append, List.length_singleton]
  omega

/-- Bound of the greedy spanning tree grown from `root`. -/
def spanningTreeCeiling
    (g : JoinGraph)
    (component : List Nat)
    (root : Nat) : UInt64 :=
  g.growTree component [root] (g.rowsAt root)

/-- Best bound for one component. -/
def componentCeiling
    (g : JoinGraph)
    (component : List Nat) : UInt64 :=
  let rows := component.map (fun r => (g.relation r).rows)
  if component.length = 1 then
    (g.relation (component.headD 0)).rows
  else
    component.foldl
      (fun best root =>
        let candidate := g.spanningTreeCeiling component root
        if candidate < best then candidate else best)
      (ProductBound.ceiling rows [])

/-- The loop over components, stopping once the product saturates. -/
def ceilingLoop
    (g : JoinGraph)
    (total : Nat) : List (List Nat) → UInt64
  | [] => UInt64.ofNat total
  | component :: rest =>
      let total :=
        satMul u128Max total (g.componentCeiling component).toNat
      if total ≥ u64Max then
        UInt64.ofNat u64Max
      else
        ceilingLoop g total rest

/-- Inclusive ceiling on the output cardinality of the join. -/
def ceiling (g : JoinGraph) : UInt64 :=
  if g.relations.isEmpty then
    0
  else
    g.ceilingLoop 1 g.components

/-- What the frontier scan can return: a crossing edge and its factor. -/
def Crossing
    (g : JoinGraph)
    (component visited : List Nat)
    (candidate : Nat × UInt64) : Prop :=
  ∃ e ∈ g.edges, ∃ source,
    (source, candidate.1) ∈ e.orientations ∧
    source ∈ visited ∧
    candidate.1 ∉ visited ∧
    candidate.1 ∈ component ∧
    candidate.2 = g.factorAt candidate.1 e.attributeId

section Scan

variable {g : JoinGraph} {component visited : List Nat}

/-- One consideration only ever installs a crossing edge. -/
theorem considerEdge_crossing
    {e : JoinEdge}
    (he : e ∈ g.edges)
    {orientation : Nat × Nat}
    (ho : orientation ∈ e.orientations)
    {best : Option (Nat × UInt64)}
    (hbest : ∀ p, best = some p → g.Crossing component visited p) :
    ∀ p,
      g.considerEdge component visited e.attributeId best
          orientation = some p →
        g.Crossing component visited p := by
  intro p hp
  obtain ⟨source, target⟩ := orientation
  unfold considerEdge at hp
  simp only at hp
  split_ifs at hp with hfrontier hcomponent hbetter
  · exact hbest p hp
  · exact hbest p hp
  · obtain rfl := Option.some.inj hp
    simp only [Bool.or_eq_true, Bool.not_eq_true',
      List.contains_eq_mem, decide_eq_false_iff_not,
      decide_eq_true_eq, not_or, not_not] at hfrontier hcomponent
    exact
      ⟨e, he, source, ho, hfrontier.1, hfrontier.2, hcomponent,
        rfl⟩
  · exact hbest p hp

/-- The scan returns a crossing edge. -/
theorem bestEdge_crossing
    {p : Nat × UInt64}
    (h : g.bestEdge component visited = some p) :
    g.Crossing component visited p := by
  have hall :
      ∀ p, g.bestEdge component visited = some p →
        g.Crossing component visited p := by
    unfold bestEdge
    refine
      List.foldlRecOn
        (motive := fun best =>
          ∀ p, best = some p → g.Crossing component visited p)
        _ _ ?_ ?_
    · intro p hp
      cases hp
    · intro best hbest e he
      refine
        List.foldlRecOn
          (motive := fun best =>
            ∀ p, best = some p → g.Crossing component visited p)
          _ _ hbest ?_
      intro best hbest o ho
      exact considerEdge_crossing he ho hbest
  exact hall p h

/-- A consideration that leaves nothing had nothing to consider. -/
theorem considerEdge_eq_none
    {attributeId : AttributeId}
    {best : Option (Nat × UInt64)}
    {orientation : Nat × Nat}
    (h :
      g.considerEdge component visited attributeId best
        orientation = none) :
    best = none ∧
      ¬ (orientation.1 ∈ visited ∧
        orientation.2 ∉ visited ∧
        orientation.2 ∈ component) := by
  obtain ⟨source, target⟩ := orientation
  unfold considerEdge at h
  simp only at h ⊢
  split_ifs at h with hfrontier hcomponent hbetter
  · refine ⟨h, ?_⟩
    simp only [Bool.or_eq_true, Bool.not_eq_true',
      List.contains_eq_mem, decide_eq_false_iff_not,
      decide_eq_true_eq] at hfrontier
    rintro ⟨hs, ht, _⟩
    exact hfrontier.elim (fun h => h hs) ht
  · refine ⟨h, ?_⟩
    simp only [Bool.not_eq_true', List.contains_eq_mem,
      decide_eq_false_iff_not] at hcomponent
    rintro ⟨_, _, hc⟩
    exact hcomponent hc
  · subst h
    simp at hbetter

/-- A fold that ends empty was empty throughout. -/
theorem foldl_eq_none
    {α β : Type}
    {f : Option β → α → Option β}
    {P : α → Prop}
    (hf : ∀ b a, f b a = none → b = none ∧ P a)
    {l : List α}
    {b : Option β}
    (h : l.foldl f b = none) :
    b = none ∧ ∀ a ∈ l, P a := by
  induction l generalizing b with
  | nil =>
      exact ⟨h, fun a ha => absurd ha List.not_mem_nil⟩
  | cons a l ih =>
      obtain ⟨hstep, hrest⟩ := ih h
      obtain ⟨hb, ha⟩ := hf b a hstep
      refine ⟨hb, ?_⟩
      intro a' ha'
      rcases List.mem_cons.mp ha' with rfl | ha'
      · exact ha
      · exact hrest a' ha'

/-- The scan comes back empty only when no edge crosses the frontier. -/
theorem not_crossing_of_bestEdge_eq_none
    (h : g.bestEdge component visited = none)
    (p : Nat × UInt64) :
    ¬ g.Crossing component visited p := by
  rintro ⟨e, he, source, ho, hsource, htarget, hcomp, _⟩
  have hall :=
    (foldl_eq_none
      (P := fun e : JoinEdge =>
        ∀ o ∈ e.orientations,
          ¬ (o.1 ∈ visited ∧ o.2 ∉ visited ∧ o.2 ∈ component))
      (fun _ _ hinner =>
        foldl_eq_none
          (fun _ _ hstep => considerEdge_eq_none hstep) hinner)
      h).2
  exact hall e he _ ho ⟨hsource, htarget, hcomp⟩

end Scan

/--
The tree-growing loop with any crossing edge allowed at each step: from the
visited relations and their bound to a result.
-/
inductive TreeGrowth
    (g : JoinGraph)
    (component : List Nat) :
    List Nat → Nat → UInt64 → Prop
  | covered
      {visited : List Nat} {bound : Nat}
      (hge : component.length ≤ visited.length) :
      TreeGrowth g component visited bound (clampToU64 bound)
  | stuck
      {visited : List Nat} {bound : Nat}
      (hnone : ∀ p, ¬ g.Crossing component visited p) :
      TreeGrowth g component visited bound
        (clampToU64
          (g.multiplyRemaining component (visited, bound)).2)
  | saturated
      {visited : List Nat} {bound next : Nat} {factor : UInt64}
      (hcross : g.Crossing component visited (next, factor))
      (hsat : u64Max ≤ satMul u128Max bound factor.toNat) :
      TreeGrowth g component visited bound (UInt64.ofNat u64Max)
  | attach
      {visited : List Nat} {bound next : Nat} {factor r : UInt64}
      (hcross : g.Crossing component visited (next, factor))
      (hrest :
        TreeGrowth g component (visited ++ [next])
          (satMul u128Max bound factor.toNat) r) :
      TreeGrowth g component visited bound r

/-- The bounds that one component may be given. -/
inductive ComponentBound
    (g : JoinGraph)
    (component : List Nat) : UInt64 → Prop
  | product :
      ComponentBound g component
        (ProductBound.ceiling
          (component.map (fun r => (g.relation r).rows)) [])
  | tree
      {root : Nat} {r : UInt64}
      (hroot : root ∈ component)
      (hgrow : g.TreeGrowth component [root] (g.rowsAt root) r) :
      ComponentBound g component r

/-- The component loop with any bound allowed for each component. -/
inductive CeilingRun
    (g : JoinGraph) : Nat → List (List Nat) → UInt64 → Prop
  | done (total : Nat) :
      CeilingRun g total [] (UInt64.ofNat total)
  | saturated
      {total : Nat} {c : List Nat} {cs : List (List Nat)}
      {b : UInt64}
      (hb : g.ComponentBound c b)
      (hsat : u64Max ≤ satMul u128Max total b.toNat) :
      CeilingRun g total (c :: cs) (UInt64.ofNat u64Max)
  | multiply
      {total : Nat} {c : List Nat} {cs : List (List Nat)}
      {b r : UInt64}
      (hb : g.ComponentBound c b)
      (hsat : satMul u128Max total b.toNat < u64Max)
      (hrest : CeilingRun g (satMul u128Max total b.toNat) cs r) :
      CeilingRun g total (c :: cs) r

section Refinement

variable (g : JoinGraph)

/-- The greedy loop is one of the growths. -/
theorem growTree_growth
    (component visited : List Nat)
    (bound : Nat) :
    g.TreeGrowth component visited bound
      (g.growTree component visited bound) := by
  fun_induction growTree g component visited bound with
  | case1 visited bound hlt hbest =>
      exact .stuck (not_crossing_of_bestEdge_eq_none hbest)
  | case2 visited bound hlt next factor hbest bound' hsat =>
      exact .saturated (bestEdge_crossing hbest) hsat
  | case3 visited bound hlt next factor hbest bound' hsat ih =>
      exact .attach (bestEdge_crossing hbest) ih
  | case4 visited bound hge =>
      exact .covered (Nat.le_of_not_lt hge)

/-- A single relation is its own Cartesian product. -/
theorem productBound_singleton
    (rows : UInt64) :
    ProductBound.ceiling [rows] [] = rows := by
  apply UInt64.toNat_inj.mp
  rw [ProductBound.toNat_ceiling]
  simpa using toNat_le_u64Max rows

/-- The code gives a component one of its bounds. -/
theorem componentCeiling_bound
    (component : List Nat) :
    g.ComponentBound component (g.componentCeiling component) := by
  unfold componentCeiling
  simp only
  split_ifs with hone
  · obtain ⟨v, rfl⟩ := List.length_eq_one_iff.mp hone
    have hproduct :=
      productBound_singleton (g.relation v).rows
    rw [List.headD_cons, ← hproduct]
    exact .product
  · refine
      List.foldlRecOn
        (motive := g.ComponentBound component)
        _ _ .product ?_
    intro best hbest root hroot
    split_ifs
    · exact .tree hroot (g.growTree_growth component [root] _)
    · exact hbest

theorem ceilingLoop_run
    (total : Nat)
    (components : List (List Nat)) :
    g.CeilingRun total components
      (g.ceilingLoop total components) := by
  induction components generalizing total with
  | nil =>
      exact .done total
  | cons c components ih =>
      rw [ceilingLoop]
      split_ifs with hsat
      · exact .saturated (g.componentCeiling_bound c) hsat
      · exact
          .multiply (g.componentCeiling_bound c)
            (Nat.lt_of_not_le hsat) (ih _)

/-- The published ceiling is the result of a run. -/
theorem ceiling_run
    (hne : g.relations ≠ []) :
    g.CeilingRun 1 g.components g.ceiling := by
  unfold ceiling
  rw [if_neg (by simpa using hne)]
  exact g.ceilingLoop_run 1 g.components

end Refinement

/-- The clamp loses nothing below the `u64` ceiling. -/
theorem le_clampToU64
    {w bound : Nat}
    (h : min w u128Max ≤ bound) :
    min w u64Max ≤ (clampToU64 bound).toNat := by
  unfold clampToU64
  split_ifs with hbound
  · rw [toNat_u64Max]
    exact Nat.min_le_right _ _
  · rw [toNat_ofNat_of_le (by omega)]
    have hmax : u64Max ≤ u128Max := by decide
    omega

/-- Visiting one more relation. -/
theorem toFinset_append_singleton
    (visited : List Nat)
    (v : Nat) :
    (visited ++ [v]).toFinset = insert v visited.toFinset := by
  ext w
  simp

/-- The fallback visits every relation of the component. -/
theorem mem_multiplyRemaining
    (g : JoinGraph)
    (component : List Nat)
    (state : List Nat × Nat)
    (v : Nat) :
    v ∈ (g.multiplyRemaining component state).1 ↔
      v ∈ state.1 ∨ v ∈ component := by
  induction component generalizing state with
  | nil =>
      simp [multiplyRemaining]
  | cons w component ih =>
      unfold multiplyRemaining at ih ⊢
      rw [List.foldl_cons, ih, List.mem_cons]
      by_cases hw : w ∈ state.1
      · rw [if_pos (by simpa using hw)]
        constructor
        · rintro (h | h)
          · exact Or.inl h
          · exact Or.inr (Or.inr h)
        · rintro (h | rfl | h)
          · exact Or.inl h
          · exact Or.inl hw
          · exact Or.inr h
      · rw [if_neg (by simpa using hw), List.mem_append,
          List.mem_singleton]
        exact or_assoc

/--
A quantity on sets of relations that a join plan multiplies by at most a row
count or, along an edge, by a degree.
-/
structure JoinWeight
    (g : JoinGraph)
    (weight : Finset Nat → Nat) : Prop where
  empty_le : weight ∅ ≤ 1
  single_le :
    ∀ v < g.relations.length, weight {v} ≤ g.rowsAt v
  union_le :
    ∀ S T, Disjoint S T → weight (S ∪ T) ≤ weight S * weight T
  attach_le :
    ∀ S, ∀ e ∈ g.edges, ∀ source target,
      (source, target) ∈ e.orientations →
      source ∈ S →
      target ∉ S →
      weight (insert target S) ≤
        weight S * (g.factorAt target e.attributeId).toNat

namespace JoinWeight

variable {g : JoinGraph} {weight : Finset Nat → Nat}

/-- Adding a relation multiplies by at most its row count. -/
theorem insert_le
    (hw : g.JoinWeight weight)
    {S : Finset Nat}
    {v : Nat}
    (hv : v < g.relations.length)
    (hvS : v ∉ S) :
    weight (insert v S) ≤ weight S * g.rowsAt v := by
  have hdisjoint : Disjoint S {v} :=
    Finset.disjoint_singleton_right.mpr hvS
  calc
    weight (insert v S) = weight (S ∪ {v}) := by
      rw [Finset.union_comm, Finset.insert_eq]
    _ ≤ weight S * weight {v} := hw.union_le S {v} hdisjoint
    _ ≤ weight S * g.rowsAt v :=
      Nat.mul_le_mul_left _ (hw.single_le v hv)

/-- The fallback multiplies in the rows of what it visits. -/
theorem le_multiplyRemaining
    (hw : g.JoinWeight weight)
    {component : List Nat}
    (hrange : ∀ v ∈ component, v < g.relations.length)
    (state : List Nat × Nat)
    (hstate : min (weight state.1.toFinset) u128Max ≤ state.2) :
    min
        (weight
          (g.multiplyRemaining component state).1.toFinset)
        u128Max ≤
      (g.multiplyRemaining component state).2 := by
  induction component generalizing state with
  | nil =>
      exact hstate
  | cons v component ih =>
      have hrest : ∀ w ∈ component, w < g.relations.length :=
        fun w hw => hrange w (List.mem_cons_of_mem v hw)
      unfold multiplyRemaining at ih ⊢
      rw [List.foldl_cons]
      by_cases hv : v ∈ state.1
      · rw [if_pos (by simpa using hv)]
        exact ih hrest state hstate
      · rw [if_neg (by simpa using hv)]
        apply ih hrest
        apply min_le_satMul hstate
        rw [toFinset_append_singleton]
        exact
          hw.insert_le (hrange v List.mem_cons_self)
            (by simpa using hv)

/--
The loop invariant of the growing tree: the weight of the visited relations is
below the bound, up to the `u128` ceiling.
-/
theorem le_treeGrowth
    (hw : g.JoinWeight weight)
    {component : List Nat}
    (hrange : ∀ v ∈ component, v < g.relations.length)
    {visited : List Nat}
    {bound : Nat}
    {r : UInt64}
    (hgrow : g.TreeGrowth component visited bound r)
    (hnodup : visited.Nodup)
    (hsub : ∀ v ∈ visited, v ∈ component)
    (hbound : min (weight visited.toFinset) u128Max ≤ bound) :
    min (weight component.toFinset) u64Max ≤ r.toNat := by
  induction hgrow with
  | @covered visited bound hge =>
      have hset : visited.toFinset = component.toFinset := by
        apply Finset.eq_of_subset_of_card_le
        · intro v hv
          exact
            List.mem_toFinset.mpr
              (hsub v (List.mem_toFinset.mp hv))
        · have hvisited := List.toFinset_card_of_nodup hnodup
          have hcomponent := List.toFinset_card_le component
          omega
      rw [hset] at hbound
      exact le_clampToU64 hbound
  | @stuck visited bound hnone =>
      have hle :=
        hw.le_multiplyRemaining hrange (visited, bound) hbound
      have hset :
          (g.multiplyRemaining component
            (visited, bound)).1.toFinset =
            component.toFinset := by
        ext v
        rw [List.mem_toFinset, List.mem_toFinset,
          mem_multiplyRemaining]
        exact ⟨fun h => h.elim (hsub v) id, Or.inr⟩
      rw [hset] at hle
      exact le_clampToU64 hle
  | saturated hcross hsat =>
      rw [toNat_u64Max]
      exact Nat.min_le_right _ _
  | @attach visited bound next factor r hcross hrest ih =>
      obtain ⟨e, he, source, ho, hsource, hnext, hcomp, hfactor⟩ :=
        hcross
      simp only at ho hnext hcomp hfactor
      apply ih
      · exact
          hnodup.append (List.nodup_singleton next)
            (List.disjoint_singleton.mpr hnext)
      · intro v hv
        rcases List.mem_append.mp hv with hv | hv
        · exact hsub v hv
        · rw [List.mem_singleton.mp hv]
          exact hcomp
      · apply min_le_satMul hbound
        rw [toFinset_append_singleton, hfactor]
        exact
          hw.attach_le visited.toFinset e he source next ho
            (List.mem_toFinset.mpr hsource)
            (by simpa using hnext)

/-- A duplicate-free component is bounded by its Cartesian product. -/
theorem le_prod
    (hw : g.JoinWeight weight)
    {component : List Nat}
    (hrange : ∀ v ∈ component, v < g.relations.length)
    (hnodup : component.Nodup) :
    weight component.toFinset ≤ (component.map g.rowsAt).prod := by
  induction component with
  | nil =>
      simpa using hw.empty_le
  | cons v component ih =>
      obtain ⟨hv, hnodup⟩ := List.nodup_cons.mp hnodup
      have hrest :=
        ih (fun w hw => hrange w (List.mem_cons_of_mem v hw))
          hnodup
      rw [List.toFinset_cons, List.map_cons, List.prod_cons,
        Nat.mul_comm]
      exact
        (hw.insert_le (hrange v List.mem_cons_self)
          (by simpa using hv)).trans
          (Nat.mul_le_mul_right _ hrest)

/-- Every bound a component may be given bounds its weight. -/
theorem le_componentBound
    (hw : g.JoinWeight weight)
    {component : List Nat}
    (hrange : ∀ v ∈ component, v < g.relations.length)
    (hnodup : component.Nodup)
    {b : UInt64}
    (hb : g.ComponentBound component b) :
    min (weight component.toFinset) u64Max ≤ b.toNat := by
  cases hb with
  | product =>
      rw [ProductBound.toNat_ceiling, List.map_map]
      exact min_le_min_right u64Max (hw.le_prod hrange hnodup)
  | @tree root r hroot hgrow =>
      apply hw.le_treeGrowth hrange hgrow (List.nodup_singleton root)
      · intro v hv
        rw [List.mem_singleton.mp hv]
        exact hroot
      · have hset : [root].toFinset = {root} := rfl
        rw [hset]
        exact
          (Nat.min_le_left _ _).trans
            (hw.single_le root (hrange root hroot))

/-- A run over the components bounds the weight of their union. -/
theorem le_ceilingRun
    (hw : g.JoinWeight weight)
    {total : Nat}
    {components : List (List Nat)}
    {r : UInt64}
    (hrun : g.CeilingRun total components r)
    (hrange :
      ∀ c ∈ components, ∀ v ∈ c, v < g.relations.length)
    (hnodup : components.flatten.Nodup)
    {S : Finset Nat}
    (hdisjoint : Disjoint S components.flatten.toFinset)
    (htotal : min (weight S) u64Max ≤ total)
    (hsmall : total ≤ u64Max) :
    min (weight (S ∪ components.flatten.toFinset)) u64Max ≤
      r.toNat := by
  induction hrun generalizing S with
  | done total =>
      rw [toNat_ofNat_of_le hsmall]
      simpa using htotal
  | saturated hb hsat =>
      rw [toNat_u64Max]
      exact Nat.min_le_right _ _
  | @multiply total c cs b r hb hsat hrest ih =>
      rw [List.flatten_cons] at hnodup hdisjoint ⊢
      rw [List.toFinset_append] at hdisjoint ⊢
      obtain ⟨hc, hrest, hcross⟩ := List.nodup_append'.mp hnodup
      obtain ⟨hSc, hSrest⟩ :=
        Finset.disjoint_union_right.mp hdisjoint
      have hcomponent :=
        hw.le_componentBound (hrange c List.mem_cons_self) hc hb
      have hexact := satMul_u128_eq hsmall (toNat_le_u64Max b)
      rw [hexact] at hsat ih
      rw [← Finset.union_assoc]
      apply ih
      · intro c' hc'
        exact hrange c' (List.mem_cons_of_mem c hc')
      · exact hrest
      · rw [Finset.disjoint_union_left]
        refine ⟨hSrest, ?_⟩
        rw [Finset.disjoint_left]
        intro v hv hv'
        exact
          hcross (List.mem_toFinset.mp hv)
            (List.mem_toFinset.mp hv')
      · exact
          min_le_mul htotal hcomponent (hw.union_le S _ hSc)
      · exact hsat.le

/-- **Every run bounds every join weight**, up to `u64::MAX`. -/
theorem le_of_run
    (hw : g.JoinWeight weight)
    {r : UInt64}
    (hrun : g.CeilingRun 1 g.components r) :
    min (weight (Finset.range g.relations.length)) u64Max ≤
      r.toNat := by
  have hperm := g.components_perm
  have hset :
      g.components.flatten.toFinset =
        Finset.range g.relations.length := by
    ext v
    rw [List.mem_toFinset, hperm.mem_iff, List.mem_range,
      Finset.mem_range]
  have hloop :=
    hw.le_ceilingRun hrun (S := ∅)
      (fun c hc v hv =>
        List.mem_range.mp
          (hperm.mem_iff.mp (List.mem_flatten_of_mem hc hv)))
      (hperm.nodup_iff.mpr List.nodup_range)
      (Finset.disjoint_empty_left _)
      ((Nat.min_le_left _ _).trans hw.empty_le)
      (by decide)
  rw [Finset.empty_union, hset] at hloop
  exact hloop

end JoinWeight

end JoinGraph
end Samkhya
