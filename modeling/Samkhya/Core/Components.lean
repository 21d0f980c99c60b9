import Mathlib
import Samkhya.Core.Degree
import Samkhya.Foundations.Loops
import Samkhya.Foundations.ParentForest

/-!
# Connected components of a join graph

`JoinGraph.components` groups the relations with a path-halving disjoint-set
structure.  The walk `find` is a loop over a mutable parent array, so it is
first written with fuel and with every index access checked: `none` is an index
panic or a walk that outlives its fuel.  `tryComponents_isSome` shows that
neither happens, and `components` is the resulting total function.

The groups list every relation index exactly once (`components_perm`).
-/

namespace Samkhya

open Loops ParentForest

/-- Groups of relation indices under their root, in key order. -/
abbrev Groups := Std.TreeMap Nat (List Nat)

namespace Groups

/-- The groups in ascending order of their roots. -/
def values (groups : Groups) : List (List Nat) :=
  groups.toList.map Prod.snd

/-- `entry(root).or_default().push(v)`. -/
def push (groups : Groups) (root v : Nat) : Groups :=
  groups.insert root ((groups[root]?).getD [] ++ [v])

/-- A key occurring once can be moved to the front. -/
theorem perm_cons_filter
    {l : List (Nat × List Nat)}
    (hkeys : l.Pairwise (fun p q => p.1 ≠ q.1))
    {k : Nat}
    {vs : List Nat}
    (hmem : (k, vs) ∈ l) :
    l.Perm ((k, vs) :: l.filter (fun p => p.1 ≠ k)) := by
  induction l with
  | nil =>
      exact absurd hmem List.not_mem_nil
  | cons p l ih =>
      obtain ⟨hp, hl⟩ := List.pairwise_cons.mp hkeys
      rcases List.mem_cons.mp hmem with heq | hmem
      · subst heq
        have hfilter :
            l.filter (fun q => q.1 ≠ k) = l := by
          apply List.filter_eq_self.mpr
          intro q hq
          exact decide_eq_true (Ne.symm (hp q hq))
        rw [List.filter_cons_of_neg (by simp), hfilter]
      · have hpk : p.1 ≠ k := hp (k, vs) hmem
        rw [List.filter_cons_of_pos (by simpa using hpk)]
        exact
          ((ih hl hmem).cons p).trans
            (List.Perm.swap _ _ _)

/-- The entries of a map have pairwise different keys. -/
theorem pairwise_keys
    (groups : Groups) :
    groups.toList.Pairwise (fun p q => p.1 ≠ q.1) := by
  apply List.Pairwise.imp _ groups.distinct_keys_toList
  intro p q hpq heq
  exact hpq (Std.compare_eq_iff_eq.mpr heq)

/-- Pushing an index adds exactly that index to the grouped ones. -/
theorem push_perm
    (groups : Groups)
    (root v : Nat) :
    (groups.push root v).values.flatten.Perm
      (v :: groups.values.flatten) := by
  have hinsert :
      (groups.push root v).toList.Perm
        ((root, (groups[root]?).getD [] ++ [v]) ::
          groups.toList.filter (fun p => p.1 ≠ root)) := by
    refine Std.TreeMap.toList_insert_perm.trans ?_
    apply List.Perm.cons
    apply List.Perm.of_eq
    apply List.filter_congr
    intro p _
    rw [decide_eq_decide, beq_iff_eq]
    exact not_congr eq_comm
  have hvalues :=
    ((hinsert.map Prod.snd).flatten)
  refine hvalues.trans ?_
  rw [List.map_cons, List.flatten_cons]
  unfold values
  cases hget : groups[root]? with
  | none =>
      have hfilter :
          groups.toList.filter (fun p => p.1 ≠ root) =
            groups.toList := by
        apply List.filter_eq_self.mpr
        rintro ⟨k, vs⟩ hp
        have hk :=
          Std.TreeMap.mem_toList_iff_getElem?_eq_some.mp hp
        apply decide_eq_true
        rintro rfl
        rw [hget] at hk
        cases hk
      rw [hfilter]
      rfl
  | some vs =>
      have hmem : (root, vs) ∈ groups.toList :=
        Std.TreeMap.mem_toList_iff_getElem?_eq_some.mpr hget
      have hsplit :=
        ((perm_cons_filter (pairwise_keys groups) hmem).map
          Prod.snd).flatten
      rw [List.map_cons, List.flatten_cons] at hsplit
      refine List.Perm.trans ?_ (hsplit.symm.cons v)
      rw [Option.getD_some, List.append_assoc]
      exact List.perm_middle

end Groups

namespace JoinGraph

/-- Root of `x`, halving the path on the way up. -/
def find : Nat → List Nat → Nat → Option (List Nat × Nat)
  | 0, _, _ => none
  | fuel + 1, parent, x =>
      match parent[x]? with
      | none => none
      | some p =>
          if p = x then
            some (parent, x)
          else
            match parent[p]? with
            | none => none
            | some grandparent =>
                find fuel (parent.set x grandparent) grandparent

/-- One edge of the first loop: link the roots of both endpoints. -/
def uniteEdge
    (fuel : Nat)
    (parent : List Nat)
    (edge : JoinEdge) : Option (List Nat) :=
  match find fuel parent edge.left with
  | none => none
  | some (parent, a) =>
      match find fuel parent edge.right with
      | none => none
      | some (parent, b) =>
          if a = b then some parent else some (parent.set a b)

/-- One relation of the second loop: push it under its root. -/
def groupRelation
    (fuel : Nat)
    (state : List Nat × Groups)
    (v : Nat) : Option (List Nat × Groups) :=
  match find fuel state.1 v with
  | none => none
  | some (parent, root) => some (parent, state.2.push root v)

/-- The component groups, with index panics and runaway walks made visible. -/
def tryComponents (g : JoinGraph) : Option (List (List Nat)) :=
  let n := g.relations.length
  match g.edges.foldlM (uniteEdge (n + 1)) (List.range n) with
  | none => none
  | some parent =>
      ((List.range n).foldlM (groupRelation (n + 1)) (parent, ∅)).map
        (fun state => Groups.values state.2)

/-- The walk ends at a root, within the fuel that the rank leaves. -/
theorem find_spec
    {n : Nat}
    {rank : Nat → Nat}
    (fuel : Nat)
    {parent : List Nat}
    {x : Nat}
    (h : Ranked n parent rank)
    (hx : x < n)
    (hfuel : n < fuel + rank x) :
    ∃ parent' root,
      find fuel parent x = some (parent', root) ∧
      Ranked n parent' rank ∧
      roots n parent' = roots n parent ∧
      root ∈ roots n parent := by
  induction fuel generalizing parent x with
  | zero =>
      have := h.rank_bound x hx
      omega
  | succ fuel ih =>
      have hget : ∀ y < n, parent[y]? = some (parentOf parent y) :=
        fun y hy => getElem?_eq_parentOf (h.lt_length hy)
      by_cases hroot : parentOf parent x = x
      · refine
          ⟨parent, x, ?_, h, rfl, mem_roots.mpr ⟨hx, hroot⟩⟩
        simp [find, hget x hx, hroot]
      · have hp := h.parent_lt x hx
        have hgrand := h.rank_lt_grandparent hx hroot
        obtain ⟨parent', root, hfind, hrank, hroots, hmem⟩ :=
          ih (h.halve hx hroot) (h.parent_lt _ hp) (by omega)
        rw [h.roots_halve hx hroot] at hroots hmem
        refine ⟨parent', root, ?_, hrank, hroots, hmem⟩
        simp [find, hget x hx, hget _ hp, hroot, hfind]

/-- An edge of the graph leaves a forest behind. -/
theorem uniteEdge_isForest
    {n : Nat}
    {parent : List Nat}
    {edge : JoinEdge}
    (h : IsForest n parent)
    (hedge : edge.InRange n) :
    ∃ parent',
      uniteEdge (n + 1) parent edge = some parent' ∧
      IsForest n parent' := by
  obtain ⟨rank, hrank⟩ := h
  obtain ⟨hleft, hright, _⟩ := hedge
  obtain ⟨parent₁, a, hfinda, hrank₁, hroots₁, ha⟩ :=
    find_spec (n + 1) hrank hleft (by omega)
  obtain ⟨parent₂, b, hfindb, hrank₂, hroots₂, hb⟩ :=
    find_spec (n + 1) hrank₁ hright (by omega)
  by_cases hab : a = b
  · refine ⟨parent₂, ?_, ⟨rank, hrank₂⟩⟩
    simp [uniteEdge, hfinda, hfindb, hab]
  · refine ⟨parent₂.set a b, ?_, ?_⟩
    · simp [uniteEdge, hfinda, hfindb, hab]
    · apply hrank₂.link _ _ hab
      · rw [hroots₂, hroots₁]
        exact ha
      · rw [hroots₂]
        exact hb

/-- The first loop runs to the end and leaves a forest. -/
theorem uniteEdges_isForest
    {n : Nat}
    {edges : List JoinEdge}
    (hedges : ∀ e ∈ edges, e.InRange n)
    {parent : List Nat}
    (h : IsForest n parent) :
    ∃ parent',
      edges.foldlM (uniteEdge (n + 1)) parent = some parent' ∧
      IsForest n parent' :=
  foldlM_keeps
    (fun e he _ hforest => uniteEdge_isForest hforest (hedges e he)) h

/-- The second loop groups exactly the indices it visits. -/
theorem groupRelations_perm
    {n : Nat}
    (vs : List Nat)
    (hvs : ∀ v ∈ vs, v < n)
    {parent : List Nat}
    (h : IsForest n parent)
    (groups : Groups) :
    ∃ state,
      vs.foldlM (groupRelation (n + 1)) (parent, groups) =
        some state ∧
      state.2.values.flatten.Perm
        (vs ++ groups.values.flatten) := by
  induction vs generalizing parent groups with
  | nil =>
      exact ⟨(parent, groups), rfl, List.Perm.refl _⟩
  | cons v vs ih =>
      obtain ⟨rank, hrank⟩ := h
      obtain ⟨parent', root, hfind, hrank', _, _⟩ :=
        find_spec (n + 1) hrank (hvs v List.mem_cons_self)
          (by omega)
      obtain ⟨state, hrest, hperm⟩ :=
        ih (fun w hw => hvs w (List.mem_cons_of_mem v hw))
          ⟨rank, hrank'⟩ (groups.push root v)
      refine ⟨state, ?_, ?_⟩
      · rw [List.foldlM_cons]
        simp only [groupRelation, hfind]
        exact hrest
      · refine hperm.trans ?_
        refine
          ((Groups.push_perm groups root v).append_left vs).trans ?_
        exact List.perm_middle

/-- Neither loop panics or runs away, and every index is grouped once. -/
theorem tryComponents_spec
    (g : JoinGraph) :
    ∃ components,
      g.tryComponents = some components ∧
      components.flatten.Perm
        (List.range g.relations.length) := by
  obtain ⟨parent, hunite, hforest⟩ :=
    uniteEdges_isForest g.edges_inRange
      ⟨_, ranked_range g.relations.length⟩
  obtain ⟨state, hgroup, hperm⟩ :=
    groupRelations_perm
      (List.range g.relations.length)
      (fun v hv => List.mem_range.mp hv) hforest ∅
  refine ⟨state.2.values, ?_, ?_⟩
  · simp [tryComponents, hunite, hgroup]
  · have hempty : Groups.values ∅ = [] := rfl
    rw [hempty, List.flatten_nil, List.append_nil] at hperm
    exact hperm

theorem tryComponents_isSome
    (g : JoinGraph) :
    g.tryComponents.isSome := by
  obtain ⟨components, h, _⟩ := g.tryComponents_spec
  rw [h]
  rfl

/-- Connected components of the relations, in order of their roots. -/
def components (g : JoinGraph) : List (List Nat) :=
  g.tryComponents.get g.tryComponents_isSome

/-- The components list every relation index exactly once. -/
theorem components_perm
    (g : JoinGraph) :
    g.components.flatten.Perm
      (List.range g.relations.length) := by
  obtain ⟨components, h, hperm⟩ := g.tryComponents_spec
  have heq : g.components = components :=
    Option.get_of_eq_some _ h
  rw [heq]
  exact hperm

end JoinGraph

end Samkhya
