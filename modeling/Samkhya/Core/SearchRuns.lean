import Mathlib
import Samkhya.Core.GreedyTree

/-!
# Runs of the component search and of the tree loop

`components` walks a parent array that it rewrites as it goes.  `Inside` are
the arrays that its writes can make: every walk on one of them ends, and the
loops stay on them.

The tree loop is followed iteration by iteration.  On a component it attaches
a new relation each time until none is missing, or leaves early when the
bound saturates; the branch for a component that falls apart is never taken.
-/

namespace Samkhya

open Loops ParentForest Saturating

namespace JoinGraph

section Walks

/-- One iteration of the walk: halve the path and move up. -/
def walkStep (parent : List Nat) (x : Nat) : Option (List Nat × Nat) :=
  match parent[x]? with
  | none => none
  | some p =>
      match parent[p]? with
      | none => none
      | some grandparent => some (parent.set x grandparent, grandparent)

/-- The parent arrays that `components` can make. -/
inductive Inside (g : JoinGraph) : List Nat → Prop
  | start :
      Inside g (List.range g.relations.length)
  | halved {parent parent' : List Nat} {x x' : Nat}
      (h : Inside g parent)
      (hx : x < g.relations.length)
      (hne : parent[x]? ≠ some x)
      (hstep : walkStep parent x = some (parent', x')) :
      Inside g parent'
  | linked {parent parent₁ parent₂ : List Nat} {a b : Nat} {e : JoinEdge}
      (h : Inside g parent)
      (he : e ∈ g.edges)
      (hleft :
        find (g.relations.length + 1) parent e.left = some (parent₁, a))
      (hright :
        find (g.relations.length + 1) parent₁ e.right =
          some (parent₂, b))
      (hab : a ≠ b) :
      Inside g (parent₂.set a b)

/-- The walk ends at a root, and otherwise takes a step. -/
theorem find_succ
    (fuel : Nat)
    (parent : List Nat)
    (x : Nat) :
    find (fuel + 1) parent x =
      if parent[x]? = some x then
        some (parent, x)
      else
        match walkStep parent x with
        | none => none
        | some (parent', x') => find fuel parent' x' := by
  rw [find, walkStep]
  cases hx : parent[x]? with
  | none =>
      simp
  | some p =>
      by_cases hp : p = x
      · simp [hp]
      · simp only [Option.some.injEq, hp, if_false]
        cases parent[p]? with
        | none => rfl
        | some grandparent => rfl

variable {g : JoinGraph} {n : Nat} {parent : List Nat} {rank : Nat → Nat}

theorem walkStep_eq
    (h : Ranked n parent rank)
    {x : Nat}
    (hx : x < n) :
    walkStep parent x =
      some
        (parent.set x (parentOf parent (parentOf parent x)),
          parentOf parent (parentOf parent x)) := by
  have hp := h.parent_lt x hx
  simp only [walkStep, getElem?_eq_parentOf (h.lt_length hx),
    getElem?_eq_parentOf (h.lt_length hp)]

theorem getElem?_eq_self_iff
    (h : Ranked n parent rank)
    {x : Nat}
    (hx : x < n) :
    parent[x]? = some x ↔ parentOf parent x = x := by
  rw [getElem?_eq_parentOf (h.lt_length hx), Option.some.injEq]

/-- No write closes a cycle. -/
theorem Inside.isForest
    (h : g.Inside parent) :
    IsForest g.relations.length parent := by
  induction h with
  | start =>
      exact ⟨_, ranked_range g.relations.length⟩
  | halved _ hx hne hstep ih =>
      obtain ⟨rank, hrank⟩ := ih
      rw [walkStep_eq hrank hx] at hstep
      obtain ⟨rfl, _⟩ := Prod.mk.inj (Option.some.inj hstep)
      rw [Ne, getElem?_eq_self_iff hrank hx] at hne
      exact ⟨rank, hrank.halve hx hne⟩
  | linked _ he hleft hright hab ih =>
      obtain ⟨parent', hunite, hforest⟩ :=
        uniteEdge_isForest ih (g.edges_inRange _ he)
      simp only [uniteEdge, hleft, hright, if_neg hab] at hunite
      rw [Option.some.inj hunite]
      exact hforest

/-- What a walk leaves is again such an array. -/
theorem Inside.find
    {fuel : Nat}
    {parent' : List Nat}
    {x root : Nat}
    (h : g.Inside parent)
    (hx : x < g.relations.length)
    (hfind : JoinGraph.find fuel parent x = some (parent', root)) :
    g.Inside parent' := by
  induction fuel generalizing parent x with
  | zero =>
      cases hfind
  | succ fuel ih =>
      rw [find_succ] at hfind
      split_ifs at hfind with hself
      · obtain ⟨rfl, _⟩ := Prod.mk.inj (Option.some.inj hfind)
        exact h
      · obtain ⟨rank, hrank⟩ := h.isForest
        have hp := hrank.parent_lt x hx
        have hstep := walkStep_eq hrank hx
        rw [hstep] at hfind
        exact ih (h.halved hx hself hstep) (hrank.parent_lt _ hp) hfind

/-- Every walk on such an array ends, at a root. -/
theorem Inside.find_ends
    (h : g.Inside parent)
    {x : Nat}
    (hx : x < g.relations.length) :
    ∃ parent' root,
      JoinGraph.find (g.relations.length + 1) parent x =
        some (parent', root) ∧
      g.Inside parent' ∧
      root < g.relations.length ∧
      parent'[root]? = some root := by
  obtain ⟨rank, hrank⟩ := h.isForest
  obtain ⟨parent', root, hfind, hrank', hroots, hroot⟩ :=
    find_spec (g.relations.length + 1) hrank hx (by omega)
  rw [← hroots] at hroot
  obtain ⟨hlt, hself⟩ := mem_roots.mp hroot
  exact
    ⟨parent', root, hfind, h.find hx hfind, hlt,
      (getElem?_eq_self_iff hrank' hlt).mpr hself⟩

/-- An edge is united on such arrays only. -/
theorem Inside.uniteEdge
    (h : g.Inside parent)
    {e : JoinEdge}
    (he : e ∈ g.edges) :
    ∃ parent',
      JoinGraph.uniteEdge (g.relations.length + 1) parent e =
        some parent' ∧
      g.Inside parent' := by
  obtain ⟨hleft, hright, _⟩ := g.edges_inRange e he
  obtain ⟨parent₁, a, hfinda, h₁, _⟩ := h.find_ends hleft
  obtain ⟨parent₂, b, hfindb, h₂, _⟩ := h₁.find_ends hright
  by_cases hab : a = b
  · refine ⟨parent₂, ?_, h₂⟩
    simp [JoinGraph.uniteEdge, hfinda, hfindb, hab]
  · refine ⟨parent₂.set a b, ?_, h.linked he hfinda hfindb hab⟩
    simp [JoinGraph.uniteEdge, hfinda, hfindb, hab]

/-- The first loop, after any number of edges. -/
theorem Inside.uniteEdges
    (h : g.Inside parent)
    {seen : List JoinEdge}
    (hseen : ∀ e ∈ seen, e ∈ g.edges) :
    ∃ parent',
      seen.foldlM (JoinGraph.uniteEdge (g.relations.length + 1)) parent =
        some parent' ∧
      g.Inside parent' :=
  foldlM_keeps (fun e he _ hinside => hinside.uniteEdge (hseen e he)) h

/-- The second loop, after any number of relations. -/
theorem Inside.groupRelations
    (h : g.Inside parent)
    {seen : List Nat}
    (hseen : ∀ v ∈ seen, v < g.relations.length)
    (groups : Groups) :
    ∃ state,
      seen.foldlM (groupRelation (g.relations.length + 1))
          (parent, groups) =
        some state ∧
      g.Inside state.1 := by
  refine
    foldlM_keeps
      (P := fun state : List Nat × Groups => g.Inside state.1) ?_ h
  rintro v hv ⟨parent, groups⟩ hinside
  obtain ⟨parent', root, hfind, hinside', _⟩ :=
    hinside.find_ends (hseen v hv)
  refine ⟨(parent', groups.push root v), ?_, hinside'⟩
  simp only [groupRelation, hfind]
  rfl

end Walks

section TreeLoop

/-- What one iteration of the `while` loop comes to. -/
inductive TreeOutcome
  | attached (visited : List Nat) (bound : Nat)
  | saturated
  | fallback

/-- One iteration of the `while` loop. -/
def treeIteration
    (g : JoinGraph)
    (component visited : List Nat)
    (bound : Nat) : TreeOutcome :=
  match g.bestEdge component visited with
  | none => .fallback
  | some (next, factor) =>
      let bound := satMul u128Max bound factor.toNat
      if bound ≥ u64Max then
        .saturated
      else
        .attached (visited ++ [next]) bound

/-- The states at the head of the loop, after so many iterations. -/
inductive TreeState
    (g : JoinGraph)
    (component : List Nat)
    (root : Nat) : Nat → List Nat → Nat → Prop
  | start :
      TreeState g component root 0 [root] (g.rowsAt root)
  | next {k : Nat} {visited visited' : List Nat} {bound bound' : Nat}
      (h : TreeState g component root k visited bound)
      (hlt : visited.length < component.length)
      (hstep :
        g.treeIteration component visited bound =
          .attached visited' bound') :
      TreeState g component root (k + 1) visited' bound'

variable {g : JoinGraph} {c : List Nat}

/-- The loop is its iterations. -/
theorem growTree_eq_iteration
    (g : JoinGraph)
    (c visited : List Nat)
    (bound : Nat) :
    g.growTree c visited bound =
      if visited.length < c.length then
        match g.treeIteration c visited bound with
        | .attached visited' bound' => g.growTree c visited' bound'
        | .saturated => UInt64.ofNat u64Max
        | .fallback =>
            clampToU64 (g.multiplyRemaining c (visited, bound)).2
      else
        clampToU64 bound := by
  rw [growTree]
  split_ifs with hlt
  · unfold treeIteration
    cases g.bestEdge c visited with
    | none => rfl
    | some p =>
        dsimp only
        split_ifs <;> rfl
  · rfl

/-- An iteration attaches a new relation, or the bound saturates. -/
theorem Visiting.iteration
    {visited : List Nat}
    (h : g.Visiting c visited)
    (hlt : visited.length < c.length)
    (bound : Nat) :
    ∃ next ∈ c, next ∉ visited ∧ g.Visiting c (visited ++ [next]) ∧
      (g.treeIteration c visited bound = .saturated ∨
        ∃ bound',
          g.treeIteration c visited bound =
            .attached (visited ++ [next]) bound') := by
  obtain ⟨⟨next, factor⟩, hbest⟩ :=
    exists_bestEdge h.component h.sub h.ne_nil hlt
  have hcross := bestEdge_crossing hbest
  have hnext := h.next hcross
  obtain ⟨_, _, _, _, _, hnot, hcomponent, _⟩ := hcross
  refine ⟨next, hcomponent, hnot, hnext, ?_⟩
  simp only [treeIteration, hbest]
  split_ifs with hsat
  · exact Or.inl rfl
  · exact Or.inr ⟨_, rfl⟩

/-- At the head of the loop a part of the component is visited. -/
theorem TreeState.visiting
    (hc : c ∈ g.components)
    {root : Nat}
    (hroot : root ∈ c)
    {k : Nat}
    {visited : List Nat}
    {bound : Nat}
    (h : g.TreeState c root k visited bound) :
    g.Visiting c visited ∧ visited.length = k + 1 := by
  induction h with
  | start =>
      exact ⟨.root hc hroot, rfl⟩
  | next _ hlt hstep ih =>
      obtain ⟨hvisiting, hlength⟩ := ih
      obtain ⟨next, _, _, hnext, hsat | ⟨bound', hattach⟩⟩ :=
        hvisiting.iteration hlt _
      · rw [hsat] at hstep
        cases hstep
      · rw [hattach] at hstep
        cases hstep
        refine ⟨hnext, ?_⟩
        rw [List.length_append, hlength]
        rfl

/-- A part of a component that is as long as it lists all of it. -/
theorem Visiting.perm
    {visited : List Nat}
    (h : g.Visiting c visited)
    (hge : ¬ visited.length < c.length) :
    visited.Perm c :=
  (h.nodup.subperm h.sub).perm_of_length_le (not_lt.mp hge)

/-- How the loop ends: nothing is missing, or the bound has saturated. -/
def TreeEnds
    (g : JoinGraph)
    (c : List Nat)
    (root : Nat)
    (ceiling : UInt64) : Prop :=
  ∃ k visited bound,
    g.TreeState c root k visited bound ∧
      (visited.Perm c ∧ ceiling = clampToU64 bound ∨
        visited.length < c.length ∧
          g.treeIteration c visited bound = .saturated ∧
          ceiling = UInt64.ofNat u64Max)

theorem TreeState.ends
    (hc : c ∈ g.components)
    {root : Nat}
    (hroot : root ∈ c)
    {k : Nat}
    {visited : List Nat}
    {bound : Nat}
    (h : g.TreeState c root k visited bound) :
    g.TreeEnds c root (g.growTree c visited bound) := by
  -- what is missing shrinks with every iteration
  induction hmissing : c.length - visited.length
      generalizing k visited bound with
  | zero =>
      obtain ⟨hvisiting, _⟩ := h.visiting hc hroot
      have hge : ¬ visited.length < c.length := by omega
      rw [growTree_eq_iteration, if_neg hge]
      exact ⟨k, visited, bound, h, Or.inl ⟨hvisiting.perm hge, rfl⟩⟩
  | succ missing ih =>
      obtain ⟨hvisiting, _⟩ := h.visiting hc hroot
      have hlt : visited.length < c.length := by omega
      rw [growTree_eq_iteration, if_pos hlt]
      obtain ⟨next, _, _, _, hsat | ⟨bound', hattach⟩⟩ :=
        hvisiting.iteration hlt bound
      · rw [hsat]
        exact ⟨k, visited, bound, h, Or.inr ⟨hlt, hsat, rfl⟩⟩
      · rw [hattach]
        refine ih (h.next hlt hattach) ?_
        rw [List.length_append, List.length_singleton]
        omega

end TreeLoop

section Correctness

/-- The component search ends, and finds the connected components. -/
structure SearchCorrect (g : JoinGraph) : Prop where
  walks :
    ∀ parent, g.Inside parent → ∀ x < g.relations.length,
      ∃ parent' root,
        find (g.relations.length + 1) parent x = some (parent', root) ∧
        g.Inside parent' ∧
        parent'[root]? = some root
  edgeLoop :
    ∀ seen rest, g.edges = seen ++ rest →
      ∃ parent,
        seen.foldlM (uniteEdge (g.relations.length + 1))
            (List.range g.relations.length) =
          some parent ∧
        g.Inside parent
  groupLoop :
    ∀ parent, g.Inside parent →
      ∀ seen rest, List.range g.relations.length = seen ++ rest →
        ∃ state,
          seen.foldlM (groupRelation (g.relations.length + 1))
              (parent, ∅) =
            some state ∧
          g.Inside state.1
  once : g.components.flatten.Perm (List.range g.relations.length)
  connected :
    ∀ u < g.relations.length, ∀ v < g.relations.length,
      (∃ c ∈ g.components, u ∈ c ∧ v ∈ c) ↔
        Relation.EqvGen (Joined g.edges) u v

/-- The tree loop attaches one new relation after the other. -/
structure TreeLoopCorrect
    (g : JoinGraph)
    (c : List Nat)
    (root : Nat) : Prop where
  visited :
    ∀ k visited bound, g.TreeState c root k visited bound →
      visited.Nodup ∧ (∀ x ∈ visited, x ∈ c) ∧ visited.length = k + 1
  iteration :
    ∀ k visited bound, g.TreeState c root k visited bound →
      visited.length < c.length →
        ∃ next ∈ c, next ∉ visited ∧
          (g.treeIteration c visited bound = .saturated ∨
            ∃ bound',
              g.treeIteration c visited bound =
                .attached (visited ++ [next]) bound')
  ends : g.TreeEnds c root (g.spanningTreeCeiling c root)

theorem mem_component_together_iff
    (g : JoinGraph)
    {u v : Nat}
    (hu : u < g.relations.length)
    (hv : v < g.relations.length) :
    (∃ c ∈ g.components, u ∈ c ∧ v ∈ c) ↔
      Relation.EqvGen (Joined g.edges) u v := by
  constructor
  · rintro ⟨c, hc, huc, hvc⟩
    exact ((mem_component_iff hc hvc).mp huc).2
  · intro h
    have hmem : v ∈ g.components.flatten :=
      g.components_perm.mem_iff.mpr (List.mem_range.mpr hv)
    obtain ⟨c, hc, hvc⟩ := List.mem_flatten.mp hmem
    exact ⟨c, hc, (mem_component_iff hc hvc).mpr ⟨hu, h⟩, hvc⟩

theorem searchCorrect
    (g : JoinGraph) :
    g.SearchCorrect where
  walks parent h x hx := by
    obtain ⟨parent', root, hfind, h', _, hself⟩ := h.find_ends hx
    exact ⟨parent', root, hfind, h', hself⟩
  edgeLoop seen rest hsplit :=
    Inside.start.uniteEdges fun e he => by simp [hsplit, he]
  groupLoop parent h seen rest hsplit := by
    refine h.groupRelations (fun v hv => ?_) ∅
    rw [← List.mem_range, hsplit]
    exact List.mem_append_left _ hv
  once := g.components_perm
  connected _ hu _ hv := g.mem_component_together_iff hu hv

theorem treeLoopCorrect
    {g : JoinGraph}
    {c : List Nat}
    (hc : c ∈ g.components)
    {root : Nat}
    (hroot : root ∈ c) :
    g.TreeLoopCorrect c root where
  visited k visited bound h := by
    obtain ⟨hvisiting, hlength⟩ := h.visiting hc hroot
    exact ⟨hvisiting.nodup, hvisiting.sub, hlength⟩
  iteration k visited bound h hlt := by
    obtain ⟨hvisiting, _⟩ := h.visiting hc hroot
    obtain ⟨next, hnext, hnot, _, houtcome⟩ :=
      hvisiting.iteration hlt bound
    exact ⟨next, hnext, hnot, houtcome⟩
  ends := TreeState.start.ends hc hroot

/-- The search finds the components, and the tree loop covers each. -/
theorem search_and_treeLoop_correct
    (g : JoinGraph) :
    g.SearchCorrect ∧
      ∀ c ∈ g.components, ∀ root ∈ c, g.TreeLoopCorrect c root :=
  ⟨g.searchCorrect, fun _ hc _ hroot => treeLoopCorrect hc hroot⟩

end Correctness

end JoinGraph

end Samkhya
