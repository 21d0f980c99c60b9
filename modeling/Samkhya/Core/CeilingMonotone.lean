import Mathlib
import Samkhya.Core.GreedyTree

/-!
# Better statistics and the ceiling

A graph is better informed than another when its row counts and degrees are at
most the other's and its edges extend the other's.  Every bound that the search
may give to the first graph, whichever edges it picks, has a counterpart in the
second that is no larger, as long as the new edges stay within components.

The greedy search picks one bound, and a smaller degree can lead it to a dearer
tree.  It does not when only row counts shrink and the picks stay the same.  A
degree of zero does no harm to the early exit: the search from the relation it
is reached from takes it first.
-/

namespace Samkhya

open Saturating SpanningGrowth

namespace JoinGraph

/-- The same relations with smaller counts and degrees, and more edges. -/
structure BetterInformed (g g' : JoinGraph) : Prop where
  length_eq : g'.relations.length = g.relations.length
  rows_le :
    ∀ i < g.relations.length, (g'.relation i).rows ≤ (g.relation i).rows
  degree_le :
    ∀ i < g.relations.length, ∀ a,
      ((g'.relation i).degree a).maxDegree ≤
        ((g.relation i).degree a).maxDegree
  edges : g.edges <+: g'.edges

/-- Every edge of the second graph stays within a component of the first. -/
def FusesNothing (g g' : JoinGraph) : Prop :=
  ∀ e ∈ g'.edges, ∃ c ∈ g.components, e.left ∈ c ∧ e.right ∈ c

/-- The edges that leave a relation of a component. -/
def edgesOf (g : JoinGraph) (c : List Nat) : List JoinEdge :=
  g.edges.filter (fun e => c.contains e.left)

/-- A component has the same edges with the same degrees in both graphs. -/
structure SameDegrees (g g' : JoinGraph) (c : List Nat) : Prop where
  edges_eq : g'.edgesOf c = g.edgesOf c
  factor_eq :
    ∀ e ∈ g.edgesOf c, ∀ u v, (u, v) ∈ e.orientations →
      g'.factorAt v e.attributeId = g.factorAt v e.attributeId

variable {g g' : JoinGraph}

/-- Further calls on relations with smaller counts and degrees. -/
theorem BetterInformed.ofCalls
    {relations relations' : List JoinRelation}
    (h :
      List.Forall₂
        (fun r r' : JoinRelation =>
          r'.rows ≤ r.rows ∧
          ∀ a, (r'.degree a).maxDegree ≤ (r.degree a).maxDegree)
        relations relations')
    (calls further : List JoinEdge) :
    (ofCalls relations calls).BetterInformed
      (ofCalls relations' (calls ++ further)) := by
  have hlength := h.length_eq
  have hget :
      ∀ i < relations.length,
        (relations'.getD i (.new 0)).rows ≤
            (relations.getD i (.new 0)).rows ∧
          ∀ a,
            ((relations'.getD i (.new 0)).degree a).maxDegree ≤
              ((relations.getD i (.new 0)).degree a).maxDegree := by
    intro i hi
    rw [List.getD_eq_getElem _ _ hi,
      List.getD_eq_getElem _ _ (hlength ▸ hi)]
    exact h.get hi (hlength ▸ hi)
  constructor
  · rw [ofCalls_relations, ofCalls_relations, hlength]
  · intro i hi
    rw [ofCalls_relations] at hi
    simp only [relation, ofCalls_relations]
    exact (hget i hi).1
  · intro i hi a
    rw [ofCalls_relations] at hi
    simp only [relation, ofCalls_relations]
    exact (hget i hi).2 a
  · rw [ofCalls_edges, ofCalls_edges, List.filter_append, hlength]
    exact List.prefix_append _ _

section Components

/-- Edges within components leave the labels alone. -/
theorem labelOf_extension
    (hedges : g.edges <+: g'.edges)
    (hfuses : g.FusesNothing g') :
    labelOf g'.edges = labelOf g.edges := by
  obtain ⟨extra, hextra⟩ := hedges
  have hsame :
      ∀ e ∈ extra,
        labelOf g.edges e.left = labelOf g.edges e.right := by
    intro e he
    obtain ⟨c, hc, hleft, hright⟩ :=
      hfuses e (hextra ▸ List.mem_append_right _ he)
    rw [labelOf_eq_iff]
    exact ((mem_component_iff hc hright).mp hleft).2
  rw [← hextra, labelOf, List.foldl_append]
  change extra.foldl relabel (labelOf g.edges) = labelOf g.edges
  clear hextra
  induction extra with
  | nil =>
      rfl
  | cons e extra ih =>
      rw [List.foldl_cons,
        relabel_of_eq (hsame e List.mem_cons_self)]
      exact ih fun e' he' => hsame e' (List.mem_cons_of_mem e he')

/-- So they leave the components as they are, in the same order. -/
theorem components_extension
    (h : g.BetterInformed g')
    (hfuses : g.FusesNothing g') :
    g'.components = g.components := by
  rw [components_eq, components_eq, h.length_eq,
    labelOf_extension h.edges hfuses]

end Components

namespace BetterInformed

theorem rowsAt_le
    (h : g.BetterInformed g')
    (i : Nat) :
    g'.rowsAt i ≤ g.rowsAt i := by
  by_cases hi : i < g.relations.length
  · exact UInt64.le_iff_toNat_le.mp (h.rows_le i hi)
  · have hnone : g'.relations.getD i (JoinRelation.new 0) =
        JoinRelation.new 0 :=
      List.getD_eq_default _ _ (by rw [h.length_eq]; omega)
    rw [rowsAt, relation, hnone]
    exact Nat.zero_le _

/-- An edge attaches a relation at a smaller factor. -/
theorem factorAt_le
    (h : g.BetterInformed g')
    {e : JoinEdge}
    (he : e ∈ g.edges)
    {u v : Nat}
    (ho : (u, v) ∈ e.orientations) :
    g'.factorAt v e.attributeId ≤ g.factorAt v e.attributeId := by
  apply h.degree_le
  obtain ⟨hleft, hright, _⟩ := g.edges_inRange e he
  rcases JoinEdge.mem_orientations_iff.mp ho with
    ⟨rfl, rfl⟩ | ⟨rfl, rfl⟩
  · exact hright
  · exact hleft

theorem arc
    (h : g.BetterInformed g')
    {c : List Nat}
    (u v w : Nat)
    (harc : g.Arc c u v w) :
    ∃ w' ≤ w, g'.Arc c u v w' := by
  obtain ⟨hu, e, he, ho, rfl⟩ := harc
  exact
    ⟨_, UInt64.le_iff_toNat_le.mp (h.factorAt_le he ho), hu, e,
      h.edges.subset he, ho, rfl⟩

end BetterInformed

section AnyTree

variable {c : List Nat}

/-- The fallback has nothing to multiply in when all relations are visited. -/
theorem multiplyRemaining_of_visited
    {visited : List Nat}
    (h : ∀ v ∈ c, v ∈ visited)
    (bound : Nat) :
    g.multiplyRemaining c (visited, bound) = (visited, bound) := by
  induction c with
  | nil =>
      rfl
  | cons v c ih =>
      have hv := h v List.mem_cons_self
      unfold multiplyRemaining at ih ⊢
      rw [List.foldl_cons, if_pos (by simpa using hv)]
      exact ih fun w hw => h w (List.mem_cons_of_mem v hw)

theorem clampToU64_mono
    {bound bound' : Nat}
    (h : bound' ≤ bound) :
    clampToU64 bound' ≤ clampToU64 bound := by
  rw [UInt64.le_iff_toNat_le, toNat_clampToU64, toNat_clampToU64]
  exact min_le_min_right _ h

theorem le_ofNat_u64Max
    (r : UInt64) :
    r ≤ UInt64.ofNat u64Max := by
  rw [UInt64.le_iff_toNat_le, toNat_u64Max]
  exact toNat_le_u64Max r

/-- A growth of the first graph has a smaller one in the second. -/
theorem TreeGrowth.improve
    (h : g.BetterInformed g')
    {visited : List Nat}
    {bound bound' : Nat}
    {r : UInt64}
    (hgrow : g.TreeGrowth c visited bound r)
    (hvisiting : g.Visiting c visited)
    (hbound : bound' ≤ bound) :
    ∃ r' ≤ r, g'.TreeGrowth c visited bound' r' := by
  induction hgrow generalizing bound' with
  | @covered visited bound hge =>
      exact ⟨_, clampToU64_mono hbound, .covered hge⟩
  | @stuck visited bound hnone =>
      -- in a component only a complete tree is stuck
      have hall : ∀ v ∈ c, v ∈ visited := by
        intro v hv
        by_contra hnot
        obtain ⟨u, hu⟩ :=
          List.exists_mem_of_ne_nil visited hvisiting.ne_nil
        obtain ⟨p, hp⟩ :=
          exists_crossing hvisiting.component hvisiting.sub hu hv hnot
        exact hnone p hp
      have hge : c.length ≤ visited.length :=
        ((component_nodup hvisiting.component).subperm hall).length_le
      rw [multiplyRemaining_of_visited hall]
      exact ⟨_, clampToU64_mono hbound, .covered hge⟩
  | @saturated visited bound next factor hcross hsat =>
      exact
        ⟨_, le_ofNat_u64Max _, g'.growTree_growth c visited bound'⟩
  | @attach visited bound next factor r hcross _ ih =>
      obtain ⟨e, he, source, ho, hsource, hnot, hcomponent, hfactor⟩ :=
        id hcross
      simp only at ho hnot hcomponent hfactor
      have hle := UInt64.le_iff_toNat_le.mp (h.factorAt_le he ho)
      rw [← hfactor] at hle
      have hmul :
          satMul u128Max bound'
              (g'.factorAt next e.attributeId).toNat ≤
            satMul u128Max bound factor.toNat :=
        min_le_min_right _ (Nat.mul_le_mul hbound hle)
      obtain ⟨r', hr', hgrow'⟩ := ih (hvisiting.next hcross) hmul
      exact
        ⟨r', hr',
          .attach
            ⟨e, h.edges.subset he, source, ho, hsource, hnot,
              hcomponent, rfl⟩ hgrow'⟩

/-- Smaller row counts have a smaller Cartesian product. -/
theorem productBound_mono
    (h : g.BetterInformed g') :
    ProductBound.ceiling
        (c.map (fun r => (g'.relation r).rows)) [] ≤
      ProductBound.ceiling
        (c.map (fun r => (g.relation r).rows)) [] := by
  rw [UInt64.le_iff_toNat_le, ProductBound.toNat_ceiling,
    ProductBound.toNat_ceiling, List.map_map, List.map_map]
  apply min_le_min_right
  exact List.prod_le_prod' fun v _ => h.rowsAt_le v

theorem ComponentBound.improve
    (h : g.BetterInformed g')
    (hc : c ∈ g.components)
    {b : UInt64}
    (hb : g.ComponentBound c b) :
    ∃ b' ≤ b, g'.ComponentBound c b' := by
  cases hb with
  | product =>
      exact ⟨_, productBound_mono h, .product⟩
  | @tree root r hroot hgrow =>
      obtain ⟨r', hr', hgrow'⟩ :=
        hgrow.improve h (.root hc hroot) (h.rowsAt_le root)
      exact ⟨r', hr', .tree hroot hgrow'⟩

/-- Every component has some bound. -/
theorem exists_ceilingRun
    (g : JoinGraph)
    (total : Nat)
    (cs : List (List Nat)) :
    ∃ r, g.CeilingRun total cs r :=
  ⟨_, g.ceilingLoop_run total cs⟩

/-- **A run of the first graph has a smaller one in the second.** -/
theorem CeilingRun.improve
    (h : g.BetterInformed g')
    {total total' : Nat}
    {cs : List (List Nat)}
    {r : UInt64}
    (hrun : g.CeilingRun total cs r)
    (hcs : ∀ c ∈ cs, c ∈ g.components)
    (htotal : total' ≤ total)
    (hsmall : total ≤ u64Max) :
    ∃ r' ≤ r, g'.CeilingRun total' cs r' := by
  induction hrun generalizing total' with
  | done total =>
      refine ⟨_, ?_, .done total'⟩
      rw [UInt64.le_iff_toNat_le,
        toNat_ofNat_of_le (htotal.trans hsmall),
        toNat_ofNat_of_le hsmall]
      exact htotal
  | @saturated total c cs b hb hsat =>
      obtain ⟨r', hrun'⟩ := g'.exists_ceilingRun total' (c :: cs)
      exact ⟨r', le_ofNat_u64Max r', hrun'⟩
  | @multiply total c cs b r hb hsat _ ih =>
      obtain ⟨b', hb', hbound'⟩ :=
        hb.improve h (hcs c List.mem_cons_self)
      have hmul :
          satMul u128Max total' b'.toNat ≤
            satMul u128Max total b.toNat :=
        min_le_min_right _
          (Nat.mul_le_mul htotal (UInt64.le_iff_toNat_le.mp hb'))
      obtain ⟨r', hr', hrun'⟩ :=
        ih (fun c' hc' => hcs c' (List.mem_cons_of_mem c hc')) hmul
          hsat.le
      exact ⟨r', hr', .multiply hbound' (hmul.trans_lt hsat) hrun'⟩

end AnyTree

section Ceiling

variable {c : List Nat}

/-- Taking minima over the roots keeps the order. -/
theorem foldl_min_mono
    {f f' : Nat → UInt64}
    {roots : List Nat}
    (hf : ∀ root ∈ roots, f' root ≤ f root)
    {best best' : UInt64}
    (hbest : best' ≤ best) :
    roots.foldl
        (fun best root => if f' root < best then f' root else best)
        best' ≤
      roots.foldl
        (fun best root => if f root < best then f root else best)
        best := by
  induction roots generalizing best best' with
  | nil =>
      exact hbest
  | cons root roots ih =>
      rw [List.foldl_cons, List.foldl_cons]
      apply ih fun r hr => hf r (List.mem_cons_of_mem root hr)
      have hroot := hf root List.mem_cons_self
      simp only [UInt64.le_iff_toNat_le, UInt64.lt_iff_toNat_lt]
        at hroot hbest ⊢
      split_ifs <;> omega

/-- A minimum over the roots is below each of them. -/
theorem foldl_min_le
    {f : Nat → UInt64}
    {roots : List Nat}
    {root : Nat}
    (hroot : root ∈ roots)
    (best : UInt64) :
    roots.foldl
        (fun best root => if f root < best then f root else best)
        best ≤ f root := by
  apply foldl_establishes (P := fun best => best ≤ f root) _ hroot
  · intro best
    split_ifs with hlt
    · exact UInt64.le_refl _
    · exact UInt64.not_lt.mp hlt
  · intro best a hbest
    split_ifs with hlt
    · exact UInt64.le_trans (UInt64.le_of_lt hlt) hbest
    · exact hbest

/-- A single relation is its own spanning tree. -/
theorem spanningTreeCeiling_singleton
    (v : Nat) :
    g.spanningTreeCeiling [v] v = (g.relation v).rows := by
  rw [spanningTreeCeiling, growTree, if_neg (by simp),
    ← UInt64.toNat_inj, toNat_clampToU64]
  exact Nat.min_eq_left (toNat_le_u64Max _)

theorem componentCeiling_le_tree
    {root : Nat}
    (hroot : root ∈ c) :
    g.componentCeiling c ≤ g.spanningTreeCeiling c root := by
  unfold componentCeiling
  simp only
  split_ifs with hlength
  · obtain ⟨v, rfl⟩ := List.length_eq_one_iff.mp hlength
    rw [List.mem_singleton.mp hroot, List.headD_cons,
      spanningTreeCeiling_singleton]
    exact UInt64.le_refl _
  · exact foldl_min_le hroot _

/-- A component ceiling is one of the bounds that it compares. -/
theorem componentCeiling_cases
    (g : JoinGraph)
    (c : List Nat) :
    g.componentCeiling c =
        ProductBound.ceiling
          (c.map (fun r => (g.relation r).rows)) [] ∨
      ∃ root ∈ c,
        g.componentCeiling c = g.spanningTreeCeiling c root := by
  unfold componentCeiling
  simp only
  split_ifs with hlength
  · obtain ⟨v, rfl⟩ := List.length_eq_one_iff.mp hlength
    rw [List.headD_cons, ← productBound_singleton (g.relation v).rows]
    exact Or.inl rfl
  · refine
      List.foldlRecOn
        (motive := fun best =>
          best =
              ProductBound.ceiling
                (c.map (fun r => (g.relation r).rows)) [] ∨
            ∃ root ∈ c, best = g.spanningTreeCeiling c root)
        _ _ (Or.inl rfl) ?_
    intro best hbest root hroot
    split_ifs
    · exact Or.inr ⟨root, hroot, rfl⟩
    · exact hbest

/-- Cheaper trees make a smaller component ceiling. -/
theorem componentCeiling_mono
    (h : g.BetterInformed g')
    (htree :
      ∀ root ∈ c,
        g'.spanningTreeCeiling c root ≤ g.spanningTreeCeiling c root) :
    g'.componentCeiling c ≤ g.componentCeiling c := by
  unfold componentCeiling
  simp only
  split_ifs
  · exact UInt64.le_iff_toNat_le.mpr (h.rowsAt_le _)
  · exact foldl_min_mono htree (productBound_mono h)

/-- Smaller component ceilings make a smaller product, with the early exit. -/
theorem ceilingLoop_mono
    {cs : List (List Nat)}
    (hcs :
      ∀ c ∈ cs, g'.componentCeiling c ≤ g.componentCeiling c)
    {total total' : Nat}
    (htotal : total' ≤ total)
    (hsmall : total ≤ u64Max) :
    g'.ceilingLoop total' cs ≤ g.ceilingLoop total cs := by
  induction cs generalizing total total' with
  | nil =>
      rw [ceilingLoop, ceilingLoop, UInt64.le_iff_toNat_le,
        toNat_ofNat_of_le (htotal.trans hsmall),
        toNat_ofNat_of_le hsmall]
      exact htotal
  | cons c cs ih =>
      have hc :=
        UInt64.le_iff_toNat_le.mp (hcs c List.mem_cons_self)
      have hmul :
          satMul u128Max total' (g'.componentCeiling c).toNat ≤
            satMul u128Max total (g.componentCeiling c).toNat :=
        min_le_min_right _ (Nat.mul_le_mul htotal hc)
      rw [ceilingLoop, ceilingLoop]
      by_cases hsat :
          satMul u128Max total (g.componentCeiling c).toNat ≥ u64Max
      · rw [if_pos hsat]
        exact le_ofNat_u64Max _
      · rw [if_neg hsat, if_neg (fun hsat' => hsat (hsat'.trans hmul))]
        exact
          ih (fun c' hc' => hcs c' (List.mem_cons_of_mem c hc')) hmul
            (Nat.le_of_not_le hsat)

/-- Cheaper components make a smaller ceiling. -/
theorem ceiling_mono
    (h : g.BetterInformed g')
    (hfuses : g.FusesNothing g')
    (hcs :
      ∀ c ∈ g.components,
        g'.componentCeiling c ≤ g.componentCeiling c) :
    g'.ceiling ≤ g.ceiling := by
  have hempty : g'.relations.isEmpty = g.relations.isEmpty := by
    rw [Bool.eq_iff_iff, List.isEmpty_iff_length_eq_zero,
      List.isEmpty_iff_length_eq_zero, h.length_eq]
  unfold ceiling
  rw [hempty, components_extension h hfuses]
  split_ifs
  · exact UInt64.le_refl _
  · exact ceilingLoop_mono hcs le_rfl (by decide)

end Ceiling

section Greedy

variable {c : List Nat} {root : Nat}

/-- A root's bound is the product along its greedy tree. -/
theorem spanningTreeCeiling_eq
    (hc : c ∈ g.components)
    (hroot : root ∈ c) :
    g.spanningTreeCeiling c root =
      cutProduct (g.rowsAt root) (weights (g.treeSteps c [root])) :=
  growTree_eq (.root hc hroot) _

/-- Without a zero the early exit only cuts the product off. -/
theorem toNat_cutProduct_of_positive
    {bound : Nat}
    {ws : List Nat}
    (h : ∀ w ∈ ws, w ≠ 0) :
    (cutProduct bound ws).toNat = min (bound * ws.prod) u64Max := by
  have hsame : ws.map (max 1) = ws := by
    refine (List.map_congr_left ?_).trans (List.map_id _)
    intro w hw
    exact max_eq_right (Nat.one_le_iff_ne_zero.mpr (h w hw))
  apply Nat.le_antisymm
  · by_cases hlt : bound * ws.prod < u64Max
    · rw [← hsame] at hlt
      have hne := cutProduct_ne_of_lt hlt
      rw [hsame] at hlt
      rw [toNat_cutProduct_of_ne hne]
      exact Nat.le_min.mpr ⟨le_rfl, hlt.le⟩
    · exact
        (toNat_le_u64Max _).trans
          (Nat.le_min.mpr ⟨Nat.le_of_not_lt hlt, le_rfl⟩)
  · exact min_le_cutProduct bound ws

/-- A root's bound in a component without zero degrees. -/
theorem toNat_spanningTreeCeiling
    (hc : c ∈ g.components)
    (hpositive : ∀ u v w, g.Arc c u v w → w ≠ 0)
    (hroot : root ∈ c) :
    (g.spanningTreeCeiling c root).toNat =
      min
        (g.rowsAt root * (weights (g.treeSteps c [root])).prod)
        u64Max := by
  rw [spanningTreeCeiling_eq hc hroot]
  apply toNat_cutProduct_of_positive
  intro w hw
  obtain ⟨p, hp, rfl⟩ := List.mem_map.mp hw
  obtain ⟨hgreedy, _⟩ := treeSteps_greedy (Visiting.root hc hroot)
  obtain ⟨_, u, harc⟩ := hgreedy.growth.of_mem hp
  exact hpositive u p.1 p.2 harc

/-- A component with a degree of zero has a ceiling of zero. -/
theorem componentCeiling_eq_zero
    (hc : c ∈ g.components)
    {u v : Nat}
    (harc : g.Arc c u v 0) :
    g.componentCeiling c = 0 := by
  obtain ⟨hu, e, he, ho, hzero⟩ := harc
  have hv := component_closed hc hu he ho
  have huv : u ≠ v := by
    have hends := (g.edges_inRange e he).2.2
    rcases JoinEdge.mem_orientations_iff.mp ho with
      ⟨rfl, rfl⟩ | ⟨rfl, rfl⟩
    · exact hends
    · exact hends.symm
  have htree : g.spanningTreeCeiling c u = 0 := by
    -- the search from `u` takes the zero first
    obtain ⟨hgreedy, hreached⟩ :=
      treeSteps_greedy (Visiting.root hc hu)
    rw [spanningTreeCeiling_eq hc hu]
    cases hsteps : g.treeSteps c [u] with
    | nil =>
        rw [hsteps, reached_nil] at hreached
        have hmem : v ∈ [u].toFinset := by
          rw [hreached]
          exact List.mem_toFinset.mpr hv
        simp only [List.mem_toFinset, List.mem_singleton] at hmem
        exact absurd hmem.symm huv
    | cons p rest =>
        obtain ⟨x, w⟩ := p
        rw [hsteps] at hgreedy
        have hw : w = 0 := by
          cases hgreedy with
          | attach _ _ _ hleast _ =>
              exact
                Nat.le_zero.mp
                  (hleast u (by simp) v (by simp [huv.symm]) 0
                    ⟨hu, e, he, ho, hzero⟩)
        have hfit :
            cutProduct 0 (weights rest) ≠ UInt64.ofNat u64Max := by
          apply cutProduct_ne_of_lt
          rw [Nat.zero_mul]
          decide
        have hweights : weights ((x, w) :: rest) = 0 :: weights rest := by
          rw [hw]
          rfl
        rw [hweights, cutProduct_cons, Nat.mul_zero, if_neg (by decide),
          ← UInt64.toNat_inj, toNat_cutProduct_of_ne hfit,
          Nat.zero_mul]
        rfl
  have hle := componentCeiling_le_tree (g := g) hu
  rw [htree] at hle
  exact UInt64.le_zero_iff.mp hle

end Greedy

section SameDegrees

variable {c visited : List Nat}

/-- A fold depends on the values of its function at the list only. -/
theorem foldl_congr_mem
    {α β : Type}
    {f f' : β → α → β}
    {l : List α}
    (h : ∀ a ∈ l, ∀ b, f b a = f' b a)
    (b : β) :
    l.foldl f b = l.foldl f' b := by
  induction l generalizing b with
  | nil =>
      rfl
  | cons a l ih =>
      rw [List.foldl_cons, List.foldl_cons, h a List.mem_cons_self]
      exact ih (fun a' ha' => h a' (List.mem_cons_of_mem a ha')) _

/-- An edge elsewhere is passed over. -/
theorem considerEdge_outside
    {attributeId : AttributeId}
    {best : Option (Nat × UInt64)}
    {source target : Nat}
    (h : target ∉ c) :
    g.considerEdge c visited attributeId best (source, target) =
      best := by
  unfold considerEdge
  simp only
  split_ifs with hfrontier hcomponent
  · rfl
  · rfl
  · simp [h] at hcomponent
  · rfl

/-- The scan of a component reads the edges of the component. -/
theorem bestEdge_eq_edgesOf
    (hc : c ∈ g.components) :
    g.bestEdge c visited =
      (g.edgesOf c).foldl
        (fun best edge =>
          edge.orientations.foldl
            (g.considerEdge c visited edge.attributeId) best)
        none := by
  unfold bestEdge edgesOf
  rw [List.foldl_filter]
  apply foldl_congr_mem
  intro e he best
  split_ifs with hleft
  · rfl
  · have hleft : e.left ∉ c := by
      simpa using hleft
    have hright : e.right ∉ c := fun hright =>
      hleft
        (component_closed hc hright he
          (JoinEdge.mem_orientations_iff.mpr (Or.inr ⟨rfl, rfl⟩)))
    simp only [JoinEdge.orientations, List.foldl_cons,
      List.foldl_nil]
    rw [considerEdge_outside hright, considerEdge_outside hleft]

theorem bestEdge_congr
    (hc : c ∈ g.components)
    (hc' : c ∈ g'.components)
    (hsame : g.SameDegrees g' c) :
    g'.bestEdge c visited = g.bestEdge c visited := by
  rw [bestEdge_eq_edgesOf hc, bestEdge_eq_edgesOf hc',
    hsame.edges_eq]
  apply foldl_congr_mem
  intro e he best
  apply foldl_congr_mem
  rintro ⟨source, target⟩ ho best
  unfold considerEdge
  simp only
  rw [hsame.factor_eq e he source target ho]

theorem treeSteps_congr
    (hc : c ∈ g.components)
    (hc' : c ∈ g'.components)
    (hsame : g.SameDegrees g' c) :
    g'.treeSteps c visited = g.treeSteps c visited := by
  fun_induction treeSteps g c visited with
  | case1 visited hlt hbest =>
      rw [treeSteps, if_pos hlt, bestEdge_congr hc hc' hsame, hbest]
  | case2 visited hlt next factor hbest ih =>
      rw [treeSteps, if_pos hlt, bestEdge_congr hc hc' hsame, hbest]
      simp only
      rw [ih]
  | case3 visited hge =>
      rw [treeSteps, if_neg hge]

/-- Smaller row counts along the same picks. -/
theorem componentCeiling_le_of_sameDegrees
    (h : g.BetterInformed g')
    (hc : c ∈ g.components)
    (hc' : c ∈ g'.components)
    (hsame : g.SameDegrees g' c) :
    g'.componentCeiling c ≤ g.componentCeiling c := by
  apply componentCeiling_mono h
  intro root hroot
  rw [spanningTreeCeiling_eq hc hroot,
    spanningTreeCeiling_eq hc' hroot, treeSteps_congr hc hc' hsame,
    UInt64.le_iff_toNat_le]
  exact
    cutProduct_mono (h.rowsAt_le root)
      (List.forall₂_same.mpr fun _ _ => le_rfl)

end SameDegrees

end JoinGraph

end Samkhya
