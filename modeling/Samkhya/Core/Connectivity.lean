import Mathlib
import Samkhya.Core.JoinCeiling
import Samkhya.Foundations.SpanningGrowth

/-!
# What the components are

The disjoint-set loops compute a label for every relation: an edge gives the
relations that carry the label of its left end the label of its right end
(`relabel`).  The groups depend on the labels alone (`components_eq`), and two
relations carry one label exactly when edges connect them (`label_eq_iff`).

So a component is the ascending list of all relations connected with one of
them, and some edge crosses between any part of it and the rest.
-/

namespace Samkhya

open Loops ParentForest

theorem JoinEdge.swap_mem_orientations
    {e : JoinEdge}
    {u v : Nat}
    (ho : (u, v) ∈ e.orientations) :
    (v, u) ∈ e.orientations := by
  rw [JoinEdge.mem_orientations_iff] at ho ⊢
  rcases ho with ⟨rfl, rfl⟩ | ⟨rfl, rfl⟩
  · exact Or.inr ⟨rfl, rfl⟩
  · exact Or.inl ⟨rfl, rfl⟩

namespace JoinGraph

/-- Labels after one more edge. -/
def relabel (label : Nat → Nat) (e : JoinEdge) (x : Nat) : Nat :=
  if label x = label e.left then label e.right else label x

/-- Labels after all edges; at first every relation is its own. -/
def labelOf (edges : List JoinEdge) : Nat → Nat :=
  edges.foldl relabel id

/-- Group relations under their labels. -/
def groupUnder
    (label : Nat → Nat)
    (groups : Groups)
    (vs : List Nat) : Groups :=
  vs.foldl (fun groups v => groups.push (label v) v) groups

/-- An edge between two relations. -/
def Joined (edges : List JoinEdge) (u v : Nat) : Prop :=
  ∃ e ∈ edges, (u, v) ∈ e.orientations

section Labels

/-- An edge within one label changes nothing. -/
theorem relabel_of_eq
    {label : Nat → Nat}
    {e : JoinEdge}
    (h : label e.left = label e.right) :
    relabel label e = label := by
  funext x
  unfold relabel
  split_ifs with hx
  · rw [hx, h]
  · rfl

/-- Equal labels stay equal. -/
theorem relabel_congr
    {label : Nat → Nat}
    {e : JoinEdge}
    {u v : Nat}
    (h : label u = label v) :
    relabel label e u = relabel label e v := by
  unfold relabel
  rw [h]

/-- The ends of the edge get one label. -/
theorem relabel_ends
    (label : Nat → Nat)
    (e : JoinEdge) :
    relabel label e e.left = relabel label e e.right := by
  unfold relabel
  rw [if_pos rfl]
  split_ifs <;> rfl

theorem labelOf_append_singleton
    (edges : List JoinEdge)
    (e : JoinEdge) :
    labelOf (edges ++ [e]) = relabel (labelOf edges) e := by
  unfold labelOf
  rw [List.foldl_append]
  rfl

/-- More edges connect more. -/
theorem eqvGen_append
    {edges : List JoinEdge}
    (e : JoinEdge)
    {u v : Nat}
    (h : Relation.EqvGen (Joined edges) u v) :
    Relation.EqvGen (Joined (edges ++ [e])) u v := by
  refine Relation.EqvGen.mono ?_ u v h
  rintro x y ⟨e', he', ho⟩
  exact ⟨e', List.mem_append_left _ he', ho⟩

/-- Edges connect their ends, whichever way they are read. -/
theorem eq_of_joined
    {label : Nat → Nat}
    {edges : List JoinEdge}
    (h : ∀ e ∈ edges, label e.left = label e.right)
    {u v : Nat}
    (hjoined : Joined edges u v) :
    label u = label v := by
  obtain ⟨e, he, ho⟩ := hjoined
  rcases JoinEdge.mem_orientations_iff.mp ho with
    ⟨rfl, rfl⟩ | ⟨rfl, rfl⟩
  · exact h e he
  · exact (h e he).symm

/-- A labelling that every edge respects is one on connected relations. -/
theorem eq_of_eqvGen
    {label : Nat → Nat}
    {edges : List JoinEdge}
    (h : ∀ e ∈ edges, label e.left = label e.right)
    {u v : Nat}
    (hconnected : Relation.EqvGen (Joined edges) u v) :
    label u = label v := by
  induction hconnected with
  | rel u v hrel => exact eq_of_joined h hrel
  | refl u => rfl
  | symm u v _ ih => exact ih.symm
  | trans u v w _ _ ih ih' => exact ih.trans ih'

/-- The labels respect all edges that were taken in. -/
theorem labelOf_ends
    (edges : List JoinEdge) :
    ∀ e ∈ edges, labelOf edges e.left = labelOf edges e.right := by
  induction edges using List.reverseRecOn with
  | nil =>
      simp
  | append_singleton edges e ih =>
      intro e' he'
      rw [labelOf_append_singleton]
      rcases List.mem_append.mp he' with hold | hnew
      · exact relabel_congr (ih e' hold)
      · rw [List.mem_singleton.mp hnew]
        exact relabel_ends _ e

/-- Relations of one label are connected. -/
theorem eqvGen_of_labelOf_eq
    (edges : List JoinEdge)
    {u v : Nat}
    (h : labelOf edges u = labelOf edges v) :
    Relation.EqvGen (Joined edges) u v := by
  induction edges using List.reverseRecOn generalizing u v with
  | nil =>
      obtain rfl : u = v := h
      exact .refl u
  | append_singleton edges e ih =>
      have hedge :
          Relation.EqvGen (Joined (edges ++ [e])) e.left e.right :=
        .rel _ _ ⟨e, by simp, by simp [JoinEdge.orientations]⟩
      rw [labelOf_append_singleton] at h
      unfold relabel at h
      split_ifs at h with hu hv hv
      · exact eqvGen_append e (ih (hu.trans hv.symm))
      · have hul := eqvGen_append e (ih hu)
        have hrv := eqvGen_append e (ih h)
        exact (hul.trans _ _ _ hedge).trans _ _ _ hrv
      · have hvl := eqvGen_append e (ih hv)
        have hru := eqvGen_append e (ih h)
        exact hru.trans _ _ _ ((hvl.trans _ _ _ hedge).symm _ _)
      · exact eqvGen_append e (ih h)

/-- **Labels are the classes of connected relations.** -/
theorem labelOf_eq_iff
    (edges : List JoinEdge)
    (u v : Nat) :
    labelOf edges u = labelOf edges v ↔
      Relation.EqvGen (Joined edges) u v :=
  ⟨eqvGen_of_labelOf_eq edges, eq_of_eqvGen (labelOf_ends edges)⟩

end Labels

section Walk

variable {n : Nat} {parent : List Nat} {rank label : Nat → Nat}

/-- The walk finds the root and leaves all roots as they are. -/
theorem find_represents
    {fuel : Nat}
    {parent' : List Nat}
    {x root : Nat}
    (h : Represents n parent label)
    (hranked : Ranked n parent rank)
    (hx : x < n)
    (hfind : find fuel parent x = some (parent', root)) :
    root = label x ∧ Represents n parent' label := by
  induction fuel generalizing parent x with
  | zero =>
      cases hfind
  | succ fuel ih =>
      have hp := hranked.parent_lt x hx
      have hgrand := hranked.parent_lt _ hp
      have hgetx := getElem?_eq_parentOf (hranked.lt_length hx)
      have hgetp := getElem?_eq_parentOf (hranked.lt_length hp)
      simp only [find, hgetx, hgetp] at hfind
      split_ifs at hfind with hself
      · obtain ⟨rfl, rfl⟩ := Prod.mk.inj (Option.some.inj hfind)
        exact ⟨(h x hx).unique (.self hself) |>.symm, h⟩
      · have hhalved :
            Represents n
              (parent.set x (parentOf parent (parentOf parent x)))
              label :=
          fun y hy => (h y hy).halve hranked hx hself
        obtain ⟨hroot, hkeep⟩ :=
          ih hhalved (hranked.halve hx hself) hgrand hfind
        refine ⟨?_, hkeep⟩
        rw [hroot, h.parent_eq hp hgrand, h.parent_eq hx hp]

/-- An edge relabels the relations. -/
theorem uniteEdge_represents
    {e : JoinEdge}
    (h : Represents n parent label)
    (hforest : IsForest n parent)
    (he : e.InRange n) :
    ∃ parent',
      uniteEdge (n + 1) parent e = some parent' ∧
      IsForest n parent' ∧
      Represents n parent' (relabel label e) := by
  obtain ⟨parent', hunite, hforest'⟩ :=
    uniteEdge_isForest hforest he
  refine ⟨parent', hunite, hforest', ?_⟩
  obtain ⟨rank, hranked⟩ := hforest
  obtain ⟨hleft, hright, _⟩ := he
  obtain ⟨parent₁, a, hfinda, hranked₁, hroots₁, ha⟩ :=
    find_spec (n + 1) hranked hleft (by omega)
  obtain ⟨parent₂, b, hfindb, hranked₂, hroots₂, hb⟩ :=
    find_spec (n + 1) hranked₁ hright (by omega)
  obtain ⟨rfl, h₁⟩ := find_represents h hranked hleft hfinda
  obtain ⟨rfl, h₂⟩ := find_represents h₁ hranked₁ hright hfindb
  simp only [uniteEdge, hfinda, hfindb] at hunite
  split_ifs at hunite with hab
  · rw [← Option.some.inj hunite, relabel_of_eq hab]
    exact h₂
  · rw [← Option.some.inj hunite]
    rw [← hroots₁, ← hroots₂] at ha
    obtain ⟨halt, haself⟩ := mem_roots.mp ha
    rw [← hroots₂] at hb
    intro x hx
    exact
      (h₂ x hx).link (hranked₂.lt_length halt) haself
        (mem_roots.mp hb).2 hab

theorem uniteEdges_represents
    {edges : List JoinEdge}
    (hedges : ∀ e ∈ edges, e.InRange n)
    (h : Represents n parent label)
    (hforest : IsForest n parent) :
    ∃ parent',
      edges.foldlM (uniteEdge (n + 1)) parent = some parent' ∧
      IsForest n parent' ∧
      Represents n parent' (edges.foldl relabel label) := by
  refine
    foldlM_simulates
      (R := fun parent label =>
        IsForest n parent ∧ Represents n parent label)
      ?_ ⟨hforest, h⟩
  rintro e he parent label ⟨hforest, h⟩
  exact uniteEdge_represents h hforest (hedges e he)

/-- A relation is grouped under its label. -/
theorem groupRelation_represents
    {v : Nat}
    (h : Represents n parent label)
    (hforest : IsForest n parent)
    (hv : v < n)
    (groups : Groups) :
    ∃ parent',
      groupRelation (n + 1) (parent, groups) v =
        some (parent', groups.push (label v) v) ∧
      IsForest n parent' ∧
      Represents n parent' label := by
  obtain ⟨rank, hranked⟩ := hforest
  obtain ⟨parent', root, hfind, hranked', _, _⟩ :=
    find_spec (n + 1) hranked hv (by omega)
  obtain ⟨rfl, h'⟩ := find_represents h hranked hv hfind
  refine ⟨parent', ?_, ⟨rank, hranked'⟩, h'⟩
  simp only [groupRelation, hfind]

/-- The second loop groups the relations under their labels. -/
theorem groupRelations_eq
    (vs : List Nat)
    (hvs : ∀ v ∈ vs, v < n)
    (h : Represents n parent label)
    (hforest : IsForest n parent)
    (groups : Groups) :
    ∃ parent',
      vs.foldlM (groupRelation (n + 1)) (parent, groups) =
        some (parent', groupUnder label groups vs) := by
  have hstep :
      ∀ v ∈ vs, ∀ (state : List Nat × Groups) (groups : Groups),
        IsForest n state.1 ∧ Represents n state.1 label ∧
            state.2 = groups →
          ∃ state',
            groupRelation (n + 1) state v = some state' ∧
              IsForest n state'.1 ∧ Represents n state'.1 label ∧
                state'.2 = groups.push (label v) v := by
    rintro v hv ⟨parent, held⟩ _ ⟨hforest, h, rfl⟩
    obtain ⟨parent', hgroup, hforest', h'⟩ :=
      groupRelation_represents h hforest (hvs v hv) held
    exact ⟨_, hgroup, hforest', h', rfl⟩
  obtain ⟨⟨parent', groups'⟩, hrun, _, _, hgroups⟩ :=
    foldlM_simulates hstep (s := (parent, groups))
      ⟨hforest, h, rfl⟩
  refine ⟨parent', hrun.trans ?_⟩
  dsimp only at hgroups
  rw [hgroups]
  rfl

end Walk

/-- **The components are the groups of the labels.** -/
theorem components_eq
    (g : JoinGraph) :
    g.components =
      (groupUnder (labelOf g.edges) ∅
        (List.range g.relations.length)).values := by
  obtain ⟨parent, hunite, hforest, h⟩ :=
    uniteEdges_represents g.edges_inRange
      (represents_range g.relations.length)
      ⟨_, ranked_range g.relations.length⟩
  obtain ⟨parent', hgroup⟩ :=
    groupRelations_eq (List.range g.relations.length)
      (fun v hv => List.mem_range.mp hv) h hforest ∅
  apply Option.get_of_eq_some
  simp only [tryComponents, hunite, hgroup]
  rfl

section Membership

variable {label : Nat → Nat} {vs : List Nat} {groups : Groups}

/-- The group of a key lists the relations with that label in order. -/
theorem getElem?_groupUnder
    (k : Nat) :
    (groupUnder label groups vs)[k]? =
      if vs.filter (fun v => label v = k) = [] then
        groups[k]?
      else
        some
          ((groups[k]?).getD [] ++
            vs.filter (fun v => label v = k)) := by
  induction vs generalizing groups with
  | nil =>
      rfl
  | cons v vs ih =>
      have hpush :
          (groups.push (label v) v)[k]? =
            if label v = k then
              some ((groups[k]?).getD [] ++ [v])
            else
              groups[k]? := by
        unfold Groups.push
        simp only [Std.TreeMap.getElem?_insert,
          Std.compare_eq_iff_eq]
        split_ifs with hk
        · rw [hk]
        · rfl
      have hstep :
          groupUnder label groups (v :: vs) =
            groupUnder label (groups.push (label v) v) vs :=
        rfl
      rw [hstep, ih, hpush]
      by_cases hk : label v = k
      · rw [if_pos hk, List.filter_cons_of_pos (by simpa using hk),
          if_neg (List.cons_ne_nil _ _)]
        split_ifs with hnil
        · rw [hnil]
        · simp
      · rw [if_neg hk, List.filter_cons_of_neg (by simpa using hk)]

/-- A component lists all relations that carry one label. -/
theorem mem_components_iff
    (g : JoinGraph)
    (c : List Nat) :
    c ∈ g.components ↔
      ∃ v < g.relations.length,
        c =
          (List.range g.relations.length).filter
            (fun u => labelOf g.edges u = labelOf g.edges v) := by
  rw [components_eq, Groups.values, List.mem_map]
  constructor
  · rintro ⟨⟨k, c'⟩, hmem, rfl⟩
    rw [Std.TreeMap.mem_toList_iff_getElem?_eq_some,
      getElem?_groupUnder] at hmem
    split_ifs at hmem with hnil
    · simp at hmem
    · obtain ⟨v, hv⟩ := List.exists_mem_of_ne_nil _ hnil
      obtain ⟨hrange, hlabel⟩ := List.mem_filter.mp hv
      have hlabel : labelOf g.edges v = k := by
        simpa using hlabel
      refine ⟨v, List.mem_range.mp hrange, ?_⟩
      rw [hlabel]
      simpa using (Option.some.inj hmem).symm
  · rintro ⟨v, hv, rfl⟩
    refine ⟨(labelOf g.edges v, _), ?_, rfl⟩
    rw [Std.TreeMap.mem_toList_iff_getElem?_eq_some,
      getElem?_groupUnder, if_neg]
    · simp
    · apply List.ne_nil_of_mem
      exact List.mem_filter.mpr ⟨List.mem_range.mpr hv, by simp⟩

end Membership

section Component

variable {g : JoinGraph} {c : List Nat} {u v : Nat}

theorem component_nodup
    (hc : c ∈ g.components) :
    c.Nodup := by
  obtain ⟨v, _, rfl⟩ := (g.mem_components_iff c).mp hc
  exact List.nodup_range.filter _

theorem component_ne_nil
    (hc : c ∈ g.components) :
    c ≠ [] := by
  obtain ⟨v, hv, rfl⟩ := (g.mem_components_iff c).mp hc
  apply List.ne_nil_of_mem
  exact List.mem_filter.mpr ⟨List.mem_range.mpr hv, by simp⟩

/-- No component is listed twice. -/
theorem components_nodup
    (g : JoinGraph) :
    g.components.Nodup := by
  have hflatten : g.components.flatten.Nodup :=
    g.components_perm.nodup_iff.mpr List.nodup_range
  have hdisjoint := (List.nodup_flatten.mp hflatten).2
  refine List.Pairwise.imp_of_mem ?_ hdisjoint
  rintro c c' hc _ hcc' rfl
  obtain ⟨v, hv⟩ := List.exists_mem_of_ne_nil c (component_ne_nil hc)
  exact hcc' hv hv

/-- A component is all that is connected with one of its relations. -/
theorem mem_component_iff
    (hc : c ∈ g.components)
    (hu : u ∈ c) :
    v ∈ c ↔
      v < g.relations.length ∧
        Relation.EqvGen (Joined g.edges) v u := by
  obtain ⟨w, _, rfl⟩ := (g.mem_components_iff c).mp hc
  have hlabel : labelOf g.edges u = labelOf g.edges w := by
    simpa using (List.mem_filter.mp hu).2
  rw [List.mem_filter, List.mem_range, ← hlabel, decide_eq_true_eq,
    labelOf_eq_iff]

/-- Edges stay within a component. -/
theorem component_closed
    (hc : c ∈ g.components)
    (hu : u ∈ c)
    {e : JoinEdge}
    (he : e ∈ g.edges)
    (ho : (u, v) ∈ e.orientations) :
    v ∈ c := by
  rw [mem_component_iff hc hu]
  constructor
  · obtain ⟨hleft, hright, _⟩ := g.edges_inRange e he
    rcases JoinEdge.mem_orientations_iff.mp ho with
      ⟨rfl, rfl⟩ | ⟨rfl, rfl⟩
    · exact hright
    · exact hleft
  · exact (Relation.EqvGen.rel u v ⟨e, he, ho⟩).symm _ _

/-- Some edge leaves every part of a component that is not all of it. -/
theorem exists_crossing
    (hc : c ∈ g.components)
    {visited : List Nat}
    (hsub : ∀ x ∈ visited, x ∈ c)
    (hu : u ∈ visited)
    (hv : v ∈ c)
    (hnot : v ∉ visited) :
    ∃ p, g.Crossing c visited p := by
  by_contra hnone
  push Not at hnone
  have hstep :
      ∀ x y, Joined g.edges x y → x ∈ visited → y ∈ visited := by
    rintro x y ⟨e, he, ho⟩ hx
    by_contra hy
    exact
      hnone (y, g.factorAt y e.attributeId)
        ⟨e, he, x, ho, hx, hy, component_closed hc (hsub x hx) he ho,
          rfl⟩
  have hstay :
      ∀ x y, Joined g.edges x y → (x ∈ visited ↔ y ∈ visited) := by
    intro x y hxy
    refine ⟨hstep x y hxy, hstep y x ?_⟩
    obtain ⟨e, he, ho⟩ := hxy
    exact ⟨e, he, JoinEdge.swap_mem_orientations ho⟩
  have hconnected := ((mem_component_iff hc (hsub u hu)).mp hv).2
  exact
    hnot
      ((SpanningGrowth.iff_of_eqvGen hstay hconnected).mpr hu)

end Component

end JoinGraph

end Samkhya
