import Mathlib
import Samkhya.Core.CeilingMonotone
import Samkhya.Core.LpBound
import Samkhya.Core.ProductEnvelope

/-!
# What the ceiling reads

The ceiling reads the row counts, the edges in order, and the degree of an
endpoint on the attribute of its own edge.  Graphs that agree on these have one
ceiling (`SameBounds.ceiling_eq`), whatever else their relations carry.

Degrees that a loop registers for a list of calls, each an attribute and an
endpoint, are read back by `degree_registerCalls`; two lists of calls that both
mention the endpoints of every retained edge give the same bounds.
-/

namespace Samkhya

open Saturating

namespace JoinGraph

/-- The same rows and edges, and the same degrees at the ends of each edge. -/
structure SameBounds (g g' : JoinGraph) : Prop extends g.SameShape g' where
  factor_eq :
    ∀ e ∈ g.edges, ∀ source target,
      (source, target) ∈ e.orientations →
      g'.factorAt target e.attributeId = g.factorAt target e.attributeId

namespace SameBounds

variable {g g' : JoinGraph} {component visited : List Nat}

theorem relation_rows_eq
    (h : g.SameBounds g')
    (i : Nat) :
    (g'.relation i).rows = (g.relation i).rows :=
  UInt64.toNat_inj.mp (h.rowsAt_eq i)

theorem bestEdge_eq
    (h : g.SameBounds g') :
    g'.bestEdge component visited = g.bestEdge component visited := by
  unfold bestEdge
  rw [h.edges_eq]
  apply foldl_congr_mem
  intro e he best
  apply foldl_congr_mem
  rintro ⟨source, target⟩ ho best
  simp only [considerEdge, h.factor_eq e he source target ho]

theorem multiplyRemaining_eq
    (h : g.SameBounds g')
    (state : List Nat × Nat) :
    g'.multiplyRemaining component state =
      g.multiplyRemaining component state := by
  simp only [multiplyRemaining, h.rowsAt_eq]

theorem growTree_eq
    (h : g.SameBounds g')
    (bound : Nat) :
    g'.growTree component visited bound =
      g.growTree component visited bound := by
  fun_induction growTree g component visited bound with
  | case1 visited bound hlt hbest =>
      rw [growTree, if_pos hlt, h.bestEdge_eq, hbest]
      simp only [h.multiplyRemaining_eq]
  | case2 visited bound hlt next factor hbest bound' hmax =>
      rw [growTree, if_pos hlt, h.bestEdge_eq, hbest]
      exact if_pos hmax
  | case3 visited bound hlt next factor hbest bound' hmax ih =>
      rw [growTree, if_pos hlt, h.bestEdge_eq, hbest]
      exact (if_neg hmax).trans ih
  | case4 visited bound hge =>
      rw [growTree, if_neg hge]

theorem componentCeiling_eq
    (h : g.SameBounds g') :
    g'.componentCeiling component = g.componentCeiling component := by
  have htree :
      ∀ root, g'.spanningTreeCeiling component root =
        g.spanningTreeCeiling component root := by
    intro root
    rw [spanningTreeCeiling, h.growTree_eq, h.rowsAt_eq]
    rfl
  unfold componentCeiling
  simp only [h.relation_rows_eq]
  split_ifs
  · rfl
  · apply foldl_congr_mem
    intro root _ best
    rw [htree]

theorem ceilingLoop_eq
    (h : g.SameBounds g')
    (total : Nat)
    (components : List (List Nat)) :
    g'.ceilingLoop total components =
      g.ceilingLoop total components := by
  induction components generalizing total with
  | nil =>
      rfl
  | cons component components ih =>
      simp only [ceilingLoop, h.componentCeiling_eq, ih]

/-- Graphs with the same bounds have the same ceiling. -/
theorem ceiling_eq
    (h : g.SameBounds g') :
    g'.ceiling = g.ceiling := by
  have hempty : g'.relations.isEmpty = g.relations.isEmpty := by
    rw [Bool.eq_iff_iff, List.isEmpty_iff_length_eq_zero,
      List.isEmpty_iff_length_eq_zero, h.length_eq]
  simp only [ceiling, hempty, h.components_eq, h.ceilingLoop_eq]

end SameBounds

end JoinGraph

section Calls

variable
  {relations : List UInt64}
  {distinctCounts : Option (List UInt64)}

/-- Registrations in order, each of an endpoint on an attribute. -/
def registerCalls
    (relations : List UInt64)
    (distinctCounts : Option (List UInt64))
    (built : List JoinRelation)
    (calls : List (AttributeId × Nat)) : List JoinRelation :=
  calls.foldl
    (fun built call =>
      registerEndpoint relations distinctCounts call.1 built call.2)
    built

/-- One registration changes one relation. -/
theorem getD_registerEndpoint
    {built : List JoinRelation}
    (a : AttributeId)
    (endpoint : Nat)
    {i : Nat}
    (hi : i < built.length) :
    (registerEndpoint relations distinctCounts a built endpoint).getD i
        (JoinRelation.new 0) =
      if i = endpoint then
        (built.getD i (JoinRelation.new 0)).withDegree a
          (endpointDegree relations distinctCounts i)
      else
        built.getD i (JoinRelation.new 0) := by
  unfold registerEndpoint
  simp only [List.getD_eq_getElem?_getD, List.getElem?_set]
  by_cases hie : i = endpoint
  · subst hie
    simp [hi]
  · simp [hie, Ne.symm hie]

@[simp] theorem length_registerEndpoint
    (a : AttributeId)
    (built : List JoinRelation)
    (endpoint : Nat) :
    (registerEndpoint relations distinctCounts a built endpoint).length =
      built.length := by
  simp [registerEndpoint]

@[simp] theorem length_registerCalls
    (built : List JoinRelation)
    (calls : List (AttributeId × Nat)) :
    (registerCalls relations distinctCounts built calls).length =
      built.length := by
  unfold registerCalls
  induction calls generalizing built with
  | nil =>
      rfl
  | cons call calls ih =>
      simp [ih]

/-- Registrations keep the row counts. -/
theorem rows_registerCalls
    {built : List JoinRelation}
    (calls : List (AttributeId × Nat))
    {i : Nat}
    (hi : i < built.length) :
    ((registerCalls relations distinctCounts built calls).getD i
        (JoinRelation.new 0)).rows =
      (built.getD i (JoinRelation.new 0)).rows := by
  unfold registerCalls
  induction calls generalizing built with
  | nil =>
      rfl
  | cons call calls ih =>
      rw [List.foldl_cons, ih (by simpa using hi),
        getD_registerEndpoint call.1 call.2 hi]
      split_ifs <;> rfl

/-- The degree of an endpoint on an attribute that some call mentions. -/
theorem degree_registerCalls
    {built : List JoinRelation}
    (calls : List (AttributeId × Nat))
    {i : Nat}
    (hi : i < built.length)
    {a : AttributeId}
    (hcall :
      (a, i) ∈ calls ∨
        (built.getD i (JoinRelation.new 0)).degree a =
          endpointDegree relations distinctCounts i) :
    ((registerCalls relations distinctCounts built calls).getD i
        (JoinRelation.new 0)).degree a =
      endpointDegree relations distinctCounts i := by
  unfold registerCalls
  induction calls generalizing built with
  | nil =>
      simpa using hcall
  | cons call calls ih =>
      obtain ⟨b, endpoint⟩ := call
      rw [List.foldl_cons]
      apply ih (by simpa using hi)
      rw [getD_registerEndpoint b endpoint hi]
      by_cases hnow : b = a ∧ i = endpoint
      · obtain ⟨rfl, rfl⟩ := hnow
        right
        simp [JoinRelation.withDegree_degree]
      · rcases hcall with hcall | hcall
        · rcases List.mem_cons.mp hcall with heq | hcall
          · cases heq
            exact absurd ⟨rfl, rfl⟩ hnow
          · exact Or.inl hcall
        · right
          split_ifs with hie
          · rw [JoinRelation.withDegree_degree]
            split_ifs with hab
            · rfl
            · exact hcall
          · exact hcall

/-- The calls of one predicate: both endpoints of a pair of two relations. -/
def predicateCalls
    (n : Nat)
    (predicate : (Nat × Nat) × Nat) : List (AttributeId × Nat) :=
  let ((i, j), position) := predicate
  if i ≥ n ∨ j ≥ n ∨ i = j then
    []
  else
    [(UInt32.ofNat position, i), (UInt32.ofNat position, j)]

theorem foldl_registerPredicate_eq
    (predicates : List ((Nat × Nat) × Nat))
    (built : List JoinRelation) :
    predicates.foldl (registerPredicate relations distinctCounts) built =
      registerCalls relations distinctCounts built
        (predicates.flatMap (predicateCalls relations.length)) := by
  unfold registerCalls
  induction predicates generalizing built with
  | nil =>
      rfl
  | cons p predicates ih =>
      rw [List.foldl_cons, ih, List.flatMap_cons, List.foldl_append]
      congr 1
      obtain ⟨⟨i, j⟩, position⟩ := p
      simp only [registerPredicate, predicateCalls]
      split_ifs <;> rfl

/-- The edges of predicates over relations that are already built. -/
def withPredicates
    (built : List JoinRelation)
    (equalityPredicates : List (Nat × Nat)) : JoinGraph :=
  equalityPredicates.zipIdx.foldl
    (fun graph predicate =>
      graph.withEdge predicate.1.1 predicate.1.2
        (UInt32.ofNat predicate.2))
    (JoinGraph.new built)

/-- The edges retained depend on the number of relations only. -/
theorem withPredicates_eq
    (built : List JoinRelation)
    (equalityPredicates : List (Nat × Nat)) :
    (withPredicates built equalityPredicates).relations = built ∧
    (withPredicates built equalityPredicates).edges =
      (equalityPredicates.zipIdx.map
        (fun p => ⟨p.1.1, p.1.2, UInt32.ofNat p.2⟩)).filter
        (JoinEdge.inRange built.length) := by
  have hcalls :
      withPredicates built equalityPredicates =
        JoinGraph.ofCalls built
          (equalityPredicates.zipIdx.map
            (fun p => ⟨p.1.1, p.1.2, UInt32.ofNat p.2⟩)) := by
    simp [withPredicates, JoinGraph.ofCalls, List.foldl_map]
  rw [hcalls]
  exact ⟨JoinGraph.ofCalls_relations _ _, JoinGraph.ofCalls_edges _ _⟩

/-- Retained edges have their endpoints registered by `degree_graph`. -/
theorem mem_predicateCalls_of_edge
    {equalityPredicates : List (Nat × Nat)}
    {e : JoinEdge}
    (he :
      e ∈ (equalityPredicates.zipIdx.map
        (fun p => (⟨p.1.1, p.1.2, UInt32.ofNat p.2⟩ : JoinEdge))).filter
        (JoinEdge.inRange relations.length))
    {source target : Nat}
    (ho : (source, target) ∈ e.orientations) :
    (e.attributeId, target) ∈
      equalityPredicates.zipIdx.flatMap
        (predicateCalls relations.length) := by
  obtain ⟨hmap, hrange⟩ := List.mem_filter.mp he
  obtain ⟨⟨⟨i, j⟩, position⟩, hp, rfl⟩ := List.mem_map.mp hmap
  obtain ⟨hi, hj, hij⟩ := JoinEdge.inRange_eq_true.mp hrange
  refine List.mem_flatMap.mpr ⟨((i, j), position), hp, ?_⟩
  have hvalid : ¬ (i ≥ relations.length ∨ j ≥ relations.length ∨ i = j) := by
    simp only [not_or, ge_iff_le, not_le]
    exact ⟨hi, hj, hij⟩
  simp only [predicateCalls, if_neg hvalid]
  rcases JoinEdge.mem_orientations_iff.mp ho with ⟨_, rfl⟩ | ⟨_, rfl⟩
  · simp
  · simp

/-- The graph registers the endpoints of its pairs and then adds the edges. -/
theorem degreeGraph_eq
    (equalityPredicates : List (Nat × Nat)) :
    degreeGraph relations equalityPredicates distinctCounts =
      withPredicates
        (registerCalls relations distinctCounts
          (relations.map JoinRelation.new)
          (equalityPredicates.zipIdx.flatMap
            (predicateCalls relations.length)))
        equalityPredicates := by
  simp only [degreeGraph, withPredicates, foldl_registerPredicate_eq]

/-- The factor of an edge is the degree of the relation it leads to. -/
theorem factorAt_degreeGraph
    {equalityPredicates : List (Nat × Nat)}
    {e : JoinEdge}
    (he :
      e ∈ (degreeGraph relations equalityPredicates
        distinctCounts).edges)
    {source target : Nat}
    (ho : (source, target) ∈ e.orientations) :
    (degreeGraph relations equalityPredicates distinctCounts).factorAt
        target e.attributeId =
      (endpointDegree relations distinctCounts target).maxDegree := by
  rw [degreeGraph_eq] at he ⊢
  rw [(withPredicates_eq _ _).2, length_registerCalls,
    List.length_map] at he
  have htarget : target < (relations.map JoinRelation.new).length := by
    obtain ⟨hl, hr, _⟩ :=
      JoinEdge.inRange_eq_true.mp (List.mem_filter.mp he).2
    rw [List.length_map]
    rcases JoinEdge.mem_orientations_iff.mp ho with
      ⟨_, rfl⟩ | ⟨_, rfl⟩
    · exact hr
    · exact hl
  rw [JoinGraph.factorAt, JoinGraph.relation, (withPredicates_eq _ _).1,
    degree_registerCalls _ htarget
      (Or.inl (mem_predicateCalls_of_edge he ho))]

/--
A graph whose relations register at least the endpoints of its retained edges
has the bounds of `degree_graph`.
-/
theorem sameBounds_degreeGraph
    {equalityPredicates : List (Nat × Nat)}
    {calls : List (AttributeId × Nat)}
    (hcalls :
      ∀ call ∈ equalityPredicates.zipIdx.flatMap
          (predicateCalls relations.length),
        call ∈ calls ∨
          endpointDegree relations distinctCounts call.2 =
            AttributeDegree.unknown (relations.getD call.2 0)) :
    (degreeGraph relations equalityPredicates distinctCounts).SameBounds
      (withPredicates
        (registerCalls relations distinctCounts
          (relations.map JoinRelation.new) calls)
        equalityPredicates) := by
  have hlength :
      ∀ calls,
        (registerCalls relations distinctCounts
          (relations.map JoinRelation.new) calls).length =
          relations.length := by
    simp
  have hnew :
      ∀ i < relations.length, ∀ a,
        ((relations.map JoinRelation.new).getD i
          (JoinRelation.new 0)).degree a =
          AttributeDegree.unknown (relations.getD i 0) := by
    intro i hi a
    simp [hi]
  rw [degreeGraph_eq]
  refine ⟨⟨?_, ?_⟩, ?_⟩
  · simp only [JoinGraph.rowCounts, (withPredicates_eq _ _).1]
    apply List.ext_getElem
    · simp
    · intro i hi hi'
      have hbuilt : i < (relations.map JoinRelation.new).length := by
        simpa using hi
      have hrows := fun calls =>
        @rows_registerCalls relations distinctCounts _ calls i hbuilt
      simp only [List.getElem_map]
      rw [← List.getD_eq_getElem _ (JoinRelation.new 0),
        ← List.getD_eq_getElem _ (JoinRelation.new 0), hrows, hrows]
  · simp only [(withPredicates_eq _ _).2, hlength]
  · intro e he source target ho
    rw [(withPredicates_eq _ _).2, hlength] at he
    have hmem := mem_predicateCalls_of_edge he ho
    have htarget : target < (relations.map JoinRelation.new).length := by
      obtain ⟨hl, hr, _⟩ :=
        JoinEdge.inRange_eq_true.mp (List.mem_filter.mp he).2
      rw [List.length_map]
      rcases JoinEdge.mem_orientations_iff.mp ho with
        ⟨_, rfl⟩ | ⟨_, rfl⟩
      · exact hr
      · exact hl
    simp only [JoinGraph.factorAt, JoinGraph.relation,
      (withPredicates_eq _ _).1]
    rw [degree_registerCalls _ htarget (Or.inl hmem)]
    rw [degree_registerCalls calls htarget]
    rcases hcalls _ hmem with hcall | hunknown
    · exact Or.inl hcall
    · right
      rw [hnew target (by simpa using htarget)]
      exact hunknown.symm

end Calls

end Samkhya
