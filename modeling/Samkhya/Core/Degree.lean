import Mathlib
import Samkhya.Foundations.Saturating

/-!
# Join graphs with degree statistics

The data model of the degree-derived ceiling: degree bounds and their
constructors, relations carrying one degree per join attribute, and the join
graph that `new` and `withEdge` build.  A graph carries the guard of `withEdge`
as a field, so every retained edge joins two different relations of the graph.

`ProductBound` is the Cartesian ceiling that every other ceiling is compared
with.
-/

namespace Samkhya

open Saturating

/-- Identifier of an equi-join attribute. -/
abbrev AttributeId := UInt32

/-- Bound on the rows of one relation that can share one attribute value. -/
structure AttributeDegree where
  maxDegree : UInt64
deriving DecidableEq

namespace AttributeDegree

/-- Every row could share one value. -/
def unknown (rows : UInt64) : AttributeDegree where
  maxDegree := rows

/-- `rows - distinct + 1`, or `unknown` for an uninformative distinct count. -/
def fromDistinct (rows distinct : UInt64) : AttributeDegree :=
  if distinct = 0 ∨ distinct > rows then
    unknown rows
  else
    { maxDegree := rows - distinct + 1 }

/-- A measured bound, capped at the row count. -/
def fromUpperBound (rows upperBound : UInt64) : AttributeDegree where
  maxDegree := if upperBound < rows then upperBound else rows

@[simp] theorem unknown_maxDegree
    (rows : UInt64) :
    (unknown rows).maxDegree = rows :=
  rfl

/-- The subtraction of `fromDistinct` never wraps. -/
theorem toNat_fromDistinct
    (rows distinct : UInt64) :
    (fromDistinct rows distinct).maxDegree.toNat =
      if distinct.toNat = 0 ∨ rows.toNat < distinct.toNat then
        rows.toNat
      else
        rows.toNat - distinct.toNat + 1 := by
  have hzero : distinct = 0 ↔ distinct.toNat = 0 := by
    rw [← UInt64.toNat_inj]
    rfl
  have hlt : distinct > rows ↔ rows.toNat < distinct.toNat :=
    UInt64.lt_iff_toNat_lt
  unfold fromDistinct
  simp only [hzero, hlt]
  split_ifs with h
  · rfl
  · have hle : distinct ≤ rows := by
      rw [UInt64.le_iff_toNat_le]
      omega
    have hbound := rows.toNat_lt
    simp only
    rw [UInt64.toNat_add, UInt64.toNat_sub_of_le rows distinct hle]
    simp only [UInt64.toNat_one]
    omega

/-- The cap of `fromUpperBound` is a minimum. -/
theorem toNat_fromUpperBound
    (rows upperBound : UInt64) :
    (fromUpperBound rows upperBound).maxDegree.toNat =
      min upperBound.toNat rows.toNat := by
  unfold fromUpperBound
  simp only [UInt64.lt_iff_toNat_lt]
  split_ifs with h
  · exact (Nat.min_eq_left h.le).symm
  · exact (Nat.min_eq_right (Nat.le_of_not_lt h)).symm

/--
A distinct-count floor gives a sound degree: a column of at most `rows` rows
whose degree is at most `rows + 1 - distinct` is covered, whatever the floor.
-/
theorem le_fromDistinct
    {rows distinct : UInt64}
    {share : Nat}
    (hrows : share ≤ rows.toNat)
    (hshare : share ≤ rows.toNat + 1 - distinct.toNat) :
    share ≤ (fromDistinct rows distinct).maxDegree.toNat := by
  rw [toNat_fromDistinct]
  split_ifs with h
  · exact hrows
  · omega

end AttributeDegree

/-- One relation of a join with its per-attribute degrees. -/
structure JoinRelation where
  rows : UInt64
  degrees : Std.TreeMap AttributeId AttributeDegree

namespace JoinRelation

/-- A relation without degree information. -/
def new (rows : UInt64) : JoinRelation where
  rows := rows
  degrees := ∅

/-- Attach, or replace, the degree of one attribute. -/
def withDegree
    (r : JoinRelation)
    (attributeId : AttributeId)
    (degree : AttributeDegree) : JoinRelation :=
  { r with degrees := r.degrees.insert attributeId degree }

/-- The registered degree of an attribute, or `unknown`. -/
def degree
    (r : JoinRelation)
    (attributeId : AttributeId) : AttributeDegree :=
  (r.degrees[attributeId]?).getD (AttributeDegree.unknown r.rows)

@[simp] theorem new_rows
    (rows : UInt64) :
    (new rows).rows = rows :=
  rfl

@[simp] theorem withDegree_rows
    (r : JoinRelation)
    (attributeId : AttributeId)
    (degree : AttributeDegree) :
    (r.withDegree attributeId degree).rows = r.rows :=
  rfl

@[simp] theorem new_degree
    (rows : UInt64)
    (attributeId : AttributeId) :
    (new rows).degree attributeId = AttributeDegree.unknown rows := by
  simp [new, degree]

/-- Reading a degree back after one registration. -/
theorem withDegree_degree
    (r : JoinRelation)
    (a b : AttributeId)
    (d : AttributeDegree) :
    (r.withDegree a d).degree b =
      if a = b then d else r.degree b := by
  unfold degree withDegree
  simp only [Std.TreeMap.getElem?_insert, Std.compare_eq_iff_eq]
  split_ifs <;> rfl

end JoinRelation

/-- An equality between two relations on one attribute. -/
structure JoinEdge where
  left : Nat
  right : Nat
  attributeId : AttributeId
deriving DecidableEq

/-- The guard of `withEdge`: two different relations among `n`. -/
def JoinEdge.InRange (n : Nat) (e : JoinEdge) : Prop :=
  e.left < n ∧ e.right < n ∧ e.left ≠ e.right

/-- The guard as `withEdge` computes it. -/
def JoinEdge.inRange (n : Nat) (e : JoinEdge) : Bool :=
  e.left < n && e.right < n && e.left != e.right

theorem JoinEdge.inRange_eq_true
    {n : Nat}
    {e : JoinEdge} :
    e.inRange n = true ↔ e.InRange n := by
  simp [inRange, InRange, and_assoc]

/-- Relations and the retained equality predicates between them. -/
structure JoinGraph where
  relations : List JoinRelation
  edges : List JoinEdge
  edges_inRange : ∀ e ∈ edges, e.InRange relations.length

namespace JoinGraph

/-- A graph without predicates. -/
def new (relations : List JoinRelation) : JoinGraph where
  relations := relations
  edges := []
  edges_inRange := by
    intro e he
    exact absurd he List.not_mem_nil

/-- Append an edge; out-of-range and self edges are dropped. -/
def withEdge
    (g : JoinGraph)
    (left right : Nat)
    (attributeId : AttributeId) : JoinGraph :=
  if h : left < g.relations.length ∧ right < g.relations.length ∧
      left ≠ right then
    { relations := g.relations
      edges := g.edges ++ [⟨left, right, attributeId⟩]
      edges_inRange := by
        intro e he
        rcases List.mem_append.mp he with he | he
        · exact g.edges_inRange e he
        · rw [List.mem_singleton.mp he]
          exact h }
  else
    g

/-- The graph that a sequence of `with_edge` calls builds. -/
def ofCalls
    (relations : List JoinRelation)
    (calls : List JoinEdge) : JoinGraph :=
  calls.foldl
    (fun g e => g.withEdge e.left e.right e.attributeId)
    (new relations)

/-- Relation at an index; indices the algorithms use are always in range. -/
def relation (g : JoinGraph) (i : Nat) : JoinRelation :=
  g.relations.getD i (JoinRelation.new 0)

/-- Row count of the relation at an index. -/
def rowsAt (g : JoinGraph) (i : Nat) : Nat :=
  (g.relation i).rows.toNat

@[simp] theorem new_relations
    (relations : List JoinRelation) :
    (new relations).relations = relations :=
  rfl

@[simp] theorem new_edges
    (relations : List JoinRelation) :
    (new relations).edges = [] :=
  rfl

@[simp] theorem withEdge_relations
    (g : JoinGraph)
    (left right : Nat)
    (attributeId : AttributeId) :
    (g.withEdge left right attributeId).relations = g.relations := by
  unfold withEdge
  split_ifs <;> rfl

/-- What one call of `withEdge` retains. -/
theorem mem_withEdge_edges
    (g : JoinGraph)
    (left right : Nat)
    (attributeId : AttributeId)
    (e : JoinEdge) :
    e ∈ (g.withEdge left right attributeId).edges ↔
      e ∈ g.edges ∨
        (e = ⟨left, right, attributeId⟩ ∧
          e.InRange g.relations.length) := by
  unfold withEdge
  split_ifs with h
  · simp only [List.mem_append, List.mem_singleton]
    constructor
    · rintro (he | rfl)
      · exact Or.inl he
      · exact Or.inr ⟨rfl, h⟩
    · rintro (he | ⟨rfl, _⟩)
      · exact Or.inl he
      · exact Or.inr rfl
  · constructor
    · exact Or.inl
    · rintro (he | ⟨rfl, hin⟩)
      · exact he
      · exact absurd hin h

/-- A sequence of calls appends the edges that pass the guard. -/
theorem foldl_withEdge
    (calls : List JoinEdge)
    (g : JoinGraph) :
    (calls.foldl
        (fun g e => g.withEdge e.left e.right e.attributeId)
        g).relations = g.relations ∧
    (calls.foldl
        (fun g e => g.withEdge e.left e.right e.attributeId)
        g).edges =
      g.edges ++
        calls.filter (fun e => e.inRange g.relations.length) := by
  induction calls generalizing g with
  | nil =>
      exact ⟨rfl, (List.append_nil _).symm⟩
  | cons call calls ih =>
      obtain ⟨hrelations, hedges⟩ :=
        ih (g.withEdge call.left call.right call.attributeId)
      refine ⟨hrelations.trans (g.withEdge_relations _ _ _), ?_⟩
      rw [List.foldl_cons, hedges, withEdge_relations]
      unfold withEdge
      split_ifs with h
      · rw [List.filter_cons_of_pos (JoinEdge.inRange_eq_true.mpr h),
          List.append_assoc, List.singleton_append]
      · rw [List.filter_cons_of_neg
          (fun hin => h (JoinEdge.inRange_eq_true.mp hin))]

@[simp] theorem ofCalls_relations
    (relations : List JoinRelation)
    (calls : List JoinEdge) :
    (ofCalls relations calls).relations = relations :=
  (foldl_withEdge calls (new relations)).1

theorem ofCalls_edges
    (relations : List JoinRelation)
    (calls : List JoinEdge) :
    (ofCalls relations calls).edges =
      calls.filter (fun e => e.inRange relations.length) :=
  (foldl_withEdge calls (new relations)).2

theorem mem_ofCalls_edges
    (relations : List JoinRelation)
    (calls : List JoinEdge)
    (e : JoinEdge) :
    e ∈ (ofCalls relations calls).edges ↔
      e ∈ calls ∧ e.InRange relations.length := by
  rw [ofCalls_edges, List.mem_filter, JoinEdge.inRange_eq_true]

/-- The row counts in relation order. -/
def rowCounts (g : JoinGraph) : List UInt64 :=
  g.relations.map JoinRelation.rows

end JoinGraph

namespace ProductBound

/-- Saturating Cartesian product of the row counts. -/
def ceiling
    (relations : List UInt64)
    (_eq : List (Nat × Nat)) : UInt64 :=
  relations.foldl saturatingMulU64 1

/-- The saturating fold is the exact product, cut off once. -/
theorem toNat_ceiling
    (relations : List UInt64)
    (eq : List (Nat × Nat)) :
    (ceiling relations eq).toNat =
      min (relations.map UInt64.toNat).prod u64Max := by
  have hfold :
      ∀ (xs : List UInt64) (a : UInt64),
        (xs.foldl saturatingMulU64 a).toNat =
          (xs.map UInt64.toNat).foldl (satMul u64Max) a.toNat := by
    intro xs
    induction xs with
    | nil =>
        intro a
        rfl
    | cons x xs ih =>
        intro a
        simp [ih]
  unfold ceiling
  rw [hfold, foldl_satMul u64Max _ (toNat_le_u64Max 1)]
  simp

end ProductBound

end Samkhya
