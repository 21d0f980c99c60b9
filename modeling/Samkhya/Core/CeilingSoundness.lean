import Mathlib
import Samkhya.Core.JoinCeiling
import Samkhya.Foundations.JoinCount
import Samkhya.Foundations.Multiplicity

/-!
# Soundness of the spanning-tree ceiling

An instance gives every relation a finite bag of rows, a row being the value of
each attribute (`none` for NULL).  Its join size is the number of ways to
choose one row per relation such that every retained edge compares equal.  The
instance is consistent with a graph when it honours the row counts and every
degree, registered or defaulted.

`joinWeight_partials` connects the two layers: the partial tuples of a join are
a `JoinWeight`, so the ceiling bounds them (`ceiling_sound`).  The connection
is stated for edges that compare arbitrary key columns, which is what the
legacy predicate-pair surfaces need as well.
-/

namespace Samkhya

open Saturating Multiplicity JoinCount

universe u v

/-- SQL equality: NULL equals nothing. -/
def sqlEq {κ : Type u} [DecidableEq κ] (x y : Option κ) : Bool :=
  x.isSome && x == y

theorem sqlEq_iff
    {κ : Type u} [DecidableEq κ]
    (x y : Option κ) :
    sqlEq x y = true ↔ ∃ k, x = some k ∧ y = some k := by
  cases x with
  | none =>
      simp [sqlEq]
  | some a =>
      simpa [sqlEq] using eq_comm

/-- One chosen row position for every relation. -/
abbrev Choice {ρ : Type u} {n : Nat} (bag : Fin n → List ρ) :=
  ∀ i : Fin n, Fin (bag i).length

/-- The relations of `S` as nodes of a graph with `n` relations. -/
def nodesIn (n : Nat) (S : Finset Nat) : Finset (Fin n) :=
  Finset.univ.filter (fun i => i.val ∈ S)

theorem nodesIn_empty
    (n : Nat) :
    nodesIn n ∅ = ∅ := by
  simp [nodesIn]

theorem nodesIn_union
    (n : Nat)
    (S T : Finset Nat) :
    nodesIn n (S ∪ T) = nodesIn n S ∪ nodesIn n T := by
  ext i
  simp [nodesIn]

theorem nodesIn_insert
    {n v : Nat}
    (hv : v < n)
    (S : Finset Nat) :
    nodesIn n (insert v S) = insert ⟨v, hv⟩ (nodesIn n S) := by
  ext i
  simp [nodesIn, Fin.ext_iff]

theorem nodesIn_range
    (n : Nat) :
    nodesIn n (Finset.range n) = Finset.univ := by
  ext i
  simp [nodesIn]

namespace JoinGraph

variable {ρ : Type u}

/--
Tuples joined along the edges form a join weight: every edge compares one key
column on each side, and the degree of an endpoint bounds its key column.
-/
theorem joinWeight_partials
    {κ : Type v}
    [DecidableEq κ]
    (g : JoinGraph)
    (bag : Fin g.relations.length → List ρ)
    (F : Finset (Choice bag))
    (hrows : ∀ i, (bag i).length ≤ g.rowsAt i)
    (hedges :
      ∀ e ∈ g.edges, ∀ source target,
        (source.val, target.val) ∈ e.orientations →
        ∃ keyS keyT : ρ → Option κ,
          (∀ f ∈ F, ∃ k,
            keyS ((bag source).get (f source)) = some k ∧
            keyT ((bag target).get (f target)) = some k) ∧
          maxShare ((bag target).map keyT) ≤
            (g.factorAt target e.attributeId).toNat) :
    g.JoinWeight
      (fun S => partials F (nodesIn g.relations.length S)) where
  empty_le := by
    rw [nodesIn_empty]
    exact partials_empty_le F
  single_le := by
    intro v hv
    rw [← insert_empty_eq, nodesIn_insert hv, nodesIn_empty,
      insert_empty_eq]
    refine (partials_singleton_le F ⟨v, hv⟩).trans ?_
    rw [Fintype.card_fin]
    exact hrows ⟨v, hv⟩
  union_le := by
    intro S T _
    rw [nodesIn_union]
    exact partials_union_le F _ _
  attach_le := by
    intro S e he source target ho hsource _
    have hrange :
        source < g.relations.length ∧
          target < g.relations.length := by
      obtain ⟨hleft, hright, _⟩ := g.edges_inRange e he
      rcases JoinEdge.mem_orientations_iff.mp ho with
        ⟨rfl, rfl⟩ | ⟨rfl, rfl⟩
      · exact ⟨hleft, hright⟩
      · exact ⟨hright, hleft⟩
    obtain ⟨hs, ht⟩ := hrange
    obtain ⟨keyS, keyT, hjoin, hdegree⟩ :=
      hedges e he ⟨source, hs⟩ ⟨target, ht⟩ ho
    rw [nodesIn_insert ht, Nat.mul_comm]
    apply
      partials_insert_le
        (F := F) (u := ⟨source, hs⟩) (v := ⟨target, ht⟩)
        (by simp [nodesIn, hsource])
        (fun r => keyS ((bag ⟨source, hs⟩).get r))
        (fun r => keyT ((bag ⟨target, ht⟩).get r))
    · exact hjoin
    · intro k
      rw [card_filter_get_eq_share]
      exact (share_le_maxShare _ k).trans hdegree

/-- Any run of the ceiling bounds the number of joined tuples. -/
theorem card_le_of_run
    (κ : Type v)
    [DecidableEq κ]
    (g : JoinGraph)
    {n : Nat}
    (hn : g.relations.length = n)
    (bag : Fin n → List ρ)
    (F : Finset (Choice bag))
    (hrows : ∀ i, (bag i).length ≤ g.rowsAt i)
    (hedges :
      ∀ e ∈ g.edges, ∀ source target,
        (source.val, target.val) ∈ e.orientations →
        ∃ keyS keyT : ρ → Option κ,
          (∀ f ∈ F, ∃ k,
            keyS ((bag source).get (f source)) = some k ∧
            keyT ((bag target).get (f target)) = some k) ∧
          maxShare ((bag target).map keyT) ≤
            (g.factorAt target e.attributeId).toNat)
    {r : UInt64}
    (hrun : g.CeilingRun 1 g.components r) :
    min F.card u64Max ≤ r.toNat := by
  subst hn
  have h :=
    (g.joinWeight_partials bag F hrows hedges).le_of_run hrun
  rw [nodesIn_range, partials_univ] at h
  exact h

end JoinGraph

/-- A row, as the join predicates see it: one value per attribute. -/
abbrev Row (κ : Type u) := AttributeId → Option κ

/-- A finite bag of rows for every relation of a graph. -/
structure BagInstance (κ : Type u) (g : JoinGraph) where
  bag : Fin g.relations.length → List (Row κ)

namespace BagInstance

variable {κ : Type u} [DecidableEq κ] {g : JoinGraph}

/-- Value of an attribute in the row chosen for a relation. -/
def value
    (inst : BagInstance κ g)
    (f : Choice inst.bag)
    (i : Nat)
    (a : AttributeId) : Option κ :=
  if h : i < g.relations.length then
    (inst.bag ⟨i, h⟩).get (f ⟨i, h⟩) a
  else
    none

/-- The chosen rows satisfy `left.a = right.a` for every retained edge. -/
def Satisfies
    (inst : BagInstance κ g)
    (f : Choice inst.bag) : Prop :=
  ∀ e ∈ g.edges,
    sqlEq
      (inst.value f e.left e.attributeId)
      (inst.value f e.right e.attributeId) = true

instance
    (inst : BagInstance κ g)
    (f : Choice inst.bag) :
    Decidable (inst.Satisfies f) :=
  inferInstanceAs (Decidable (∀ e ∈ g.edges, _))

/-- Number of ways to choose one row per relation that satisfy every edge. -/
def joinSize (inst : BagInstance κ g) : Nat :=
  (Finset.univ.filter
    (fun f : Choice inst.bag => inst.Satisfies f)).card

/-- The instance honours every row count and every degree. -/
structure Consistent (inst : BagInstance κ g) : Prop where
  rows_le : ∀ i, (inst.bag i).length ≤ g.rowsAt i
  degree_le :
    ∀ i, ∀ a : AttributeId,
      maxShare ((inst.bag i).map (fun row => row a)) ≤
        ((g.relation i).degree a).maxDegree.toNat

/-- Satisfied edges give both endpoints one common key. -/
theorem exists_key_of_satisfies
    {inst : BagInstance κ g}
    {f : Choice inst.bag}
    (hf : inst.Satisfies f)
    {e : JoinEdge}
    (he : e ∈ g.edges)
    {source target : Fin g.relations.length}
    (ho : (source.val, target.val) ∈ e.orientations) :
    ∃ k,
      (inst.bag source).get (f source) e.attributeId = some k ∧
      (inst.bag target).get (f target) e.attributeId = some k := by
  obtain ⟨k, hleft, hright⟩ := (sqlEq_iff _ _).mp (hf e he)
  have hvalue :
      ∀ i : Fin g.relations.length,
        inst.value f i.val e.attributeId =
          (inst.bag i).get (f i) e.attributeId := by
    intro i
    simp [value]
  rcases JoinEdge.mem_orientations_iff.mp ho with
    ⟨hs, ht⟩ | ⟨hs, ht⟩
  · rw [← hs, hvalue] at hleft
    rw [← ht, hvalue] at hright
    exact ⟨k, hleft, hright⟩
  · rw [← ht, hvalue] at hleft
    rw [← hs, hvalue] at hright
    exact ⟨k, hright, hleft⟩

end BagInstance

/--
**The spanning-tree ceiling is sound.**  Whatever crossing edges the tree
search picks, from whatever root, every run of the ceiling computation is at
least the join size of every consistent instance; the published ceiling is one
of these runs.
-/
theorem ceiling_sound
    {κ : Type u} [DecidableEq κ]
    (g : JoinGraph)
    (hne : g.relations ≠ [])
    (inst : BagInstance κ g)
    (hinst : inst.Consistent) :
    (∀ r, g.CeilingRun 1 g.components r →
      min inst.joinSize u64Max ≤ r.toNat) ∧
    min inst.joinSize u64Max ≤ g.ceiling.toNat := by
  have hruns :
      ∀ r, g.CeilingRun 1 g.components r →
        min inst.joinSize u64Max ≤ r.toNat := by
    intro r hrun
    refine
      g.card_le_of_run κ rfl inst.bag _ hinst.rows_le ?_ hrun
    intro e he source target ho
    refine
      ⟨fun row => row e.attributeId,
        fun row => row e.attributeId, ?_, ?_⟩
    · intro f hf
      exact
        BagInstance.exists_key_of_satisfies
          (Finset.mem_filter.mp hf).2 he ho
    · exact hinst.degree_le target e.attributeId
  exact ⟨hruns, hruns _ (g.ceiling_run hne)⟩

section KeyedJoin

/-- Two keyed dimension rows joined with three fact rows. -/
def keyedGraph : JoinGraph :=
  (JoinGraph.new
    [(JoinRelation.new 2).withDegree 0
      (AttributeDegree.fromDistinct 2 2),
      JoinRelation.new 3]).withEdge 0 1 0

/-- Keys 1 and 2 in the dimension, keys 1, 1 and 2 in the facts. -/
def keyedInstance : BagInstance Nat keyedGraph where
  bag i :=
    if i.val = 0 then
      [fun _ => some 1, fun _ => some 2]
    else
      [fun _ => some 1, fun _ => some 1, fun _ => some 2]

theorem keyedInstance_consistent :
    keyedInstance.Consistent where
  rows_le := by
    decide
  degree_le := by
    intro i a
    have hlength : keyedGraph.relations.length = 2 := rfl
    have hi : i.val = 0 ∨ i.val = 1 := by
      omega
    rcases hi with hi | hi
    · have hbag :
          keyedInstance.bag i =
            [fun _ => some 1, fun _ => some 2] :=
        if_pos hi
      have hrelation :
          keyedGraph.relation i =
            (JoinRelation.new 2).withDegree 0
              (AttributeDegree.fromDistinct 2 2) := by
        rw [hi]
        rfl
      have hshare :
          maxShare [some 1, some 2] = 1 := by
        decide
      rw [hbag, hrelation, JoinRelation.withDegree_degree]
      simp only [List.map_cons, List.map_nil, hshare,
        JoinRelation.new_degree]
      split_ifs <;> decide
    · have hbag :
          keyedInstance.bag i =
            [fun _ => some 1, fun _ => some 1,
              fun _ => some 2] :=
        if_neg (by omega)
      have hrelation :
          keyedGraph.relation i = JoinRelation.new 3 := by
        rw [hi]
        rfl
      have hshare :
          maxShare [some 1, some 1, some 2] = 2 := by
        decide
      rw [hbag, hrelation, JoinRelation.new_degree]
      simp only [List.map_cons, List.map_nil, hshare]
      decide

/-- The keyed join has three rows at most. -/
theorem ceiling_sound_keyed :
    min keyedInstance.joinSize u64Max ≤
      keyedGraph.ceiling.toNat :=
  (ceiling_sound keyedGraph (by decide) keyedInstance
    keyedInstance_consistent).2

end KeyedJoin

end Samkhya
