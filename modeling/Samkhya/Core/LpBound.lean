import Mathlib
import Samkhya.Core.CeilingSoundness

/-!
# The legacy predicate-pair surfaces

`ChainBound` and `LpJoinBound` take row counts and a list of joined relation
pairs.  `degreeGraph` turns that input into a join graph: every predicate is an
attribute of its own, and every relation it touches gets the degree that its
one supplied distinct count justifies.

The soundness statement lets a relation use a different key column for every
predicate.  It rests on one invariant of the translation (`Registered`): on any
attribute a relation carries either the degree of its distinct count or the
row count.
-/

namespace Samkhya

open Saturating Multiplicity

universe u

/-- Degree of a relation under the supplied distinct counts. -/
def endpointDegree
    (relations : List UInt64)
    (distinctCounts : Option (List UInt64))
    (endpoint : Nat) : AttributeDegree :=
  let rows := relations.getD endpoint 0
  match distinctCounts.bind (fun d => d[endpoint]?) with
  | some distinct => AttributeDegree.fromDistinct rows distinct
  | none => AttributeDegree.unknown rows

/-- One endpoint of one predicate: replace the relation by a better informed one. -/
def registerEndpoint
    (relations : List UInt64)
    (distinctCounts : Option (List UInt64))
    (attributeId : AttributeId)
    (built : List JoinRelation)
    (endpoint : Nat) : List JoinRelation :=
  built.set endpoint
    ((built.getD endpoint (JoinRelation.new 0)).withDegree attributeId
      (endpointDegree relations distinctCounts endpoint))

/-- One predicate of the first loop; the attribute is its position `as u32`. -/
def registerPredicate
    (relations : List UInt64)
    (distinctCounts : Option (List UInt64))
    (built : List JoinRelation)
    (predicate : (Nat × Nat) × Nat) : List JoinRelation :=
  let ((i, j), position) := predicate
  if i ≥ relations.length ∨ j ≥ relations.length ∨ i = j then
    built
  else
    [i, j].foldl
      (registerEndpoint relations distinctCounts
        (UInt32.ofNat position))
      built

/-- The join graph implied by row counts and predicate pairs. -/
def degreeGraph
    (relations : List UInt64)
    (equalityPredicates : List (Nat × Nat))
    (distinctCounts : Option (List UInt64)) : JoinGraph :=
  let built :=
    equalityPredicates.zipIdx.foldl
      (registerPredicate relations distinctCounts)
      (relations.map JoinRelation.new)
  equalityPredicates.zipIdx.foldl
    (fun graph predicate =>
      graph.withEdge predicate.1.1 predicate.1.2
        (UInt32.ofNat predicate.2))
    (JoinGraph.new built)

/-- Degree-derived chain-join bound. -/
structure ChainBound where
  distinctCounts : List UInt64

namespace ChainBound

def ceiling
    (b : ChainBound)
    (relations : List UInt64)
    (equalityPredicates : List (Nat × Nat)) : UInt64 :=
  if relations.isEmpty then
    0
  else if equalityPredicates.isEmpty then
    ProductBound.ceiling relations []
  else
    (degreeGraph relations equalityPredicates
      (some b.distinctCounts)).ceiling

end ChainBound

/-- The LP-backed bound; its pair surfaces delegate to the degree ceiling. -/
structure LpJoinBound where
  distinctCounts : List UInt64

namespace LpJoinBound

def ceiling
    (_b : LpJoinBound)
    (relations : List UInt64)
    (equalityPredicates : List (Nat × Nat)) : UInt64 :=
  if relations.isEmpty then
    0
  else if equalityPredicates.isEmpty then
    ProductBound.ceiling relations []
  else
    (degreeGraph relations equalityPredicates none).ceiling

def ceilingWithDistinct
    (b : LpJoinBound)
    (relations : List UInt64)
    (equalityPredicates : List (Nat × Nat)) : UInt64 :=
  if relations.isEmpty then
    0
  else if equalityPredicates.isEmpty then
    ProductBound.ceiling relations []
  else
    (degreeGraph relations equalityPredicates
      (some b.distinctCounts)).ceiling

end LpJoinBound

section Translation

variable {relations : List UInt64} {distinctCounts : Option (List UInt64)}

/--
What the translation has built so far: every relation keeps its row count and
carries, on any attribute, its endpoint degree or its row count.
-/
structure Registered
    (relations : List UInt64)
    (distinctCounts : Option (List UInt64))
    (built : List JoinRelation) : Prop where
  length_eq : built.length = relations.length
  rows_eq :
    ∀ i < relations.length,
      (built.getD i (JoinRelation.new 0)).rows = relations.getD i 0
  degree_eq :
    ∀ i < relations.length, ∀ a,
      (built.getD i (JoinRelation.new 0)).degree a =
          endpointDegree relations distinctCounts i ∨
        (built.getD i (JoinRelation.new 0)).degree a =
          AttributeDegree.unknown (relations.getD i 0)

/-- The relations before any predicate is registered. -/
theorem registered_new :
    Registered relations distinctCounts
      (relations.map JoinRelation.new) := by
  have hget :
      ∀ i < relations.length,
        (relations.map JoinRelation.new).getD i
            (JoinRelation.new 0) =
          JoinRelation.new (relations.getD i 0) := by
    intro i hi
    simp [hi]
  refine ⟨List.length_map _, ?_, ?_⟩
  · intro i hi
    rw [hget i hi]
    rfl
  · intro i hi a
    rw [hget i hi]
    exact Or.inr (JoinRelation.new_degree _ a)

/-- Registering one endpoint keeps the invariant. -/
theorem Registered.registerEndpoint
    {built : List JoinRelation}
    (h : Registered relations distinctCounts built)
    (a : AttributeId)
    (endpoint : Nat) :
    Registered relations distinctCounts
      (registerEndpoint relations distinctCounts a built endpoint) := by
  have hget :
      ∀ i < relations.length,
        (Samkhya.registerEndpoint relations distinctCounts a built
            endpoint).getD i (JoinRelation.new 0) =
          if i = endpoint then
            (built.getD i (JoinRelation.new 0)).withDegree a
              (endpointDegree relations distinctCounts i)
          else
            built.getD i (JoinRelation.new 0) := by
    intro i hi
    have hlen : i < built.length := by
      rw [h.length_eq]
      exact hi
    unfold Samkhya.registerEndpoint
    simp only [List.getD_eq_getElem?_getD, List.getElem?_set]
    by_cases hie : i = endpoint
    · subst hie
      simp [hlen]
    · simp [hie, Ne.symm hie]
  refine ⟨?_, ?_, ?_⟩
  · unfold Samkhya.registerEndpoint
    rw [List.length_set]
    exact h.length_eq
  · intro i hi
    rw [hget i hi]
    split_ifs
    · exact h.rows_eq i hi
    · exact h.rows_eq i hi
  · intro i hi b
    rw [hget i hi]
    split_ifs with hie
    · rw [JoinRelation.withDegree_degree]
      split_ifs
      · exact Or.inl rfl
      · exact h.degree_eq i hi b
    · exact h.degree_eq i hi b

/-- Registering any list of predicates keeps the invariant. -/
theorem Registered.foldl_registerPredicate
    (predicates : List ((Nat × Nat) × Nat))
    {built : List JoinRelation}
    (h : Registered relations distinctCounts built) :
    Registered relations distinctCounts
      (predicates.foldl
        (registerPredicate relations distinctCounts) built) := by
  induction predicates generalizing built with
  | nil =>
      exact h
  | cons p predicates ih =>
      rw [List.foldl_cons]
      apply ih
      unfold registerPredicate
      simp only
      split_ifs
      · exact h
      · exact (h.registerEndpoint _ _).registerEndpoint _ _

/-- Adding edges leaves the relations alone. -/
theorem foldl_withEdge_relations
    (predicates : List ((Nat × Nat) × Nat))
    (g : JoinGraph) :
    (predicates.foldl
      (fun graph predicate =>
        graph.withEdge predicate.1.1 predicate.1.2
          (UInt32.ofNat predicate.2)) g).relations =
      g.relations := by
  induction predicates generalizing g with
  | nil =>
      rfl
  | cons p predicates ih =>
      rw [List.foldl_cons, ih, JoinGraph.withEdge_relations]

/-- Every edge of the translation stems from a predicate. -/
theorem mem_foldl_withEdge
    {predicates : List ((Nat × Nat) × Nat)}
    {g : JoinGraph}
    {e : JoinEdge}
    (he :
      e ∈ (predicates.foldl
        (fun graph predicate =>
          graph.withEdge predicate.1.1 predicate.1.2
            (UInt32.ofNat predicate.2)) g).edges) :
    e ∈ g.edges ∨
      ∃ p ∈ predicates,
        e = ⟨p.1.1, p.1.2, UInt32.ofNat p.2⟩ := by
  induction predicates generalizing g with
  | nil =>
      exact Or.inl he
  | cons p predicates ih =>
      rw [List.foldl_cons] at he
      rcases ih he with hstep | ⟨q, hq, rfl⟩
      · rcases (JoinGraph.mem_withEdge_edges g _ _ _ e).mp hstep
          with hg | ⟨rfl, _⟩
        · exact Or.inl hg
        · exact Or.inr ⟨p, List.mem_cons_self, rfl⟩
      · exact Or.inr ⟨q, List.mem_cons_of_mem p hq, rfl⟩

variable (relations distinctCounts)

/-- The translated graph satisfies the registration invariant. -/
theorem degreeGraph_registered
    (equalityPredicates : List (Nat × Nat)) :
    Registered relations distinctCounts
      (degreeGraph relations equalityPredicates
        distinctCounts).relations := by
  unfold degreeGraph
  simp only
  rw [foldl_withEdge_relations, JoinGraph.new_relations]
  exact
    registered_new.foldl_registerPredicate
      equalityPredicates.zipIdx

/-- Every edge of the translated graph is a predicate at its position. -/
theorem degreeGraph_edge
    (equalityPredicates : List (Nat × Nat))
    {e : JoinEdge}
    (he :
      e ∈ (degreeGraph relations equalityPredicates
        distinctCounts).edges) :
    ∃ position : Nat,
      equalityPredicates[position]? = some (e.left, e.right) ∧
      e.InRange relations.length := by
  have hrange :=
    (degreeGraph relations equalityPredicates
      distinctCounts).edges_inRange e he
  rw [(degreeGraph_registered relations distinctCounts
    equalityPredicates).length_eq] at hrange
  rcases mem_foldl_withEdge he with hnew | ⟨⟨⟨i, j⟩, position⟩, hp, rfl⟩
  · exact absurd hnew List.not_mem_nil
  · exact
      ⟨position, List.mem_zipIdx_iff_getElem?.mp hp, hrange⟩

end Translation

/--
Bags with exactly the given row counts.  A row maps column positions to values;
`column k i` is the key column that relation `i` uses for predicate `k`.
-/
structure PredicateInstance (κ : Type u) (relations : List UInt64) where
  bag : Fin relations.length → List (Nat → Option κ)
  column : Nat → Nat → Nat
  length_eq : ∀ i, (bag i).length = (relations.get i).toNat

namespace PredicateInstance

variable {κ : Type u} [DecidableEq κ] {relations : List UInt64}

/-- Key that the row chosen for relation `i` carries for predicate `k`. -/
def key
    (inst : PredicateInstance κ relations)
    (f : Choice inst.bag)
    (k i : Nat) : Option κ :=
  if h : i < relations.length then
    (inst.bag ⟨i, h⟩).get (f ⟨i, h⟩) (inst.column k i)
  else
    none

/-- One predicate; out-of-range and self pairs impose nothing. -/
def Holds
    (inst : PredicateInstance κ relations)
    (f : Choice inst.bag)
    (predicate : (Nat × Nat) × Nat) : Prop :=
  let ((i, j), k) := predicate
  i < relations.length → j < relations.length → i ≠ j →
    sqlEq (inst.key f k i) (inst.key f k j) = true

instance
    (inst : PredicateInstance κ relations)
    (f : Choice inst.bag)
    (predicate : (Nat × Nat) × Nat) :
    Decidable (inst.Holds f predicate) :=
  inferInstanceAs (Decidable (_ → _ → _ → _))

/-- Ways to choose one row per relation that satisfy every predicate. -/
def joined
    (inst : PredicateInstance κ relations)
    (equalityPredicates : List (Nat × Nat)) :
    Finset (Choice inst.bag) :=
  Finset.univ.filter
    (fun f => ∀ p ∈ equalityPredicates.zipIdx, inst.Holds f p)

/-- True bag-semantics join size. -/
def joinSize
    (inst : PredicateInstance κ relations)
    (equalityPredicates : List (Nat × Nat)) : Nat :=
  (inst.joined equalityPredicates).card

/-- Column that relation `i` compares in predicate `k`. -/
def keyColumn
    (inst : PredicateInstance κ relations)
    (k : Nat)
    (i : Fin relations.length) : List (Option κ) :=
  (inst.bag i).map (fun row => row (inst.column k i))

/--
Every supplied distinct count is at most the true one, on every key column that
its relation joins on.
-/
def DistinctFloor
    (inst : PredicateInstance κ relations)
    (equalityPredicates : List (Nat × Nat))
    (distinctCounts : List UInt64) : Prop :=
  ∀ i : Fin relations.length, ∀ d,
    distinctCounts[i.val]? = some d →
    ∀ k, ∀ p : Nat × Nat,
      equalityPredicates[k]? = some p →
      p.1 < relations.length → p.2 < relations.length →
      p.1 ≠ p.2 →
      (i.val = p.1 ∨ i.val = p.2) →
      d.toNat ≤ distinct (inst.keyColumn k i)

/-- No instance exceeds the Cartesian product. -/
theorem joinSize_le_product
    (inst : PredicateInstance κ relations)
    (equalityPredicates : List (Nat × Nat)) :
    inst.joinSize equalityPredicates ≤
      (relations.map UInt64.toNat).prod := by
  calc
    inst.joinSize equalityPredicates
        ≤ Fintype.card (Choice inst.bag) :=
      Finset.card_le_univ _
    _ = ∏ i, (relations.get i).toNat := by
      rw [Fintype.card_pi]
      apply Finset.prod_congr rfl
      intro i _
      rw [Fintype.card_fin, inst.length_eq]
    _ = (relations.map UInt64.toNat).prod :=
      Fin.prod_univ_fun_getElem relations UInt64.toNat

/-- Joined rows carry one common key on both sides of a retained edge. -/
theorem exists_key_of_edge
    {inst : PredicateInstance κ relations}
    {equalityPredicates : List (Nat × Nat)}
    {f : Choice inst.bag}
    (hf : f ∈ inst.joined equalityPredicates)
    {e : JoinEdge}
    {k : Nat}
    (hk : equalityPredicates[k]? = some (e.left, e.right))
    (hrange : e.InRange relations.length)
    {source target : Fin relations.length}
    (ho : (source.val, target.val) ∈ e.orientations) :
    ∃ v,
      (inst.bag source).get (f source) (inst.column k source) =
        some v ∧
      (inst.bag target).get (f target) (inst.column k target) =
        some v := by
  obtain ⟨hleft, hright, hne⟩ := hrange
  have hholds :=
    (Finset.mem_filter.mp hf).2 ((e.left, e.right), k)
      (List.mem_zipIdx_iff_getElem?.mpr hk)
      hleft hright hne
  obtain ⟨v, hl, hr⟩ := (sqlEq_iff _ _).mp hholds
  have hkey :
      ∀ i : Fin relations.length,
        inst.key f k i.val =
          (inst.bag i).get (f i) (inst.column k i) := by
    intro i
    simp [key]
  rcases JoinEdge.mem_orientations_iff.mp ho with
    ⟨hs, ht⟩ | ⟨hs, ht⟩
  · rw [← hs, hkey] at hl
    rw [← ht, hkey] at hr
    exact ⟨v, hl, hr⟩
  · rw [← ht, hkey] at hl
    rw [← hs, hkey] at hr
    exact ⟨v, hr, hl⟩

omit [DecidableEq κ] in
/-- A key column never has more rows than its relation. -/
theorem length_keyColumn
    (inst : PredicateInstance κ relations)
    (k : Nat)
    (i : Fin relations.length) :
    (inst.keyColumn k i).length = (relations.getD i 0).toNat := by
  rw [keyColumn, List.length_map, inst.length_eq]
  simp

/-- The degree of an honest distinct count covers the key column. -/
theorem maxShare_le_endpointDegree
    (inst : PredicateInstance κ relations)
    (distinctCounts : Option (List UInt64))
    (k : Nat)
    (i : Fin relations.length)
    (hfloor :
      ∀ counts, distinctCounts = some counts →
        ∀ d, counts[i.val]? = some d →
          d.toNat ≤ distinct (inst.keyColumn k i)) :
    maxShare (inst.keyColumn k i) ≤
      (endpointDegree relations distinctCounts
        i).maxDegree.toNat := by
  have hrows :
      maxShare (inst.keyColumn k i) ≤
        (relations.getD i 0).toNat := by
    rw [← inst.length_keyColumn k i]
    exact maxShare_le_length _
  unfold endpointDegree
  cases hcounts : distinctCounts with
  | none =>
      exact hrows
  | some counts =>
      simp only [Option.bind_some]
      cases hd : counts[i.val]? with
      | none =>
          exact hrows
      | some d =>
          apply AttributeDegree.le_fromDistinct hrows
          apply maxShare_le_of_distinct_floor
          · rw [← inst.length_keyColumn k i]
            exact length_nonNulls_le _
          · exact hfloor counts hcounts d hd

/-- The translated graph bounds the join size. -/
theorem joinSize_le_degreeGraph
    (inst : PredicateInstance κ relations)
    (equalityPredicates : List (Nat × Nat))
    (distinctCounts : Option (List UInt64))
    (hne : relations ≠ [])
    (hfloor :
      ∀ counts, distinctCounts = some counts →
        inst.DistinctFloor equalityPredicates counts) :
    min (inst.joinSize equalityPredicates) u64Max ≤
      (degreeGraph relations equalityPredicates
        distinctCounts).ceiling.toNat := by
  have hregistered :=
    degreeGraph_registered relations distinctCounts
      equalityPredicates
  have hrun :=
    (degreeGraph relations equalityPredicates
      distinctCounts).ceiling_run (by
        intro hnil
        apply hne
        apply List.length_eq_zero_iff.mp
        rw [← hregistered.length_eq, hnil]
        rfl)
  refine
    JoinGraph.card_le_of_run κ _ hregistered.length_eq inst.bag
      (inst.joined equalityPredicates) ?_ ?_ hrun
  · intro i
    rw [inst.length_eq, JoinGraph.rowsAt, JoinGraph.relation,
      hregistered.rows_eq i i.isLt]
    simp
  · intro e he source target ho
    obtain ⟨k, hk, hrange⟩ :=
      degreeGraph_edge relations distinctCounts
        equalityPredicates he
    refine
      ⟨fun row => row (inst.column k source),
        fun row => row (inst.column k target), ?_, ?_⟩
    · intro f hf
      exact exists_key_of_edge hf hk hrange ho
    · have htarget :
          target.val = e.left ∨ target.val = e.right := by
        rcases JoinEdge.mem_orientations_iff.mp ho with
          ⟨_, ht⟩ | ⟨_, ht⟩
        · exact Or.inr ht
        · exact Or.inl ht
      have hendpoint :=
        inst.maxShare_le_endpointDegree distinctCounts k target
          (fun counts hcounts d hd =>
            hfloor counts hcounts target d hd k
              (e.left, e.right) hk hrange.1 hrange.2.1
              hrange.2.2 htarget)
      unfold JoinGraph.factorAt JoinGraph.relation
      rcases hregistered.degree_eq target target.isLt
          e.attributeId with hdegree | hdegree
      · rw [hdegree]
        exact hendpoint
      · rw [hdegree]
        have hlength := inst.length_keyColumn k target
        have hle := maxShare_le_length (inst.keyColumn k target)
        rw [hlength] at hle
        exact hle

/-- Every pair surface first answers with the product when it knows nothing. -/
theorem joinSize_le_surface
    (inst : PredicateInstance κ relations)
    (equalityPredicates : List (Nat × Nat))
    (distinctCounts : Option (List UInt64))
    (hne : relations ≠ [])
    (hfloor :
      ∀ counts, distinctCounts = some counts →
        inst.DistinctFloor equalityPredicates counts) :
    min (inst.joinSize equalityPredicates) u64Max ≤
      (if relations.isEmpty then
        (0 : UInt64)
      else if equalityPredicates.isEmpty then
        ProductBound.ceiling relations []
      else
        (degreeGraph relations equalityPredicates
          distinctCounts).ceiling).toNat := by
  rw [if_neg (by simpa using hne)]
  split_ifs
  · rw [ProductBound.toNat_ceiling]
    exact
      min_le_min_right u64Max
        (inst.joinSize_le_product equalityPredicates)
  · exact
      inst.joinSize_le_degreeGraph equalityPredicates
        distinctCounts hne hfloor

end PredicateInstance

/--
**The predicate-pair surfaces are sound.**  `ChainBound` and
`LpJoinBound::ceiling_with_distinct` under honest distinct counts of any
length, `LpJoinBound::ceiling` under none.
-/
theorem pair_surfaces_sound
    {κ : Type u} [DecidableEq κ]
    (relations : List UInt64)
    (hne : relations ≠ [])
    (equalityPredicates : List (Nat × Nat))
    (inst : PredicateInstance κ relations) :
    (∀ b : LpJoinBound,
      min (inst.joinSize equalityPredicates) u64Max ≤
        (b.ceiling relations equalityPredicates).toNat) ∧
    (∀ distinctCounts : List UInt64,
      inst.DistinctFloor equalityPredicates distinctCounts →
        min (inst.joinSize equalityPredicates) u64Max ≤
          ((ChainBound.mk distinctCounts).ceiling relations
            equalityPredicates).toNat ∧
        min (inst.joinSize equalityPredicates) u64Max ≤
          ((LpJoinBound.mk distinctCounts).ceilingWithDistinct
            relations equalityPredicates).toNat) := by
  constructor
  · intro b
    apply
      inst.joinSize_le_surface equalityPredicates none hne
    intro counts hcounts
    cases hcounts
  · intro distinctCounts hfloor
    have h :=
      inst.joinSize_le_surface equalityPredicates
        (some distinctCounts) hne (by
          intro counts hcounts
          rw [← Option.some.inj hcounts]
          exact hfloor)
    exact ⟨h, h⟩

section KeyedPair

/-- Two rows keyed 1 and 2 against three rows keyed 1, 1 and 2. -/
def keyedPair : PredicateInstance Nat [2, 3] where
  bag i :=
    if i.val = 0 then
      [fun _ => some 1, fun _ => some 2]
    else
      [fun _ => some 1, fun _ => some 1, fun _ => some 2]
  column _ _ := 0
  length_eq := by
    decide

/-- Both relations have two distinct keys. -/
theorem keyedPair_distinctFloor :
    keyedPair.DistinctFloor [(0, 1)] [2, 2] := by
  intro i d hd k p _ _ _ _ _
  have hdistinct :
      ∀ i : Fin 2, distinct (keyedPair.keyColumn 0 i) = 2 := by
    intro i
    fin_cases i <;> decide
  have htwo : d = 2 := by
    have hmem := List.mem_of_getElem? hd
    simpa using hmem
  rw [htwo]
  exact (hdistinct i).ge

theorem pair_surfaces_sound_keyedPair :
    (∀ b : LpJoinBound,
      min (keyedPair.joinSize [(0, 1)]) u64Max ≤
        (b.ceiling [2, 3] [(0, 1)]).toNat) ∧
    min (keyedPair.joinSize [(0, 1)]) u64Max ≤
      ((ChainBound.mk [2, 2]).ceiling [2, 3] [(0, 1)]).toNat ∧
    min (keyedPair.joinSize [(0, 1)]) u64Max ≤
      ((LpJoinBound.mk [2, 2]).ceilingWithDistinct
        [2, 3] [(0, 1)]).toNat :=
  have h :=
    pair_surfaces_sound [2, 3] (by decide) [(0, 1)] keyedPair
  ⟨h.1, h.2 [2, 2] keyedPair_distinctFloor⟩

end KeyedPair

end Samkhya
