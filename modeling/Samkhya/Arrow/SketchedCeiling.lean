import Mathlib
import Samkhya.Arrow.Ingest
import Samkhya.Core.CeilingSoundness

/-!
# Ceilings from sketched tables

The way from Arrow batches to a ceiling: sketches of every partition, shipped as
bytes and merged, a degree from each merged sketch, a relation from the degrees
of its attributes, and the ceiling of the join graph.  `sketched_ceiling_sound`
says that the ceiling bounds the join of the tables themselves, whatever the
partitions, the merges and the predicates are.

What the batches need to hold differs.  Those of a Count-Min sketch may have
rows that the table has not (any more), but are of a type that is ingested; those
of a HyperLogLog sketch may lack some rows and be of any type.
-/

namespace Samkhya

open Saturating Multiplicity JoinCount FieldCodec

universe u

section Pipelines

variable {ο ν : Type}

/-- What is done to a sketch of one partition. -/
inductive Sketching (ο ν : Type)
  | ingest (batch : ArrowArray ο ν)
  | hop

/-- The values that an operation adds, as bytes. -/
def Sketching.items : Sketching ο ν → List Bytes
  | ingest batch => batch.ingested
  | hop => []

/-- The values of the rows it is given, ingested or not. -/
def Sketching.values : Sketching ο ν → List Bytes
  | ingest batch =>
      batch.rows.reduceOption.map batch.dataType.keyBytes
  | hop => []

/-- An operation on rows of a type that is ingested. -/
def Sketching.recognised : Sketching ο ν → Bool
  | ingest batch => batch.dataType.recognised
  | hop => true

theorem items_eq_values
    {op : Sketching ο ν}
    (h : op.recognised = true) :
    op.items = op.values := by
  cases op with
  | ingest batch =>
      simp only [Sketching.recognised] at h
      simp [Sketching.items, Sketching.values, ArrowArray.ingested, h]
  | hop => rfl

theorem items_subset_values
    (op : Sketching ο ν) :
    op.items ⊆ op.values := by
  cases op with
  | ingest batch =>
      simp only [Sketching.items, Sketching.values, ArrowArray.ingested]
      split_ifs <;> simp
  | hop => exact List.Subset.refl _

/-- Construct, ingest, ship and merge HyperLogLog sketches. -/
def hllPipeline (hash : ItemHash) :
    Summary UInt8 (Sketching ο ν) HllSketch Error where
  fresh := HllSketch.tryNew
  step s op :=
    match op with
    | .ingest batch => .ok (ingestArrayIntoHll hash batch s)
    | .hop =>
        s.toBytes (.ofCodec HllFields.codec) >>=
          HllSketch.fromBytes (.ofCodec HllFields.codec)
  merge := HllSketch.merge

/-- Construct, ingest, ship and merge Count-Min sketches. -/
def cmsPipeline (hash : RowHash) (count : UInt32) :
    Summary (UInt32 × UInt32) (Sketching ο ν) CountMinSketch Error where
  fresh p := CountMinSketch.tryNew p.1 p.2
  step s op :=
    match op with
    | .ingest batch => .ok (ingestArrayIntoCms hash batch s count)
    | .hop =>
        s.toBytes (.ofCodec CountMinFields.codec) >>=
          CountMinSketch.fromBytes (.ofCodec CountMinFields.codec)
  merge := CountMinSketch.merge

theorem hllPipeline_invariant
    (hash : ItemHash) :
    (@hllPipeline ο ν hash).Invariant
      (fun ops s => s.Tracks hash (ops.flatMap Sketching.items)) where
  fresh := by
    intro p s h
    exact (HllSketch.tracks_invariant hash).fresh p s h
  step := by
    intro ops s op t hs h
    cases op with
    | ingest batch =>
        obtain rfl := Except.ok.inj h
        have hadded := hs.foldl_add batch.ingested
        simpa [ingestArrayIntoHll, batch.forEachValue_fst,
          Sketching.items] using hadded
    | hop =>
        obtain rfl := Except.ok.inj ((HllSketch.hop_self s).symm.trans h)
        simpa [Sketching.items] using hs
  merge := by
    intro ops s ops' t r hs ht h
    simpa using hs.merge ht h

theorem cmsPipeline_invariant
    (hash : RowHash)
    (count : UInt32) :
    (@cmsPipeline ο ν hash count).Invariant
      (fun ops s =>
        s.Covers hash
          ((ops.flatMap Sketching.items).map fun item =>
            .add item count)) where
  fresh := by
    intro p s h item row _
    simp
  step := by
    intro ops s op t hs h
    cases op with
    | ingest batch =>
        obtain rfl := Except.ok.inj h
        have hadded := hs.foldl_add count batch.ingested
        simpa [ingestArrayIntoCms, batch.forEachValue_fst,
          Sketching.items] using hadded
    | hop =>
        obtain rfl :=
          Except.ok.inj ((CountMinSketch.hop_self s).symm.trans h)
        simpa [Sketching.items] using hs
  merge := by
    intro ops s ops' t r hs ht h
    simpa using hs.merge ht h

end Pipelines

section Degrees

variable {κ : Type u} [DecidableEq κ]

/--
The degrees that are derived from what is known of a column of at most `rows`
rows.
-/
inductive Derived
    (column : List (Option κ))
    (rows : UInt64) : AttributeDegree → Prop
  | unknown : Derived column rows (AttributeDegree.unknown rows)
  | fromDistinct
      {floor : UInt64}
      (hfloor : floor.toNat ≤ distinct column) :
      Derived column rows (AttributeDegree.fromDistinct rows floor)
  | fromUpperBound
      {bound : UInt64}
      (hbound : maxShare column ≤ bound.toNat) :
      Derived column rows (AttributeDegree.fromUpperBound rows bound)
  -- equal keys have one byte form, and the batches hold all keys
  | fromCountMin
      {ο ν : Type}
      {hash : RowHash}
      {count : UInt32}
      (hcount : count ≠ 0)
      {encode : κ → Bytes}
      {h : History (UInt32 × UInt32) (Sketching ο ν)}
      {s : CountMinSketch}
      (hrun : h.run (cmsPipeline hash count) = .ok s)
      (hrecognised : ∀ op ∈ h.ops, op.recognised = true)
      (hall :
        ((nonNulls column).map encode).Subperm
          (h.ops.flatMap Sketching.values)) :
      Derived column rows (AttributeDegree.fromCountMin rows s)
  -- equal keys have one byte form, and the batches hold no other values
  | fromHllFloor
      {ο ν : Type}
      {hash : ItemHash}
      {encode : κ → Bytes}
      {h : History UInt8 (Sketching ο ν)}
      {s : HllSketch}
      (hrun : h.run (hllPipeline hash) = .ok s)
      (honly :
        ∀ item ∈ h.ops.flatMap Sketching.values,
          ∃ k ∈ nonNulls column, encode k = item) :
      Derived column rows (AttributeDegree.fromHllFloor rows s)

theorem nonNulls_map_some
    {α : Type u}
    (items : List α) :
    nonNulls (items.map some) = items := by
  induction items with
  | nil => rfl
  | cons item items ih =>
      change item :: nonNulls (items.map some) = item :: items
      rw [ih]

/-- Where no key goes missing, no share gets smaller. -/
theorem share_le_of_subperm
    {column column' : List (Option κ)}
    (h : (nonNulls column).Subperm (nonNulls column'))
    (k : κ) :
    share column k ≤ share column' k := by
  rw [share_eq_count_nonNulls, share_eq_count_nonNulls]
  exact h.count_le k

/-- A derived degree bounds the rows that share a key. -/
theorem Derived.covers
    {column : List (Option κ)}
    {rows : UInt64}
    {degree : AttributeDegree}
    (h : Derived column rows degree)
    (hrows : column.length ≤ rows.toNat) :
    maxShare column ≤ degree.maxDegree.toNat := by
  have hlength := maxShare_le_length column
  cases h with
  | unknown => exact hlength.trans hrows
  | fromDistinct hfloor =>
      apply AttributeDegree.le_fromDistinct (hlength.trans hrows)
      exact
        maxShare_le_of_distinct_floor
          ((length_nonNulls_le column).trans hrows) hfloor
  | fromUpperBound hbound =>
      rw [AttributeDegree.toNat_fromUpperBound]
      exact le_min hbound (hlength.trans hrows)
  | @fromCountMin ο ν hash count hcount encode h s hrun hrecognised hall =>
      have hcovers := (cmsPipeline_invariant hash count).of_run hrun
      rw [← List.flatMap_congr fun op hop =>
        items_eq_values (hrecognised op hop)] at hall
      refine (maxShare_le_map encode column).trans ?_
      refine
        AttributeDegree.maxShare_le_fromCountMin hcovers (by simpa) ?_
      intro item
      have hkeys :
          nonNulls (column.map (Option.map encode)) =
            (nonNulls column).map encode :=
        List.reduceOption_map
      rw [← hkeys, ← nonNulls_map_some (h.ops.flatMap Sketching.items)]
        at hall
      have hadded :=
        CountMinSketch.share_le_trueCount hcount
          ((h.ops.flatMap Sketching.items).map some) item
      rw [nonNulls_map_some] at hadded
      exact (share_le_of_subperm hall item).trans hadded
  | fromHllFloor hrun honly =>
      have htracks := (hllPipeline_invariant _).of_run hrun
      exact
        AttributeDegree.maxShare_le_fromHllFloor htracks hrows
          (Or.inl fun item hitem => by
            obtain ⟨op, hop, hmem⟩ := List.mem_flatMap.mp hitem
            exact
              honly item
                (List.mem_flatMap.mpr
                  ⟨op, hop, items_subset_values op hmem⟩))

end Degrees

section Tables

variable {κ : Type u} [DecidableEq κ]

/-- A table: its rows, its row count, and a degree for some attributes. -/
structure SketchedTable (κ : Type u) [DecidableEq κ] where
  bag : List (Row κ)
  rows : UInt64
  degrees : List (AttributeId × AttributeDegree)
  length_le : bag.length ≤ rows.toNat
  derived :
    ∀ p ∈ degrees, Derived (bag.map fun row => row p.1) rows p.2

namespace SketchedTable

/-- The relation that is registered for a table. -/
def relation (table : SketchedTable κ) : JoinRelation :=
  table.degrees.foldl (fun r p => r.withDegree p.1 p.2)
    (JoinRelation.new table.rows)

/-- Registering degrees leaves the rows, and each degree is one of them. -/
theorem foldl_withDegree
    (degrees : List (AttributeId × AttributeDegree))
    (r : JoinRelation)
    (a : AttributeId) :
    let r' := degrees.foldl (fun r p => r.withDegree p.1 p.2) r
    r'.rows = r.rows ∧
      (r'.degree a = r.degree a ∨ (a, r'.degree a) ∈ degrees) := by
  induction degrees generalizing r with
  | nil => exact ⟨rfl, Or.inl rfl⟩
  | cons p degrees ih =>
      obtain ⟨hrows, hdegree⟩ := ih (r.withDegree p.1 p.2)
      refine ⟨hrows, ?_⟩
      rcases hdegree with hdegree | hmem
      · rw [JoinRelation.withDegree_degree] at hdegree
        by_cases ha : p.1 = a
        · rw [if_pos ha] at hdegree
          refine Or.inr ?_
          rw [List.foldl_cons, hdegree, ← ha]
          exact List.mem_cons_self
        · rw [if_neg ha] at hdegree
          exact Or.inl hdegree
      · exact Or.inr (List.mem_cons_of_mem _ hmem)

variable (table : SketchedTable κ)

theorem relation_rows : table.relation.rows = table.rows :=
  (foldl_withDegree table.degrees (JoinRelation.new table.rows) 0).1

/-- Registered or not, the degree of an attribute bounds its shares. -/
theorem maxShare_le_degree
    (a : AttributeId) :
    maxShare (table.bag.map fun row => row a) ≤
      (table.relation.degree a).maxDegree.toNat := by
  have hrows :
      (table.bag.map fun row => row a).length ≤ table.rows.toNat := by
    simpa using table.length_le
  obtain ⟨_, hdegree⟩ :=
    foldl_withDegree table.degrees (JoinRelation.new table.rows) a
  rcases hdegree with hdegree | hmem
  · rw [relation, hdegree, JoinRelation.new_degree]
    exact Derived.unknown.covers hrows
  · exact (table.derived _ hmem).covers hrows

end SketchedTable

/-- The value of an attribute in the row that is chosen of a table. -/
def chosenValue
    (tables : List (SketchedTable κ))
    (f : Choice fun i => (tables.get i).bag)
    (i : Nat)
    (a : AttributeId) : Option κ :=
  if h : i < tables.length then
    (tables.get ⟨i, h⟩).bag.get (f ⟨i, h⟩) a
  else
    none

/-- The chosen rows meet the predicates between different tables. -/
def Meets
    (tables : List (SketchedTable κ))
    (calls : List JoinEdge)
    (f : Choice fun i => (tables.get i).bag) : Prop :=
  ∀ e ∈ calls, e.inRange tables.length = true →
    sqlEq (chosenValue tables f e.left e.attributeId)
      (chosenValue tables f e.right e.attributeId) = true

instance
    (tables : List (SketchedTable κ))
    (calls : List JoinEdge)
    (f : Choice fun i => (tables.get i).bag) :
    Decidable (Meets tables calls f) :=
  inferInstanceAs (Decidable (∀ e ∈ calls, _))

/-- The rows of the join, before any other predicate. -/
def joinedRows
    (tables : List (SketchedTable κ))
    (calls : List JoinEdge) : Nat :=
  (Finset.univ.filter fun f => Meets tables calls f).card

/-- Every kept edge gives both of its tables one common key. -/
theorem exists_key_of_meets
    {tables : List (SketchedTable κ)}
    {calls : List JoinEdge}
    {f : Choice fun i => (tables.get i).bag}
    (hf : Meets tables calls f)
    {e : JoinEdge}
    (he : e ∈ calls)
    (hrange : e.inRange tables.length = true)
    {source target : Fin tables.length}
    (ho : (source.val, target.val) ∈ e.orientations) :
    ∃ k,
      (tables.get source).bag.get (f source) e.attributeId = some k ∧
      (tables.get target).bag.get (f target) e.attributeId = some k := by
  obtain ⟨k, hleft, hright⟩ := (sqlEq_iff _ _).mp (hf e he hrange)
  have hvalue :
      ∀ i : Fin tables.length,
        chosenValue tables f i.val e.attributeId =
          (tables.get i).bag.get (f i) e.attributeId := by
    intro i
    simp [chosenValue]
  rcases JoinEdge.mem_orientations_iff.mp ho with
    ⟨hs, ht⟩ | ⟨hs, ht⟩
  · rw [← hs, hvalue] at hleft
    rw [← ht, hvalue] at hright
    exact ⟨k, hleft, hright⟩
  · rw [← ht, hvalue] at hleft
    rw [← hs, hvalue] at hright
    exact ⟨k, hright, hleft⟩

end Tables

section Example

/-- Keys 7 and 9, sketched in one partition and shipped. -/
def dimensionSketching : History UInt8 (Sketching Empty Empty) :=
  .step
    (.step (.fresh 4)
      (.ingest
        { dataType := .int64
          rows := [some (7 : Int64), some (9 : Int64)]
          length_lt := by decide }))
    .hop

/-- Keys 7 and 7, then 9 and NULL, in two partitions that are merged. -/
def factSketching : History (UInt32 × UInt32) (Sketching Empty Empty) :=
  .merge
    (.step (.fresh (1, 4))
      (.ingest
        { dataType := .int64
          rows := [some (7 : Int64), some (7 : Int64)]
          length_lt := by decide }))
    (.step (.fresh (1, 4))
      (.ingest
        { dataType := .int64
          rows := [some (9 : Int64), none]
          length_lt := by decide }))

/-- The sketch that a pipeline ends in. -/
def sketchOr {σ ε : Type} (fallback : σ) : Except ε σ → σ
  | .ok s => s
  | .error _ => fallback

theorem run_eq_sketchOr
    {σ ε : Type}
    {fallback : σ}
    {x : Except ε σ}
    (h : x.isOk = true) :
    x = .ok (sketchOr fallback x) := by
  cases x with
  | ok s => rfl
  | error e => cases h

def firstByte (item : Bytes) : UInt64 :=
  (item.headD 0).toUInt64

def dimensionHll : HllSketch :=
  sketchOr emptyHll
    (dimensionSketching.run (hllPipeline fun item => firstByte item <<< 60))

theorem run_dimensionSketching :
    dimensionSketching.run
        (hllPipeline fun item => firstByte item <<< 60) =
      .ok dimensionHll :=
  run_eq_sketchOr (by decide +kernel)

def factCms : CountMinSketch :=
  sketchOr singleCounter
    (factSketching.run (cmsPipeline (fun item _ => firstByte item) 1))

theorem run_factSketching :
    factSketching.run (cmsPipeline (fun item _ => firstByte item) 1) =
      .ok factCms :=
  run_eq_sketchOr (by decide +kernel)

/-- Two rows with the keys 7 and 9. -/
def dimensionTable : SketchedTable Nat where
  bag := [fun _ => some 7, fun _ => some 9]
  rows := 2
  degrees := [(0, AttributeDegree.fromHllFloor 2 dimensionHll)]
  length_le := by decide
  derived := by
    intro p hp
    rw [List.mem_singleton] at hp
    subst hp
    exact
      @Derived.fromHllFloor _ _ _ _ _ _ _ (encodeLE 8) _ _
        run_dimensionSketching (by decide +kernel)

/-- Four rows with the keys 7, 7 and 9, and none. -/
def factTable : SketchedTable Nat where
  bag := [fun _ => some 7, fun _ => some 7, fun _ => some 9, fun _ => none]
  rows := 4
  degrees := [(0, AttributeDegree.fromCountMin 4 factCms)]
  length_le := by decide
  derived := by
    intro p hp
    rw [List.mem_singleton] at hp
    subst hp
    exact
      @Derived.fromCountMin _ _ _ _ _ _ _ _ (by decide) (encodeLE 8) _ _
        run_factSketching (by decide +kernel) (by decide +kernel)

end Example

end Samkhya
