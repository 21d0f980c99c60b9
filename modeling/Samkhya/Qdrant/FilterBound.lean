import Mathlib
import Samkhya.Core.CountMin

/-!
# Match-count ceilings for filtered vector search

`bound_matches` composes Count-Min estimates through a filter: the minimum
over `must`, an early-exit saturating sum over `should` and over the values of
an `Any`, nothing for `must_not`.  Missing and saturated sketches, and
conditions that cannot be bounded, fall back to the collection size.

The truth is counted over points with multi-valued or absent fields; an
`Unbounded` condition may mean anything, at every place where it occurs.
-/

namespace Samkhya

open Saturating Multiplicity FieldCodec CountMinSketch

/-- A single condition over one payload field. -/
inductive Condition
  | matchValue (field value : String)
  | any (field : String) (values : List String)
  | unbounded
deriving DecidableEq

/-- A Boolean combination of conditions. -/
structure Filter where
  must : List Condition
  should : List Condition
  mustNot : List Condition
deriving DecidableEq

/-- Whether the filter constrains nothing at all. -/
def Filter.isEmpty (filter : Filter) : Bool :=
  filter.must.isEmpty && filter.should.isEmpty &&
    filter.mustNot.isEmpty

/-- Frequency sketches of the indexed fields of one collection. -/
structure PayloadStats where
  totalPoints : UInt64
  fields : Std.TreeMap String CountMinSketch

namespace PayloadStats

def new (totalPoints : UInt64) : PayloadStats where
  totalPoints := totalPoints
  fields := ∅

/-- Attach a sketch of one field's values. -/
def withField
    (stats : PayloadStats)
    (field : String)
    (sketch : CountMinSketch) : PayloadStats :=
  { stats with fields := stats.fields.insert field sketch }

variable (hash : RowHash) (stats : PayloadStats)

def boundValue (field value : String) : UInt64 :=
  match stats.fields[field]? with
  | none => stats.totalPoints
  | some sketch =>
      if sketch.isSaturated then
        stats.totalPoints
      else
        min (sketch.estimate hash (asBytes value)).toUInt64
          stats.totalPoints

/-- Saturating sum that stops at the collection size. -/
def sumUpTo (total : UInt64) : List UInt64 → UInt64 → UInt64
  | [], sum => sum
  | b :: bounds, sum =>
      let sum := saturatingAddU64 sum b
      if sum ≥ total then
        total
      else
        sumUpTo total bounds sum

/-- Bound on the points that one condition matches. -/
def boundCondition : Condition → UInt64
  | .unbounded => stats.totalPoints
  | .matchValue field value => stats.boundValue hash field value
  | .any field values =>
      min
        (sumUpTo stats.totalPoints
          (values.map (stats.boundValue hash field)) 0)
        stats.totalPoints

/-- Bound on the points that the whole filter matches. -/
def boundMatches (filter : Filter) : UInt64 :=
  if filter.isEmpty then
    stats.totalPoints
  else
    let bound :=
      filter.must.foldl
        (fun bound condition =>
          min bound (stats.boundCondition hash condition))
        stats.totalPoints
    if ¬ filter.should.isEmpty then
      min bound
        (sumUpTo stats.totalPoints
          (filter.should.map (stats.boundCondition hash)) 0)
    else
      bound

end PayloadStats

/-- How a filtered search should be executed. -/
inductive SearchStrategy
  | preFilter
  | postFilter
deriving DecidableEq

/-- Thresholds of the recommendation. -/
structure StrategyParams where
  prefilterMaxPoints : UInt64
  prefilterMaxFraction : Float

/-- Recommend a strategy from the bound. -/
def PayloadStats.chooseStrategy
    (hash : RowHash)
    (stats : PayloadStats)
    (filter : Filter)
    (params : StrategyParams) : SearchStrategy :=
  let bound := stats.boundMatches hash filter
  if bound ≤ params.prefilterMaxPoints then
    .preFilter
  else
    let fraction :=
      if stats.totalPoints = 0 then
        1.0
      else
        bound.toFloat / stats.totalPoints.toFloat
    if fraction ≤ params.prefilterMaxFraction then
      .preFilter
    else
      .postFilter

/-- A point's payload: the values of every field, none where it is absent. -/
structure Point where
  values : String → List String

/-- The clause of a filter that a condition stands in. -/
inductive Clause
  | must
  | should
  | mustNot

/-- What the unbounded conditions of a filter mean, place by place. -/
abbrev Meaning := Clause → Nat → Point → Bool

/-- Whether a point satisfies the condition at one place. -/
def Condition.holds
    (meaning : Meaning)
    (clause : Clause)
    (place : Condition × Nat)
    (point : Point) : Bool :=
  match place with
  | (.matchValue field value, _) =>
      decide (value ∈ point.values field)
  | (.any field values, _) =>
      values.any (fun value => decide (value ∈ point.values field))
  | (.unbounded, i) => meaning clause i point

/-- Whether a point matches the filter. -/
def Filter.isMatch
    (filter : Filter)
    (meaning : Meaning)
    (point : Point) : Bool :=
  filter.must.zipIdx.all
      (fun place => Condition.holds meaning .must place point) &&
    (filter.should.isEmpty ||
      filter.should.zipIdx.any
        (fun place => Condition.holds meaning .should place point)) &&
    filter.mustNot.zipIdx.all
      (fun place => !Condition.holds meaning .mustNot place point)

/-- True number of matching points. -/
def Filter.trueMatches
    (filter : Filter)
    (meaning : Meaning)
    (points : List Point) : Nat :=
  points.countP (filter.isMatch meaning)

/--
The statistics describe the collection: it has at most `totalPoints` points,
and every attached sketch comes from a history that recorded, for each point,
each value of the field.
-/
structure Describes
    (hash : RowHash)
    (bincode : Bincode CountMinFields)
    (stats : PayloadStats)
    (points : List Point) : Prop where
  length_le : points.length ≤ stats.totalPoints.toNat
  recorded :
    ∀ (field : String) (sketch : CountMinSketch),
      stats.fields[field]? = some sketch →
        ∃ h : History (UInt32 × UInt32) Op,
          h.run (summary hash bincode) = .ok sketch ∧
          ∀ value,
            points.countP
                (fun p => decide (value ∈ p.values field)) ≤
              h.ops.countP (Op.records (asBytes value))

section Bounds

/-- The early exit of the sum loses nothing below the collection size. -/
theorem PayloadStats.le_sumUpTo
    {total : UInt64}
    {bounds : List UInt64}
    {sum : UInt64}
    {n : Nat}
    (htotal : n ≤ total.toNat)
    (hsum : n ≤ sum.toNat + (bounds.map UInt64.toNat).sum) :
    n ≤ (sumUpTo total bounds sum).toNat := by
  induction bounds generalizing sum with
  | nil =>
      simpa [sumUpTo] using hsum
  | cons b bounds ih =>
      unfold sumUpTo
      simp only
      split_ifs with h
      · exact htotal
      · apply ih
        -- below the collection size the sum has not saturated
        have hlt : (saturatingAddU64 sum b).toNat < total.toNat :=
          UInt64.lt_iff_toNat_lt.mp (UInt64.not_le.mp h)
        have hbound := toNat_le_u64Max total
        rw [toNat_saturatingAddU64] at hlt ⊢
        rw [List.map_cons, List.sum_cons] at hsum
        unfold satAdd at hlt ⊢
        omega

variable
  {hash : RowHash}
  {bincode : Bincode CountMinFields}
  {stats : PayloadStats}
  {points : List Point}

/-- Points that carry a value are within its bound. -/
theorem Describes.le_boundValue
    (hround : bincode.RoundTrips)
    (h : Describes hash bincode stats points)
    (field value : String) :
    points.countP (fun p => decide (value ∈ p.values field)) ≤
      (stats.boundValue hash field value).toNat := by
  have htotal :
      points.countP (fun p => decide (value ∈ p.values field)) ≤
        stats.totalPoints.toNat :=
    List.countP_le_length.trans h.length_le
  unfold PayloadStats.boundValue
  cases hsketch : stats.fields[field]? with
  | none =>
      exact htotal
  | some sketch =>
      simp only
      split_ifs with hsat
      · exact htotal
      · obtain ⟨history, hrun, hrecorded⟩ :=
          h.recorded field sketch hsketch
        have hcovers := (covers_invariant hash hround).of_run hrun
        have hbound :
            sketch.maxFrequencyBound =
              some (sketch.counters.max?.getD 0) :=
          if_neg hsat
        have hestimate :=
          (hcovers.le_maxFrequencyBound hbound (asBytes value)).1
        rw [toNat_minU64, UInt32.toNat_toUInt64]
        refine Nat.le_min.mpr ⟨?_, htotal⟩
        exact
          (hrecorded value).trans
            ((countP_records_le_trueCount _ _).trans hestimate)

/-- Points that satisfy a condition are within its bound. -/
theorem Describes.le_boundCondition
    (hround : bincode.RoundTrips)
    (h : Describes hash bincode stats points)
    (meaning : Meaning)
    (clause : Clause)
    (place : Condition × Nat) :
    points.countP (Condition.holds meaning clause place) ≤
      (stats.boundCondition hash place.1).toNat := by
  have htotal :
      points.countP (Condition.holds meaning clause place) ≤
        stats.totalPoints.toNat :=
    List.countP_le_length.trans h.length_le
  obtain ⟨condition, i⟩ := place
  cases condition with
  | unbounded =>
      exact htotal
  | matchValue field value =>
      exact h.le_boundValue hround field value
  | any field values =>
      unfold PayloadStats.boundCondition
      rw [toNat_minU64]
      refine Nat.le_min.mpr ⟨?_, htotal⟩
      apply PayloadStats.le_sumUpTo htotal
      have hunion :=
        countP_any_le_sum
          (fun (value : String) (p : Point) =>
            decide (value ∈ p.values field))
          values points
      refine hunion.trans ?_
      rw [List.map_map, UInt64.toNat_zero, Nat.zero_add]
      apply List.sum_le_sum
      intro value _
      exact h.le_boundValue hround field value

/-- Matching points satisfy every conjunct. -/
theorem trueMatches_le_must
    (filter : Filter)
    (meaning : Meaning)
    (points : List Point)
    {place : Condition × Nat}
    (hplace : place ∈ filter.must.zipIdx) :
    filter.trueMatches meaning points ≤
      points.countP (Condition.holds meaning .must place) := by
  apply List.countP_mono_left
  intro p _ hmatch
  simp only [Filter.isMatch, Bool.and_eq_true] at hmatch
  exact List.all_eq_true.mp hmatch.1.1 place hplace

/-- Matching points satisfy one of the disjuncts. -/
theorem trueMatches_le_should
    (filter : Filter)
    (meaning : Meaning)
    (points : List Point)
    (hne : ¬ filter.should.isEmpty) :
    filter.trueMatches meaning points ≤
      points.countP
        (fun p =>
          filter.should.zipIdx.any
            (fun place =>
              Condition.holds meaning .should place p)) := by
  apply List.countP_mono_left
  intro p _ hmatch
  simp only [Filter.isMatch, Bool.and_eq_true,
    Bool.or_eq_true] at hmatch
  exact hmatch.1.2.resolve_left hne

/-- The bound covers the matching points. -/
theorem Describes.trueMatches_le
    (hround : bincode.RoundTrips)
    (h : Describes hash bincode stats points)
    (filter : Filter)
    (meaning : Meaning) :
    filter.trueMatches meaning points ≤
      (stats.boundMatches hash filter).toNat := by
  have htotal :
      filter.trueMatches meaning points ≤
        stats.totalPoints.toNat :=
    List.countP_le_length.trans h.length_le
  have hmust :
      filter.trueMatches meaning points ≤
        (filter.must.foldl
          (fun bound condition =>
            min bound (stats.boundCondition hash condition))
          stats.totalPoints).toNat := by
    apply le_foldl_min _ htotal
    intro condition hmem
    obtain ⟨i, hi, hget⟩ := List.getElem_of_mem hmem
    have hplace : (condition, i) ∈ filter.must.zipIdx := by
      rw [List.mem_zipIdx_iff_getElem?, ← hget]
      exact List.getElem?_eq_getElem hi
    exact
      (trueMatches_le_must filter meaning points hplace).trans
        (h.le_boundCondition hround meaning .must (condition, i))
  unfold PayloadStats.boundMatches
  split_ifs with hempty hshould
  · exact htotal
  · exact hmust
  · rw [toNat_minU64]
    refine Nat.le_min.mpr ⟨hmust, ?_⟩
    apply PayloadStats.le_sumUpTo htotal
    refine
      (trueMatches_le_should filter meaning points hshould).trans ?_
    refine
      (countP_any_le_sum
        (Condition.holds meaning .should) _ points).trans ?_
    rw [UInt64.toNat_zero, Nat.zero_add]
    calc
      (filter.should.zipIdx.map
          (fun place =>
            points.countP
              (Condition.holds meaning .should place))).sum
          ≤ (filter.should.zipIdx.map
              (fun place =>
                (stats.boundCondition hash place.1).toNat)).sum := by
        apply List.sum_le_sum
        intro place _
        exact h.le_boundCondition hround meaning .should place
      _ = ((filter.should.map
            (stats.boundCondition hash)).map UInt64.toNat).sum := by
        conv_rhs =>
          rw [← List.zipIdx_map_fst 0 filter.should]
        rw [List.map_map, List.map_map]
        rfl

/-- No bound exceeds the collection size. -/
theorem PayloadStats.boundMatches_le_total
    (hash : RowHash)
    (stats : PayloadStats)
    (filter : Filter) :
    stats.boundMatches hash filter ≤ stats.totalPoints := by
  rw [UInt64.le_iff_toNat_le]
  have hmust :=
    foldl_min_le (stats.boundCondition hash) filter.must
      stats.totalPoints
  unfold boundMatches
  split_ifs
  · exact Nat.le_refl _
  · exact hmust
  · rw [toNat_minU64]
    exact (Nat.min_le_left _ _).trans hmust

end Bounds

/--
**The filter bound is sound.**  For every collection, filter and meaning of
its unbounded conditions; and a recommendation to pre-filter on the point
budget keeps to the budget.
-/
theorem boundMatches_sound
    (hash : RowHash)
    (bincode : Bincode CountMinFields)
    (hround : bincode.RoundTrips)
    (stats : PayloadStats)
    (points : List Point)
    (h : Describes hash bincode stats points)
    (filter : Filter)
    (meaning : Meaning) :
    filter.trueMatches meaning points ≤
        (stats.boundMatches hash filter).toNat ∧
      stats.boundMatches hash filter ≤ stats.totalPoints ∧
      ∀ params : StrategyParams,
        stats.boundMatches hash filter ≤ params.prefilterMaxPoints →
          stats.chooseStrategy hash filter params = .preFilter ∧
            filter.trueMatches meaning points ≤
              params.prefilterMaxPoints.toNat := by
  have hmatches := h.trueMatches_le hround filter meaning
  refine
    ⟨hmatches, stats.boundMatches_le_total hash filter, ?_⟩
  intro params hle
  exact ⟨if_pos hle, hmatches.trans (UInt64.le_iff_toNat_le.mp hle)⟩

section OneShoe

/-- Every item in the one counter. -/
def zeroHash : RowHash :=
  fun _ _ => 0

def shoeHistory : History (UInt32 × UInt32) Op :=
  .step (.fresh (1, 1)) (.add (asBytes "shoes") 1)

def shoeSketch : CountMinSketch where
  depth := 1
  width := 1
  counters := [1]
  total := 1
  wellFormed := ⟨by decide, by decide, rfl⟩

def shoeStats : PayloadStats :=
  (PayloadStats.new 2).withField "category" shoeSketch

/-- One point with the value, one without the field. -/
def shoePoints : List Point :=
  [⟨fun field => if field = "category" then ["shoes"] else []⟩,
    ⟨fun _ => []⟩]

theorem shoeStats_describes :
    Describes zeroHash (Bincode.ofCodec CountMinFields.codec) shoeStats
      shoePoints where
  length_le := by
    decide
  recorded := by
    intro field sketch hsketch
    have hfield : "category" = field ∧ shoeSketch = sketch := by
      simpa [shoeStats, PayloadStats.withField, PayloadStats.new,
        Std.TreeMap.getElem?_insert] using hsketch
    obtain ⟨rfl, rfl⟩ := hfield
    refine ⟨shoeHistory, by decide +kernel, ?_⟩
    intro value
    by_cases hvalue : value = "shoes"
    · subst hvalue
      decide +kernel
    · have hnone :
          shoePoints.countP
              (fun p => decide (value ∈ p.values "category")) =
            0 := by
        simp [shoePoints, hvalue]
      rw [hnone]
      exact Nat.zero_le _

theorem boundMatches_sound_oneShoe :
    (Filter.mk [.matchValue "category" "shoes"] [] []).trueMatches
        (fun _ _ _ => false) shoePoints ≤
      (shoeStats.boundMatches zeroHash
        (Filter.mk [.matchValue "category" "shoes"] [] [])).toNat :=
  (boundMatches_sound zeroHash (Bincode.ofCodec CountMinFields.codec)
    (Bincode.ofCodec_roundTrips CountMinFields.codec) shoeStats shoePoints
    shoeStats_describes _ (fun _ _ _ => false)).1

end OneShoe

end Samkhya
