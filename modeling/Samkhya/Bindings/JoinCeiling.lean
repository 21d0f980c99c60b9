import Mathlib
import Samkhya.Core.CeilingCongr
import Samkhya.Foundations.RoundToEven

/-!
# The join ceilings of the bindings

The JavaScript and the Python binding build the join graph themselves.  They
take row counts and distinct counts as doubles and register a degree for every
endpoint in range of every pair, also of pairs that the graph then drops; the
core registers the endpoints of retained pairs only.  The extra registrations
are not read, so all three graphs have the same bounds.
-/

namespace Samkhya

open Saturating Binary64

namespace Bindings

/-- `to_u64` and `to_row_counts`: a double as a count, saturating. -/
def toRowCount (v : F64) : UInt64 :=
  if !v.isFinite || v.lt F64.zero then
    0
  else if (F64.ofU64 (UInt64.ofNat u64Max)).le v then
    UInt64.ofNat u64Max
  else
    v.toU64

/-- One endpoint of one pair; an endpoint out of range is skipped. -/
def registerEndpoint
    (rows distinct : List UInt64)
    (attributeId : Nat)
    (relations : List JoinRelation)
    (endpoint : Nat) : List JoinRelation :=
  if endpoint ≥ rows.length then
    relations
  else
    let degree :=
      match distinct[endpoint]? with
      | some d =>
          AttributeDegree.fromDistinct (rows.getD endpoint 0) d
      | none => AttributeDegree.unknown (rows.getD endpoint 0)
    relations.set endpoint
      ((relations.getD endpoint (JoinRelation.new 0)).withDegree
        (UInt32.ofNat attributeId) degree)

/-- The loop over all pairs that registers the degrees. -/
def registerDegrees
    (rows distinct : List UInt64)
    (pairs : List (Nat × Nat))
    (relations : List JoinRelation) : List JoinRelation :=
  pairs.zipIdx.foldl
    (fun relations pair =>
      [pair.1.1, pair.1.2].foldl
        (registerEndpoint rows distinct pair.2) relations)
    relations

end Bindings

namespace Wasm

open Bindings

/-- `chunks_exact(2)`: a trailing unpaired index is ignored. -/
def pairsOf : List UInt32 → List (Nat × Nat)
  | i :: j :: rest => (i.toNat, j.toNat) :: pairsOf rest
  | _ => []

/-- The graph that `join_ceiling` builds. -/
def joinGraph
    (rows distinct : List UInt64)
    (edges : List UInt32) : JoinGraph :=
  withPredicates
    (registerDegrees rows distinct (pairsOf edges)
      (rows.map JoinRelation.new))
    (pairsOf edges)

/-- `join_ceiling` of the JavaScript binding. -/
def joinCeiling
    (rows : List F64)
    (edges : List UInt32)
    (distinctCounts : List F64) : F64 :=
  let rowCounts := rows.map toRowCount
  if rowCounts.isEmpty then
    F64.zero
  else
    F64.ofU64
      (joinGraph rowCounts (distinctCounts.map toRowCount) edges).ceiling

end Wasm

namespace Py

open Bindings

/-- The graph that `join_ceiling` builds. -/
def joinGraph
    (rows : List UInt64)
    (distinctCounts : Option (List UInt64))
    (joins : List (Nat × Nat)) : JoinGraph :=
  let relations := rows.map JoinRelation.new
  let relations :=
    match distinctCounts with
    | some distinct => registerDegrees rows distinct joins relations
    | none => relations
  withPredicates relations joins

/-- `join_ceiling` of the Python binding. -/
def joinCeiling
    (joins : List (Nat × Nat))
    (cardEstimates : List F64)
    (distinctCounts : Option (List F64)) : F64 :=
  if cardEstimates.isEmpty then
    F64.zero
  else
    F64.ofU64
      (joinGraph (cardEstimates.map toRowCount)
        (distinctCounts.map (List.map toRowCount)) joins).ceiling

end Py

namespace Bindings

section Conversion

variable {v : F64} {n : UInt64}

/-- `u64::MAX as f64` is the next power of two. -/
theorem scaled_ofU64_max :
    (F64.ofU64 (UInt64.ofNat u64Max)).isFinite = true ∧
      (F64.ofU64 (UInt64.ofNat u64Max)).scaled =
        ((2 ^ 64 * F64.unitsPerOne : Nat) : Int) := by
  have hround : roundEven (UInt64.ofNat u64Max).toNat = 2 ^ 64 := by
    decide +kernel
  have h := F64.scaled_ofU64 (UInt64.ofNat u64Max)
  rwa [hround] at h

/-- A double that is a count is read as that count. -/
theorem toRowCount_of_represents
    (h : v.Represents n) :
    toRowCount v = n := by
  obtain ⟨hfinite, hscaled⟩ := h
  have hnan := F64.isFinite_not_isNaN hfinite
  have hzero : F64.zero.scaled = 0 := by
    decide +kernel
  have hnonneg : v.lt F64.zero = false := by
    rw [← Bool.not_eq_true, F64.lt_iff hnan (by decide +kernel), hzero,
      hscaled]
    omega
  have hbelow :
      (F64.ofU64 (UInt64.ofNat u64Max)).le v = false := by
    obtain ⟨hmax, hvalue⟩ := scaled_ofU64_max
    rw [← Bool.not_eq_true,
      F64.le_iff (F64.isFinite_not_isNaN hmax) hnan, hvalue, hscaled,
      Nat.cast_le, not_le]
    exact
      Nat.mul_lt_mul_of_pos_right n.toNat_lt F64.unitsPerOne_pos
  have htruncate : v.truncate = n.toNat := by
    rw [F64.truncate, hnan, if_neg (by decide), hscaled,
      Int.toNat_natCast]
    exact Nat.mul_div_cancel _ F64.unitsPerOne_pos
  have hmin : Nat.min n.toNat (2 ^ 64 - 1) = n.toNat :=
    Nat.min_eq_left (Nat.le_pred_of_lt n.toNat_lt)
  simp only [toRowCount, hfinite, hnonneg, hbelow, F64.toU64, htruncate,
    hmin]
  simp

theorem map_toRowCount_of_represents
    {vs : List F64}
    {ns : List UInt64}
    (h : List.Forall₂ F64.Represents vs ns) :
    vs.map toRowCount = ns := by
  induction h with
  | nil =>
      rfl
  | cons hv _ ih =>
      rw [List.map_cons, toRowCount_of_represents hv, ih]

end Conversion

section Graphs

variable
  (rows distinct : List UInt64)
  (pairs : List (Nat × Nat))

/-- The registrations of one pair: its endpoints in range. -/
def pairCalls
    (n : Nat)
    (pair : (Nat × Nat) × Nat) : List (AttributeId × Nat) :=
  ([pair.1.1, pair.1.2].filter (fun endpoint => endpoint < n)).map
    (fun endpoint => (UInt32.ofNat pair.2, endpoint))

theorem registerEndpoint_eq
    (attributeId : Nat)
    (relations : List JoinRelation)
    (endpoint : Nat) :
    registerEndpoint rows distinct attributeId relations endpoint =
      if endpoint < rows.length then
        Samkhya.registerEndpoint rows (some distinct)
          (UInt32.ofNat attributeId) relations endpoint
      else
        relations := by
  unfold registerEndpoint
  split_ifs with hge hlt hlt
  · omega
  · rfl
  · rfl
  · omega

/-- The loop registers the endpoints in range of every pair. -/
theorem registerDegrees_eq
    (relations : List JoinRelation) :
    registerDegrees rows distinct pairs relations =
      registerCalls rows (some distinct) relations
        (pairs.zipIdx.flatMap (pairCalls rows.length)) := by
  unfold registerDegrees registerCalls
  induction pairs.zipIdx generalizing relations with
  | nil =>
      rfl
  | cons pair rest ih =>
      rw [List.foldl_cons, ih, List.flatMap_cons, List.foldl_append]
      congr 1
      simp only [pairCalls, List.foldl_cons, List.foldl_nil,
        registerEndpoint_eq, List.filter_cons, List.filter_nil]
      by_cases hi : pair.1.1 < rows.length
      · by_cases hj : pair.1.2 < rows.length <;> simp [hi, hj]
      · by_cases hj : pair.1.2 < rows.length <;> simp [hi, hj]

/-- Every registration of the core is one of the bindings. -/
theorem predicateCalls_subset
    {n : Nat}
    {pair : (Nat × Nat) × Nat}
    {call : AttributeId × Nat}
    (h : call ∈ predicateCalls n pair) :
    call ∈ pairCalls n pair := by
  obtain ⟨⟨i, j⟩, position⟩ := pair
  simp only [predicateCalls] at h
  split_ifs at h with hguard
  · cases h
  · simp only [not_or, ge_iff_le, not_le] at hguard
    simpa [pairCalls, List.filter_cons, hguard.1, hguard.2.1] using h

/-- The graphs of the bindings have the bounds of the core's graph. -/
theorem sameBounds_registerDegrees :
    (degreeGraph rows pairs (some distinct)).SameBounds
      (withPredicates
        (registerDegrees rows distinct pairs
          (rows.map JoinRelation.new)) pairs) := by
  rw [registerDegrees_eq]
  apply sameBounds_degreeGraph
  intro call hcall
  obtain ⟨pair, hpair, hcall⟩ := List.mem_flatMap.mp hcall
  exact
    Or.inl
      (List.mem_flatMap.mpr ⟨pair, hpair, predicateCalls_subset hcall⟩)

theorem ceiling_wasm
    (edges : List UInt32) :
    (Wasm.joinGraph rows distinct edges).ceiling =
      (degreeGraph rows (Wasm.pairsOf edges) (some distinct)).ceiling :=
  (sameBounds_registerDegrees rows distinct _).ceiling_eq

theorem ceiling_py_some :
    (Py.joinGraph rows (some distinct) pairs).ceiling =
      (degreeGraph rows pairs (some distinct)).ceiling :=
  (sameBounds_registerDegrees rows distinct pairs).ceiling_eq

/-- Without distinct counts nothing is registered, and nothing is missing. -/
theorem ceiling_py_none
    {distinctCounts : Option (List UInt64)}
    (h : ∀ i : Nat, distinctCounts.bind (fun d => d[i]?) = none) :
    (Py.joinGraph rows none pairs).ceiling =
      (degreeGraph rows pairs distinctCounts).ceiling := by
  have hsame :
      (degreeGraph rows pairs distinctCounts).SameBounds
        (withPredicates
          (registerCalls rows distinctCounts
            (rows.map JoinRelation.new) []) pairs) := by
    apply sameBounds_degreeGraph
    intro call _
    exact Or.inr (by simp [endpointDegree, h])
  exact hsame.ceiling_eq

end Graphs

end Bindings

/-- A flat list of pairs is read back as the pairs. -/
theorem Wasm.pairsOf_flatMap
    (pairs : List (UInt32 × UInt32)) :
    Wasm.pairsOf (pairs.flatMap (fun p => [p.1, p.2])) =
      pairs.map (fun p => (p.1.toNat, p.2.toNat)) := by
  induction pairs with
  | nil =>
      rfl
  | cons p pairs ih =>
      simp [Wasm.pairsOf, ih]

open Bindings in
/--
**The three graph builders agree.**  For row and distinct counts that doubles
represent and any pairs, the two bindings compute the `u64` ceiling of
`ChainBound`, whatever is out of range, repeated or missing.
-/
theorem join_ceiling_bindings_agree
    (rows distinct : List UInt64)
    (rowDoubles distinctDoubles : List F64)
    (hrows : List.Forall₂ F64.Represents rowDoubles rows)
    (hdistinct : List.Forall₂ F64.Represents distinctDoubles distinct)
    (hne : rows ≠ [])
    (pairs : List (UInt32 × UInt32))
    (hpairs : pairs ≠ []) :
    let joins := pairs.map (fun p => (p.1.toNat, p.2.toNat))
    let ceiling := (ChainBound.mk distinct).ceiling rows joins
    (Wasm.joinGraph (rowDoubles.map toRowCount)
        (distinctDoubles.map toRowCount)
        (pairs.flatMap (fun p => [p.1, p.2]))).ceiling = ceiling ∧
    (Py.joinGraph (rowDoubles.map toRowCount)
        (some (distinctDoubles.map toRowCount)) joins).ceiling =
      ceiling ∧
    (distinct = [] →
      (Py.joinGraph (rowDoubles.map toRowCount) none joins).ceiling =
        ceiling) := by
  intro joins ceiling
  have hceiling :
      ceiling = (degreeGraph rows joins (some distinct)).ceiling := by
    have hrows : rows.isEmpty = false := by
      simpa using hne
    have hjoins : joins.isEmpty = false := by
      simpa [joins] using hpairs
    simp only [ceiling, ChainBound.ceiling, hrows, hjoins]
    rfl
  rw [map_toRowCount_of_represents hrows,
    map_toRowCount_of_represents hdistinct, hceiling, ceiling_wasm,
    Wasm.pairsOf_flatMap]
  refine ⟨rfl, ceiling_py_some rows distinct joins, ?_⟩
  rintro rfl
  exact ceiling_py_none rows joins (by simp)

section StrayPairs

open Bindings

/-- Pairs of which one leaves the list, one is a loop and one comes twice. -/
def strayPairs : List (UInt32 × UInt32) :=
  [(0, 1), (0, 7), (1, 1), (0, 1)]

theorem join_ceiling_bindings_agree_strayPairs :
    (Wasm.joinGraph
        ([F64.ofU64 10, F64.ofU64 100].map toRowCount)
        ([F64.ofU64 10].map toRowCount)
        (strayPairs.flatMap (fun p => [p.1, p.2]))).ceiling =
      (ChainBound.mk [10]).ceiling [10, 100]
        (strayPairs.map (fun p => (p.1.toNat, p.2.toNat))) := by
  have hten := @F64.represents_ofU64 10 (by decide)
  have hhundred := @F64.represents_ofU64 100 (by decide)
  exact
    (join_ceiling_bindings_agree [10, 100] [10]
      [F64.ofU64 10, F64.ofU64 100] [F64.ofU64 10]
      (.cons hten (.cons hhundred .nil)) (.cons hten .nil)
      (by simp) strayPairs (by simp [strayPairs])).1

end StrayPairs

end Samkhya
