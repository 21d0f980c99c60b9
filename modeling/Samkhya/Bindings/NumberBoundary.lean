import Mathlib
import Samkhya.Bindings.JoinCeiling
import Samkhya.Core.CeilingFactors

/-!
# The number boundary of the bindings

The bindings return the `u64` ceiling as a double, rounded to nearest.  Below
`2 ^ 53` nothing is lost; above, half of the ceilings are rounded down, and a
ceiling that is exact then falls below the join size it bounds.

Every ceiling is a product of one factor for each relation, and every such
product is a ceiling and the join size of an instance, for suitable distinct
counts.  The bindings are therefore sound under all distinct counts exactly
when none of these products is rounded down (`atLeast_iff_neverRoundedDown`).
-/

namespace Samkhya

open Saturating Binary64 Multiplicity

universe u

namespace Bindings

variable {κ : Type u} [DecidableEq κ]

section Conversion

variable {rows : List UInt64} {rowDoubles : List F64}

/-- What the JavaScript binding returns is the core's ceiling, converted. -/
theorem joinCeiling_wasm_eq
    (hrows : List.Forall₂ F64.Represents rowDoubles rows)
    (hne : rows ≠ [])
    (edges : List UInt32)
    (distinctDoubles : List F64) :
    Wasm.joinCeiling rowDoubles edges distinctDoubles =
      F64.ofU64
        (degreeGraph rows (Wasm.pairsOf edges)
          (some (distinctDoubles.map toRowCount))).ceiling := by
  have hempty : rows.isEmpty = false := by
    simpa using hne
  simp only [Wasm.joinCeiling, map_toRowCount_of_represents hrows, hempty,
    ceiling_wasm, Bool.false_eq_true, if_false]

theorem joinCeiling_py_eq
    (hrows : List.Forall₂ F64.Represents rowDoubles rows)
    (hne : rows ≠ [])
    (joins : List (Nat × Nat))
    (distinctDoubles : Option (List F64)) :
    Py.joinCeiling joins rowDoubles distinctDoubles =
      F64.ofU64
        (degreeGraph rows joins
          (distinctDoubles.map (List.map toRowCount))).ceiling := by
  have hempty : rowDoubles.isEmpty = false := by
    cases hrows with
    | nil =>
        exact absurd rfl hne
    | cons _ _ =>
        rfl
  simp only [Py.joinCeiling, map_toRowCount_of_represents hrows, hempty,
    Bool.false_eq_true, if_false]
  cases distinctDoubles with
  | none =>
      rw [Option.map_none, @ceiling_py_none rows joins none (by simp)]
  | some distinctDoubles =>
      rw [Option.map_some, ceiling_py_some]

end Conversion

section Product

variable (rows : List UInt64)

/-- All rows of all relations carry one key. -/
def constantInstance
    (κ : Type u)
    [Inhabited κ]
    (rows : List UInt64) : PredicateInstance κ rows where
  bag i := List.replicate (rows.get i).toNat (fun _ => some default)
  column _ _ := 0
  length_eq := by
    intro i
    exact List.length_replicate

/-- Every choice of rows joins. -/
theorem joinSize_constantInstance
    [Inhabited κ]
    (pairs : List (Nat × Nat)) :
    (constantInstance κ rows).joinSize pairs =
      (rows.map UInt64.toNat).prod := by
  have hall :
      (constantInstance κ rows).joined pairs = Finset.univ := by
    apply Finset.filter_true_of_mem
    rintro f _ ⟨⟨i, j⟩, k⟩ _ hi hj _
    have hkey :
        ∀ i < rows.length,
          (constantInstance κ rows).key f k i = some default := by
      intro i hi
      have hrow :
          ((constantInstance κ rows).bag ⟨i, hi⟩).get (f ⟨i, hi⟩) =
            fun _ => some default :=
        List.eq_of_mem_replicate (List.get_mem _ _)
      rw [PredicateInstance.key, dif_pos hi, hrow]
    rw [hkey i hi, hkey j hj]
    simp [sqlEq]
  have hcard :
      Fintype.card (Choice (constantInstance κ rows).bag) =
        (rows.map UInt64.toNat).prod := by
    rw [Fintype.card_pi, ← Fin.prod_univ_fun_getElem rows UInt64.toNat]
    apply Finset.prod_congr rfl
    intro i _
    rw [Fintype.card_fin]
    exact (constantInstance κ rows).length_eq i
  rw [PredicateInstance.joinSize, hall, Finset.card_univ, hcard]

theorem rowCounts_degreeGraph
    (pairs : List (Nat × Nat))
    (distinctCounts : Option (List UInt64)) :
    (degreeGraph rows pairs distinctCounts).rowCounts = rows := by
  have h := degreeGraph_registered rows distinctCounts pairs
  apply List.ext_getElem
  · rw [JoinGraph.rowCounts, List.length_map, h.length_eq]
  · intro i hi hi'
    have hrows := h.rows_eq i hi'
    have hbuilt :
        i < (degreeGraph rows pairs distinctCounts).relations.length := by
      rwa [h.length_eq]
    rw [List.getD_eq_getElem _ _ hbuilt,
      List.getD_eq_getElem _ _ hi'] at hrows
    simpa [JoinGraph.rowCounts] using hrows

/-- Without an empty relation the ceiling is within the product. -/
theorem ceiling_le_product
    {rows : List UInt64}
    (hne : rows ≠ [])
    (hpos : (rows.map UInt64.toNat).prod ≠ 0)
    (pairs : List (Nat × Nat))
    (distinctCounts : Option (List UInt64)) :
    (degreeGraph rows pairs distinctCounts).ceiling.toNat ≤
      min (rows.map UInt64.toNat).prod u64Max := by
  have hcounts := rowCounts_degreeGraph rows pairs distinctCounts
  have hnone :
      ¬ (degreeGraph rows pairs distinctCounts).SaturatesBeforeEmpty := by
    rintro ⟨before, after, hcs, _, i, hi, hzero⟩
    apply hpos
    have hmem : i ∈ (degreeGraph rows pairs
        distinctCounts).components.flatten := by
      rw [hcs, List.flatten_append]
      exact List.mem_append_right _ hi
    have hproduct :=
      JoinGraph.rowProduct_components
        (degreeGraph rows pairs distinctCounts)
    rw [hcounts, JoinGraph.rowProduct_eq_flatten] at hproduct
    rw [← hproduct, List.prod_eq_zero_iff]
    exact List.mem_map.mpr ⟨i, hmem, hzero⟩
  have hrelations :
      (degreeGraph rows pairs distinctCounts).relations ≠ [] := by
    intro hnil
    apply hne
    rw [← hcounts, JoinGraph.rowCounts, hnil, List.map_nil]
  have hle :=
    (JoinGraph.productEnvelope_of_not hrelations hnone).le_product
  rwa [hcounts, UInt64.le_iff_toNat_le, ProductBound.toNat_ceiling]
    at hle

/--
Without usable distinct counts the number is a bound for every instance iff the
product of the row counts is not rounded down.
-/
theorem product_atLeast_iff
    [Inhabited κ]
    {rows : List UInt64}
    (hne : rows ≠ [])
    (pairs : List (Nat × Nat))
    {distinctCounts : Option (List UInt64)}
    (hnone : distinctCounts.getD [] = []) :
    (∀ inst : PredicateInstance κ rows,
      (F64.ofU64 (degreeGraph rows pairs distinctCounts).ceiling).AtLeast
        (min (inst.joinSize pairs) u64Max)) ↔
      min (rows.map UInt64.toNat).prod u64Max ≤
        roundEven (min (rows.map UInt64.toNat).prod u64Max) := by
  have hfloor :
      ∀ inst : PredicateInstance κ rows, ∀ counts,
        distinctCounts = some counts →
          inst.DistinctFloor pairs counts := by
    rintro inst counts rfl i d hd
    rw [Option.getD_some] at hnone
    simp [hnone] at hd
  by_cases hpos : (rows.map UInt64.toNat).prod = 0
  · refine iff_of_true (fun inst => ?_) (by simp [hpos])
    have hzero := inst.joinSize_le_product pairs
    rw [hpos, Nat.le_zero] at hzero
    rw [F64.atLeast_ofU64_iff, hzero]
    exact Nat.zero_le _
  · have hsound :=
      (constantInstance κ rows).joinSize_le_degreeGraph pairs
        distinctCounts hne (hfloor _)
    rw [joinSize_constantInstance] at hsound
    have hceiling :=
      le_antisymm (ceiling_le_product hne hpos pairs distinctCounts) hsound
    constructor
    · intro h
      have hconstant := h (constantInstance κ rows)
      rwa [F64.atLeast_ofU64_iff, joinSize_constantInstance, hceiling]
        at hconstant
    · intro h inst
      rw [F64.atLeast_ofU64_iff, hceiling]
      exact
        (min_le_min_right u64Max (inst.joinSize_le_product pairs)).trans
          h

end Product

section Factors

/-- Relations of a list that some pair joins. -/
def Paired (n : Nat) (pairs : List (Nat × Nat)) (i j : Nat) : Prop :=
  i < n ∧ j < n ∧ (i, j) ∈ pairs

/--
A factor for each relation, from one to its row count, and among the relations
that pairs connect with it some relation with all its rows.
-/
structure Factors
    (rows : List UInt64)
    (pairs : List (Nat × Nat))
    (x : Nat → Nat) : Prop where
  pos : ∀ i < rows.length, 0 < x i
  le : ∀ i < rows.length, x i ≤ (rows.getD i 0).toNat
  full :
    ∀ i < rows.length, ∃ r < rows.length,
      Relation.EqvGen (Paired rows.length pairs) i r ∧
      x r = (rows.getD r 0).toNat

/-- The product of the factors, cut off at `u64::MAX`. -/
def product (rows : List UInt64) (x : Nat → Nat) : Nat :=
  min ((List.range rows.length).map x).prod u64Max

/-- No product of factors has a double below it as its nearest. -/
def NeverRoundedDown
    (rows : List UInt64)
    (pairs : List (Nat × Nat)) : Prop :=
  ∀ x, Factors rows pairs x →
    product rows x ≤ roundEven (product rows x)

variable
  {rows : List UInt64}
  {pairs : List (Nat × Nat)}
  {distinctCounts : Option (List UInt64)}
  {x : Nat → Nat}

theorem length_degreeGraph :
    (degreeGraph rows pairs distinctCounts).relations.length =
      rows.length :=
  (degreeGraph_registered rows distinctCounts pairs).length_eq

theorem rowsAt_degreeGraph
    {i : Nat}
    (hi : i < rows.length) :
    (degreeGraph rows pairs distinctCounts).rowsAt i =
      (rows.getD i 0).toNat := by
  have h := degreeGraph_registered rows distinctCounts pairs
  rw [JoinGraph.rowsAt, JoinGraph.relation, h.rows_eq i hi]

theorem relations_degreeGraph_ne_nil
    (hne : rows ≠ []) :
    (degreeGraph rows pairs distinctCounts).relations ≠ [] := by
  intro hnil
  apply hne
  rw [← List.length_eq_zero_iff, ← length_degreeGraph, hnil]
  rfl

/-- The edges connect what the pairs connect. -/
theorem eqvGen_joined_iff
    (u v : Nat) :
    Relation.EqvGen
        (JoinGraph.Joined
          (degreeGraph rows pairs distinctCounts).edges) u v ↔
      Relation.EqvGen (Paired rows.length pairs) u v := by
  constructor
  · intro h
    induction h with
    | rel u v hrel =>
        obtain ⟨e, he, ho⟩ := hrel
        obtain ⟨k, hk, hleft, hright, _⟩ :=
          degreeGraph_edge rows distinctCounts pairs he
        have hpair :
            Relation.EqvGen (Paired rows.length pairs) e.left e.right :=
          .rel _ _ ⟨hleft, hright, List.mem_of_getElem? hk⟩
        rcases JoinEdge.mem_orientations_iff.mp ho with
          ⟨rfl, rfl⟩ | ⟨rfl, rfl⟩
        · exact hpair
        · exact hpair.symm _ _
    | refl u => exact .refl u
    | symm u v _ ih => exact ih.symm _ _
    | trans u v w _ _ ih ih' => exact ih.trans _ _ _ ih'
  · intro h
    induction h with
    | rel u v hrel =>
        obtain ⟨hu, hv, hmem⟩ := hrel
        by_cases huv : u = v
        · rw [huv]
          exact .refl v
        · obtain ⟨k, hk⟩ := List.mem_iff_getElem?.mp hmem
          refine .rel _ _ ⟨⟨u, v, UInt32.ofNat k⟩, ?_, ?_⟩
          · rw [degreeGraph_eq, (withPredicates_eq _ _).2,
              length_registerCalls, List.length_map, List.mem_filter]
            refine ⟨List.mem_map.mpr ⟨((u, v), k), ?_, rfl⟩, ?_⟩
            · exact List.mem_zipIdx_iff_getElem?.mpr hk
            · exact JoinEdge.inRange_eq_true.mpr ⟨hu, hv, huv⟩
          · simp [JoinEdge.orientations]
    | refl u => exact .refl u
    | symm u v _ ih => exact ih.symm _ _
    | trans u v w _ _ ih ih' => exact ih.trans _ _ _ ih'

/-- Factors of the relations are factors of every component of the graph. -/
theorem factors_iff :
    Factors rows pairs x ↔
      ∀ c ∈ (degreeGraph rows pairs distinctCounts).components,
        (degreeGraph rows pairs distinctCounts).FactorsOf c x := by
  have hlt :
      ∀ c ∈ (degreeGraph rows pairs distinctCounts).components,
        ∀ v ∈ c, v < rows.length := by
    intro c hc v hv
    rw [← @length_degreeGraph rows pairs]
    exact JoinGraph.lt_of_mem_component hc hv
  constructor
  · intro h c hc
    refine ⟨fun v hv => h.pos v (hlt c hc v hv), ?_, ?_⟩
    · intro v hv
      rw [rowsAt_degreeGraph (hlt c hc v hv)]
      exact h.le v (hlt c hc v hv)
    · obtain ⟨i, hi⟩ :=
        List.exists_mem_of_ne_nil c (JoinGraph.component_ne_nil hc)
      obtain ⟨r, hr, hconnected, hfull⟩ := h.full i (hlt c hc i hi)
      refine ⟨r, ?_, ?_⟩
      · rw [JoinGraph.mem_component_iff hc hi, length_degreeGraph]
        exact ⟨hr, ((eqvGen_joined_iff i r).mpr hconnected).symm _ _⟩
      · rw [rowsAt_degreeGraph hr, hfull]
  · intro h
    have hcomponent :
        ∀ i < rows.length,
          ∃ c ∈ (degreeGraph rows pairs distinctCounts).components,
            i ∈ c := by
      intro i hi
      rw [← List.mem_flatten]
      apply (JoinGraph.components_perm _).mem_iff.mpr
      rw [List.mem_range, length_degreeGraph]
      exact hi
    refine ⟨?_, ?_, ?_⟩
    · intro i hi
      obtain ⟨c, hc, hic⟩ := hcomponent i hi
      exact (h c hc).pos i hic
    · intro i hi
      obtain ⟨c, hc, hic⟩ := hcomponent i hi
      have hle := (h c hc).le i hic
      rwa [rowsAt_degreeGraph hi] at hle
    · intro i hi
      obtain ⟨c, hc, hic⟩ := hcomponent i hi
      obtain ⟨r, hr, hfull⟩ := (h c hc).full
      refine ⟨r, hlt c hc r hr, ?_, ?_⟩
      · exact
          (eqvGen_joined_iff i r).mp
            (((JoinGraph.mem_component_iff hc hic).mp hr).2.symm _ _)
      · rw [hfull, rowsAt_degreeGraph (hlt c hc r hr)]

/-- Degrees of distinct counts lie between one and the row count. -/
theorem endpointDegree_bounds
    {i : Nat}
    (hi : 0 < (rows.getD i 0).toNat) :
    0 < (endpointDegree rows distinctCounts i).maxDegree.toNat ∧
      (endpointDegree rows distinctCounts i).maxDegree.toNat ≤
        (rows.getD i 0).toNat := by
  unfold endpointDegree
  simp only
  split
  · rw [AttributeDegree.toNat_fromDistinct]
    split_ifs
    · exact ⟨hi, le_rfl⟩
    · omega
  · exact ⟨hi, le_rfl⟩

/-- Relations with rows make an ordinary graph. -/
theorem ordinary_degreeGraph
    (hpos : ∀ i < rows.length, 0 < (rows.getD i 0).toNat) :
    (degreeGraph rows pairs distinctCounts).Ordinary := by
  have hends :
      ∀ e ∈ (degreeGraph rows pairs distinctCounts).edges, ∀ u v,
        (u, v) ∈ e.orientations → v < rows.length := by
    intro e he u v ho
    obtain ⟨_, _, hleft, hright, _⟩ :=
      degreeGraph_edge rows distinctCounts pairs he
    rcases JoinEdge.mem_orientations_iff.mp ho with
      ⟨_, rfl⟩ | ⟨_, rfl⟩
    · exact hright
    · exact hleft
  constructor
  · intro v hv
    rw [length_degreeGraph] at hv
    rw [rowsAt_degreeGraph hv]
    exact hpos v hv
  · intro e he u v ho
    rw [factorAt_degreeGraph he ho]
    exact (endpointDegree_bounds (hpos v (hends e he u v ho))).1
  · intro e he u v ho
    have hv := hends e he u v ho
    rw [factorAt_degreeGraph he ho, rowsAt_degreeGraph hv]
    exact (endpointDegree_bounds (hpos v hv)).2

end Factors

section Spread

variable
  {κ : Type u}
  {rows : List UInt64}
  {pairs : List (Nat × Nat)}
  {x : Nat → Nat}

/-- A column with one key in `share` rows and a key of its own in the others. -/
def spreadColumn (key : Nat → κ) (share others : Nat) : List (Option κ) :=
  List.replicate share (some (key 0)) ++
    (List.range others).map fun k => some (key (k + 1))

/-- The shared key and the others are all distinct. -/
theorem succ_le_distinct_spreadColumn
    [DecidableEq κ]
    {key : Nat → κ}
    (hkey : Function.Injective key)
    {share : Nat}
    (hshare : 0 < share)
    (others : Nat) :
    others + 1 ≤ distinct (spreadColumn key share others) := by
  have hsub :
      (Finset.range (others + 1)).image key ⊆
        (nonNulls (spreadColumn key share others)).dedup.toFinset := by
    intro v hv
    obtain ⟨k, hk, rfl⟩ := Finset.mem_image.mp hv
    rw [List.mem_toFinset, List.mem_dedup, List.reduceOption_mem_iff]
    cases k with
    | zero =>
        exact
          List.mem_append_left _
            (List.mem_replicate.mpr ⟨hshare.ne', rfl⟩)
    | succ k =>
        rw [Finset.mem_range] at hk
        refine List.mem_append_right _ (List.mem_map.mpr ⟨k, ?_, rfl⟩)
        rw [List.mem_range]
        omega
  have hcard := Finset.card_le_card hsub
  rw [Finset.card_image_of_injective _ hkey, Finset.card_range,
    List.toFinset_card_of_nodup (List.nodup_dedup _)] at hcard
  exact hcard

/-- The first rows are those that share the key. -/
theorem get_map_spreadColumn
    {key : Nat → κ}
    {share others : Nat}
    {bag : List (Nat → Option κ)}
    (hbag : bag = (spreadColumn key share others).map fun v _ => v)
    (r : Fin bag.length)
    (hr : r.val < share) :
    bag.get r = fun _ => some (key 0) := by
  subst hbag
  have hfirst : r.val < (List.replicate share (some (key 0))).length := by
    rwa [List.length_replicate]
  rw [List.get_eq_getElem, List.getElem_map]
  simp only [spreadColumn]
  rw [List.getElem_append_left hfirst, List.getElem_replicate]

/-- In relation `i`, `x i` rows share one key and the others have their own. -/
def spreadInstance
    (key : Nat → κ)
    (hle : ∀ i < rows.length, x i ≤ (rows.getD i 0).toNat) :
    PredicateInstance κ rows where
  bag i :=
    (spreadColumn key (x i) ((rows.get i).toNat - x i)).map
      fun v _ => v
  column _ _ := 0
  length_eq := by
    intro i
    have hi := hle i i.isLt
    rw [List.getD_eq_getElem _ _ i.isLt] at hi
    simp only [spreadColumn, List.length_map, List.length_append,
      List.length_replicate, List.length_range, List.get_eq_getElem]
    omega

theorem keyColumn_spreadInstance
    {key : Nat → κ}
    (hle : ∀ i < rows.length, x i ≤ (rows.getD i 0).toNat)
    (k : Nat)
    (i : Fin rows.length) :
    (spreadInstance key hle).keyColumn k i =
      spreadColumn key (x i) ((rows.get i).toNat - x i) := by
  rw [PredicateInstance.keyColumn, spreadInstance, List.map_map]
  exact List.map_id _

/-- Every choice of rows that share the key joins. -/
theorem prod_le_joinSize_spreadInstance
    [DecidableEq κ]
    (key : Nat → κ)
    (hle : ∀ i < rows.length, x i ≤ (rows.getD i 0).toNat) :
    ((List.range rows.length).map x).prod ≤
      (spreadInstance key hle).joinSize pairs := by
  let inst := spreadInstance key hle
  let sharing : Finset (Choice inst.bag) :=
    Fintype.piFinset fun i => Finset.univ.filter fun r => r.val < x i
  have hlength :
      ∀ i : Fin rows.length, x i ≤ (inst.bag i).length := by
    intro i
    have hi := hle i i.isLt
    rw [List.getD_eq_getElem _ _ i.isLt] at hi
    rw [inst.length_eq]
    exact hi
  have hcard :
      sharing.card = ((List.range rows.length).map x).prod := by
    rw [Fintype.card_piFinset]
    have hone :
        ∀ i : Fin rows.length,
          (Finset.univ.filter
            fun r : Fin (inst.bag i).length => r.val < x i).card =
            x i := by
      intro i
      rw [Fin.card_filter_val_lt]
      exact Nat.min_eq_right (hlength i)
    rw [Finset.prod_congr rfl fun i _ => hone i,
      Fin.prod_univ_eq_prod_range x, ← List.prod_toFinset _
      List.nodup_range, List.toFinset_range]
  have hkey :
      ∀ f ∈ sharing, ∀ k, ∀ i < rows.length,
        inst.key f k i = some (key 0) := by
    intro f hf k i hi
    have hshare : (f ⟨i, hi⟩).val < x i :=
      (Finset.mem_filter.mp (Fintype.mem_piFinset.mp hf ⟨i, hi⟩)).2
    have hrow :
        (inst.bag ⟨i, hi⟩).get (f ⟨i, hi⟩) = fun _ => some (key 0) :=
      get_map_spreadColumn rfl _ hshare
    rw [PredicateInstance.key, dif_pos hi, hrow]
  have hsub : sharing ⊆ inst.joined pairs := by
    intro f hf
    refine Finset.mem_filter.mpr ⟨Finset.mem_univ f, ?_⟩
    rintro ⟨⟨i, j⟩, k⟩ _ hi hj _
    rw [hkey f hf k i hi, hkey f hf k j hj]
    simp [sqlEq]
  rw [← hcard]
  exact Finset.card_le_card hsub

end Spread

section Exact

variable
  {κ : Type u} [DecidableEq κ]
  {rows : List UInt64}
  {pairs : List (Nat × Nat)}

/-- Without a product that is rounded down the number is a bound. -/
theorem atLeast_of_neverRoundedDown
    (hne : rows ≠ [])
    (hnever : NeverRoundedDown rows pairs)
    (distinctCounts : Option (List UInt64))
    (inst : PredicateInstance κ rows)
    (hfloor :
      ∀ counts, distinctCounts = some counts →
        inst.DistinctFloor pairs counts) :
    (F64.ofU64 (degreeGraph rows pairs distinctCounts).ceiling).AtLeast
      (min (inst.joinSize pairs) u64Max) := by
  rw [F64.atLeast_ofU64_iff]
  by_cases hpos : ∀ i < rows.length, 0 < (rows.getD i 0).toNat
  · obtain ⟨x, hx, hceiling⟩ :=
      JoinGraph.exists_factors (ordinary_degreeGraph hpos)
        (@relations_degreeGraph_ne_nil rows pairs distinctCounts hne)
    rw [length_degreeGraph] at hceiling
    have hsound :=
      inst.joinSize_le_degreeGraph pairs distinctCounts hne hfloor
    have hround := hnever x (factors_iff.mpr hx)
    rw [hceiling] at hsound ⊢
    exact hsound.trans hround
  · push Not at hpos
    obtain ⟨i, hi, hzero⟩ := hpos
    have hproduct : (rows.map UInt64.toNat).prod = 0 := by
      rw [List.prod_eq_zero_iff, List.mem_map]
      refine ⟨rows[i], List.getElem_mem hi, ?_⟩
      rw [List.getD_eq_getElem _ _ hi] at hzero
      omega
    have hnone := inst.joinSize_le_product pairs
    rw [hproduct, Nat.le_zero] at hnone
    rw [hnone]
    exact Nat.zero_le _

/-- Distinct counts under which relation `i` has the degree `x i`. -/
def countsFor (rows : List UInt64) (x : Nat → Nat) : List UInt64 :=
  (List.range rows.length).map fun i =>
    UInt64.ofNat ((rows.getD i 0).toNat - x i + 1)

/-- A count leaves its factor as the degree. -/
theorem countsFor_spec
    {x : Nat → Nat}
    (hx : Factors rows pairs x)
    {i : Nat}
    (hi : i < rows.length) :
    ∃ d,
      (countsFor rows x)[i]? = some d ∧
      d.toNat = (rows.getD i 0).toNat - x i + 1 ∧
      (endpointDegree rows (some (countsFor rows x)) i).maxDegree.toNat =
        x i := by
  have hpos := hx.pos i hi
  have hle := hx.le i hi
  have hlt := (rows.getD i 0).toNat_lt
  have hget :
      (countsFor rows x)[i]? =
        some (UInt64.ofNat ((rows.getD i 0).toNat - x i + 1)) := by
    rw [countsFor, List.getElem?_map, List.getElem?_range hi]
    rfl
  have hcount :
      (UInt64.ofNat ((rows.getD i 0).toNat - x i + 1)).toNat =
        (rows.getD i 0).toNat - x i + 1 := by
    rw [UInt64.toNat_ofNat']
    exact Nat.mod_eq_of_lt (by omega)
  refine ⟨_, hget, hcount, ?_⟩
  rw [endpointDegree, Option.bind_some, hget]
  simp only
  rw [AttributeDegree.toNat_fromDistinct, hcount, if_neg (by omega)]
  omega

/-- The counts are floors of the instance that spreads its other rows. -/
theorem distinctFloor_spreadInstance
    {x : Nat → Nat}
    (hx : Factors rows pairs x)
    {key : Nat → κ}
    (hkey : Function.Injective key) :
    (spreadInstance key hx.le).DistinctFloor pairs
      (countsFor rows x) := by
  intro i d hd k p _ _ _ _ _
  obtain ⟨d', hd', hcount, _⟩ := countsFor_spec hx i.isLt
  rw [hd'] at hd
  obtain rfl := Option.some.inj hd
  rw [hcount, keyColumn_spreadInstance,
    List.getD_eq_getElem _ _ i.isLt]
  exact succ_le_distinct_spreadColumn hkey (hx.pos i i.isLt) _

/-- With enough keys every product of factors is a ceiling and a join size. -/
theorem neverRoundedDown_of_atLeast
    [Infinite κ]
    (hne : rows ≠ [])
    (h :
      ∀ x, Factors rows pairs x →
        ∀ inst : PredicateInstance κ rows,
          inst.DistinctFloor pairs (countsFor rows x) →
            (F64.ofU64
              (degreeGraph rows pairs
                (some (countsFor rows x))).ceiling).AtLeast
              (min (inst.joinSize pairs) u64Max)) :
    NeverRoundedDown rows pairs := by
  intro x hx
  have hfloor :=
    distinctFloor_spreadInstance hx (Infinite.natEmbedding κ).injective
  have hpos : ∀ i < rows.length, 0 < (rows.getD i 0).toNat :=
    fun i hi => (hx.pos i hi).trans_le (hx.le i hi)
  have hceiling :
      (degreeGraph rows pairs
        (some (countsFor rows x))).ceiling.toNat ≤ product rows x := by
    rw [product, ← length_degreeGraph]
    apply
      JoinGraph.ceiling_le_prod (ordinary_degreeGraph hpos)
        (relations_degreeGraph_ne_nil hne) (factors_iff.mp hx)
    intro e he u v ho
    rw [factorAt_degreeGraph he ho]
    obtain ⟨_, _, hleft, hright, _⟩ :=
      degreeGraph_edge rows _ pairs he
    have hv : v < rows.length := by
      rcases JoinEdge.mem_orientations_iff.mp ho with
        ⟨_, rfl⟩ | ⟨_, rfl⟩
      · exact hright
      · exact hleft
    obtain ⟨_, _, _, hdegree⟩ := countsFor_spec hx hv
    exact hdegree
  have hsize :
      product rows x ≤
        min ((spreadInstance (Infinite.natEmbedding κ) hx.le).joinSize
          pairs) u64Max :=
    min_le_min_right u64Max
      (prod_le_joinSize_spreadInstance (Infinite.natEmbedding κ) hx.le)
  have hsound :=
    (spreadInstance (Infinite.natEmbedding κ)
      hx.le).joinSize_le_degreeGraph pairs (some (countsFor rows x)) hne
      (by
        rintro counts hcounts
        rw [← Option.some.inj hcounts]
        exact hfloor)
  have hsame := le_antisymm hceiling (hsize.trans hsound)
  have hnumber := h x hx _ hfloor
  rw [F64.atLeast_ofU64_iff, hsame] at hnumber
  exact hsize.trans hnumber

/-- Row counts that multiply to no more than `2 ^ 53` lose nothing. -/
theorem neverRoundedDown_of_le
    (h : (rows.map UInt64.toNat).prod ≤ 2 ^ 53) :
    NeverRoundedDown rows pairs := by
  intro x hx
  have hle : ((List.range rows.length).map x).prod ≤ 2 ^ 53 := by
    have hrows :
        (List.range rows.length).map (fun i => (rows.getD i 0).toNat) =
          rows.map UInt64.toNat := by
      apply List.ext_getElem
      · simp
      · intro i hi hi'
        have hlt : i < rows.length := by simpa using hi
        simp [hlt]
    rw [← hrows] at h
    refine
      (List.prod_map_le_prod_map₀ _ _ (fun _ _ => Nat.zero_le _)
        ?_).trans h
    intro i hi
    exact hx.le i (List.mem_range.mp hi)
  have hproduct : product rows x ≤ 2 ^ 53 :=
    (Nat.min_le_left _ _).trans hle
  exact (roundEven_of_dvd (gap_dvd_of_le hproduct)).ge

end Exact

/-- Counts up to `2 ^ 53` survive being passed as doubles. -/
theorem map_toRowCount_ofU64
    {counts : List UInt64}
    (h : ∀ n ∈ counts, n.toNat ≤ 2 ^ 53) :
    (counts.map F64.ofU64).map toRowCount = counts := by
  rw [List.map_map]
  refine (List.map_congr_left ?_).trans (List.map_id _)
  intro n hn
  exact toRowCount_of_represents (F64.represents_ofU64 (h n hn))

theorem countsFor_le
    {rows : List UInt64}
    (hbelow : ∀ n ∈ rows, n.toNat < 2 ^ 53)
    (x : Nat → Nat) :
    ∀ n ∈ countsFor rows x, n.toNat ≤ 2 ^ 53 := by
  intro n hn
  obtain ⟨i, hi, rfl⟩ := List.mem_map.mp hn
  rw [List.mem_range] at hi
  have hrow := hbelow rows[i] (List.getElem_mem hi)
  rw [List.getD_eq_getElem _ _ hi, UInt64.toNat_ofNat']
  exact (Nat.mod_le _ _).trans (by omega)

end Bindings

section Sound

open Bindings

variable (κ : Type u) [DecidableEq κ] (rows : List UInt64)

/-- The number is a bound whatever distinct counts fit the instance. -/
def Wasm.Sound (rowDoubles : List F64) (edges : List UInt32) : Prop :=
  ∀ (distinctDoubles : List F64) (inst : PredicateInstance κ rows),
    inst.DistinctFloor (Wasm.pairsOf edges)
      (distinctDoubles.map toRowCount) →
    (Wasm.joinCeiling rowDoubles edges distinctDoubles).AtLeast
      (min (inst.joinSize (Wasm.pairsOf edges)) u64Max)

def Py.Sound (rowDoubles : List F64) (joins : List (Nat × Nat)) : Prop :=
  ∀ (distinctDoubles : Option (List F64))
    (inst : PredicateInstance κ rows),
    (∀ counts, distinctDoubles = some counts →
      inst.DistinctFloor joins (counts.map toRowCount)) →
    (Py.joinCeiling joins rowDoubles distinctDoubles).AtLeast
      (min (inst.joinSize joins) u64Max)

end Sound

open Bindings in
/--
**When the bindings' ceilings are sound.**  For row counts that doubles
represent and any pairs, the number returned is at least the join size, cut off
at `u64::MAX`, under all distinct counts that fit the instance, when no product
of factors is rounded down; for row counts below `2 ^ 53` and enough keys, only
then.  Without distinct counts it is so for all instances iff the product of
the row counts is not rounded down.
-/
theorem bindings_sound_iff
    (κ : Type u)
    [DecidableEq κ]
    [Inhabited κ]
    (rows : List UInt64)
    (hne : rows ≠ [])
    (rowDoubles : List F64)
    (hrows : List.Forall₂ F64.Represents rowDoubles rows) :
    (∀ edges : List UInt32,
      NeverRoundedDown rows (Wasm.pairsOf edges) →
        Wasm.Sound κ rows rowDoubles edges) ∧
    (∀ joins : List (Nat × Nat),
      NeverRoundedDown rows joins →
        Py.Sound κ rows rowDoubles joins) ∧
    (Infinite κ → (∀ n ∈ rows, n.toNat < 2 ^ 53) →
      (∀ edges : List UInt32,
        Wasm.Sound κ rows rowDoubles edges ↔
          NeverRoundedDown rows (Wasm.pairsOf edges)) ∧
      (∀ joins : List (Nat × Nat),
        Py.Sound κ rows rowDoubles joins ↔
          NeverRoundedDown rows joins)) ∧
    (∀ edges : List UInt32,
      (∀ inst : PredicateInstance κ rows,
        (Wasm.joinCeiling rowDoubles edges []).AtLeast
          (min (inst.joinSize (Wasm.pairsOf edges)) u64Max)) ↔
        min (rows.map UInt64.toNat).prod u64Max ≤
          roundEven (min (rows.map UInt64.toNat).prod u64Max)) ∧
    (∀ joins : List (Nat × Nat),
      (∀ inst : PredicateInstance κ rows,
        (Py.joinCeiling joins rowDoubles none).AtLeast
          (min (inst.joinSize joins) u64Max)) ↔
        min (rows.map UInt64.toNat).prod u64Max ≤
          roundEven (min (rows.map UInt64.toNat).prod u64Max)) := by
  have hwasm :
      ∀ edges : List UInt32,
        NeverRoundedDown rows (Wasm.pairsOf edges) →
          Wasm.Sound κ rows rowDoubles edges := by
    intro edges hnever distinctDoubles inst hfloor
    rw [joinCeiling_wasm_eq hrows hne]
    apply atLeast_of_neverRoundedDown hne hnever
    intro counts hcounts
    rw [← Option.some.inj hcounts]
    exact hfloor
  have hpy :
      ∀ joins : List (Nat × Nat),
        NeverRoundedDown rows joins →
          Py.Sound κ rows rowDoubles joins := by
    intro joins hnever distinctDoubles inst hfloor
    rw [joinCeiling_py_eq hrows hne]
    apply atLeast_of_neverRoundedDown hne hnever
    intro counts hcounts
    obtain ⟨doubles, hdoubles, rfl⟩ := Option.map_eq_some_iff.mp hcounts
    exact hfloor doubles hdoubles
  refine ⟨hwasm, hpy, ?_, ?_, ?_⟩
  · intro _ hbelow
    refine ⟨fun edges => ⟨?_, hwasm edges⟩, fun joins => ⟨?_, hpy joins⟩⟩
    · intro hsound
      refine neverRoundedDown_of_atLeast (κ := κ) hne ?_
      intro x hx inst hfloor
      have hcounts := map_toRowCount_ofU64 (countsFor_le hbelow x)
      have hnumber :=
        hsound ((countsFor rows x).map F64.ofU64) inst
          (by rwa [hcounts])
      rwa [joinCeiling_wasm_eq hrows hne, hcounts] at hnumber
    · intro hsound
      refine neverRoundedDown_of_atLeast (κ := κ) hne ?_
      intro x hx inst hfloor
      have hcounts := map_toRowCount_ofU64 (countsFor_le hbelow x)
      have hnumber :=
        hsound (some ((countsFor rows x).map F64.ofU64)) inst
          (by
            rintro counts heq
            rw [← Option.some.inj heq, hcounts]
            exact hfloor)
      rwa [joinCeiling_py_eq hrows hne, Option.map_some, hcounts]
        at hnumber
  · intro edges
    rw [joinCeiling_wasm_eq hrows hne]
    exact product_atLeast_iff hne _ rfl
  · intro joins
    rw [joinCeiling_py_eq hrows hne]
    exact product_atLeast_iff hne joins rfl

section OddProduct

open Bindings

/-- Two row counts whose product is `2 ^ 53 + 1`. -/
def oddProduct : List UInt64 :=
  [3, 3002399751580331]

theorem oddProduct_represents :
    List.Forall₂ F64.Represents (oddProduct.map F64.ofU64)
      oddProduct := by
  have hthree := @F64.represents_ofU64 3 (by decide)
  have hother := @F64.represents_ofU64 3002399751580331 (by decide)
  exact .cons hthree (.cons hother .nil)

/-- One condition met and one not. -/
theorem bindings_sound_iff_pairs :
    Wasm.Sound Nat [6, 7] [F64.ofU64 6, F64.ofU64 7] [0, 1] ∧
      ¬ Wasm.Sound Nat oddProduct (oddProduct.map F64.ofU64) [0, 1] := by
  have hsmall :
      List.Forall₂ F64.Represents [F64.ofU64 6, F64.ofU64 7] [6, 7] :=
    .cons (@F64.represents_ofU64 6 (by decide))
      (.cons (@F64.represents_ofU64 7 (by decide)) .nil)
  constructor
  · refine (bindings_sound_iff Nat [6, 7] (by decide) _ hsmall).1 _ ?_
    exact neverRoundedDown_of_le (by decide)
  · have hbelow : ∀ n ∈ oddProduct, n.toNat < 2 ^ 53 := by
      simp [oddProduct]
    rw [((bindings_sound_iff Nat oddProduct (by decide) _
      oddProduct_represents).2.2.1 inferInstance hbelow).1]
    intro hnever
    have hfactors :
        Factors oddProduct (Wasm.pairsOf [0, 1])
          (fun i => (oddProduct.getD i 0).toNat) := by
      refine ⟨?_, fun _ _ => le_rfl, fun i hi => ⟨i, hi, .refl i, rfl⟩⟩
      decide +kernel
    exact absurd (hnever _ hfactors) (by decide +kernel)

/-- Their join size exceeds what both bindings return for it. -/
theorem oddProduct_unsound :
    (∀ n ∈ oddProduct, n.toNat < 2 ^ 53) ∧
    (constantInstance Nat oddProduct).joinSize [] = 2 ^ 53 + 1 ∧
    ¬ (Wasm.joinCeiling (oddProduct.map F64.ofU64) [] []).AtLeast
        (min ((constantInstance Nat oddProduct).joinSize []) u64Max) ∧
    ¬ (Py.joinCeiling [] (oddProduct.map F64.ofU64) none).AtLeast
        (min ((constantInstance Nat oddProduct).joinSize [])
          u64Max) := by
  have hsize := @joinSize_constantInstance Nat _ oddProduct _ []
  have hproduct :
      (oddProduct.map UInt64.toNat).prod = 2 ^ 53 + 1 := by
    decide +kernel
  rw [hproduct] at hsize
  have hlost :
      ∀ distinctCounts : Option (List UInt64),
        (degreeGraph oddProduct [] distinctCounts).ceiling.toNat =
          2 ^ 53 + 1 →
        ¬ (F64.ofU64
            (degreeGraph oddProduct [] distinctCounts).ceiling).AtLeast
          (min (2 ^ 53 + 1) u64Max) := by
    intro distinctCounts hceiling
    rw [F64.atLeast_ofU64_iff, hceiling]
    decide +kernel
  refine ⟨by simp [oddProduct], hsize, ?_, ?_⟩
  · rw [joinCeiling_wasm_eq oddProduct_represents (by decide), hsize]
    exact hlost _ (by decide +kernel)
  · rw [joinCeiling_py_eq oddProduct_represents (by decide), hsize]
    exact hlost _ (by decide +kernel)

end OddProduct

end Samkhya
