import Mathlib
import Samkhya.Core.LpBound
import Samkhya.Foundations.FractionalCover

/-!
# The attribute-hypergraph ceiling

`ceilingHypergraph` solves a fractional edge cover with one variable per
relation and one constraint per attribute, and rounds the exponential of the
optimum up.  The solver is a parameter; logarithm and exponential are the real
ones.

`feasible_iff` and `exp_objective` read the program as a cover of the attribute
hypergraph.  The covering bound then holds for bags whose projected relations
repeat no row (`DuplicateFree`).  A repeated row breaks it: bags of identical
rows join to the full product (`constant_joinSize`), so the ceiling holds for
every bag exactly when it loses nothing against the product
(`SoundForBags`).
-/

namespace Samkhya

open Saturating FractionalCover

universe u

/-- One relation as a hyperedge. -/
structure HyperRelation where
  rows : UInt64
  attributes : List AttributeId
  hasPrivateAttributes : Bool
deriving DecidableEq, Repr

namespace HyperRelation

/-- A relation with private columns next to its join attributes. -/
def new
    (rows : UInt64)
    (attributes : List AttributeId) : HyperRelation :=
  ⟨rows, attributes, true⟩

/-- A relation projected down to its join attributes. -/
def projected
    (rows : UInt64)
    (attributes : List AttributeId) : HyperRelation :=
  ⟨rows, attributes, false⟩

/-- Nothing but the relation itself can pay for it. -/
def chargedInFull (relation : HyperRelation) : Bool :=
  relation.hasPrivateAttributes || relation.attributes.isEmpty

/-- Objective coefficient: the logarithm of the row count. -/
noncomputable def coefficient (relation : HyperRelation) : ℝ :=
  let size : ℝ := relation.rows.toNat
  if size ≤ 1 then 0 else Real.log size

/-- Row count as the objective sees it: an empty relation counts as one row. -/
noncomputable def size (relation : HyperRelation) : ℝ :=
  max relation.rows.toNat 1

end HyperRelation

/--
A covering program: minimise `∑ coefficient i * x i` over non-negative `x`,
every constraint asking its variables to sum to at least one.
-/
structure CoverProgram where
  coefficients : List ℝ
  constraints : List (List Nat)

namespace CoverProgram

/-- Value of the objective. -/
def objective
    (p : CoverProgram)
    (x : Nat → ℝ) : ℝ :=
  (p.coefficients.zipIdx.map (fun c => c.1 * x c.2)).sum

/-- An assignment that the program admits. -/
structure Feasible
    (p : CoverProgram)
    (x : Nat → ℝ) : Prop where
  nonneg : ∀ i < p.coefficients.length, 0 ≤ x i
  geq_one : ∀ lhs ∈ p.constraints, 1 ≤ (lhs.map x).sum

/-- An exact optimum. -/
def IsOptimal
    (p : CoverProgram)
    (x : Nat → ℝ) : Prop :=
  p.Feasible x ∧ ∀ y, p.Feasible y → p.objective x ≤ p.objective y

end CoverProgram

section Program

variable (relations : List HyperRelation)

/-- The distinct attributes in ascending order. -/
def distinctAttributes : List AttributeId :=
  (relations.flatMap HyperRelation.attributes).dedup.mergeSort
    (fun a b => decide (a ≤ b))

/-- Variables of the relations that list an attribute. -/
def attributeConstraint (a : AttributeId) : List Nat :=
  (relations.zipIdx.filter
    (fun p => p.1.attributes.contains a)).map Prod.snd

/-- The covering program of an attribute hypergraph. -/
noncomputable def coverProgram : CoverProgram where
  coefficients := relations.map HyperRelation.coefficient
  constraints :=
    ((distinctAttributes relations).map
        (attributeConstraint relations)).filter
      (fun lhs => !lhs.isEmpty) ++
    (relations.zipIdx.filter (fun p => p.1.chargedInFull)).map
      (fun p => [p.2])

end Program

/-- Rounded up, clamped to `u64` as the float cast does. -/
noncomputable def ceilAsU64 (x : ℝ) : UInt64 :=
  if 2 ^ 64 ≤ x then
    UInt64.ofNat u64Max
  else
    UInt64.ofNat (min ⌈x⌉₊ u64Max)

namespace LpJoinBound

/-- Build and solve the attribute-level covering program. -/
noncomputable def solveHypergraph
    (_b : LpJoinBound)
    (solver : CoverProgram → Option (Nat → ℝ))
    (relations : List HyperRelation) : Option UInt64 :=
  (solver (coverProgram relations)).map
    (fun solution =>
      let optimum :=
        Real.exp ((coverProgram relations).objective solution)
      ceilAsU64 (max optimum 1))

/-- The covering ceiling, capped at the product. -/
noncomputable def ceilingHypergraph
    (b : LpJoinBound)
    (solver : CoverProgram → Option (Nat → ℝ))
    (relations : List HyperRelation) : UInt64 :=
  let rows := relations.map HyperRelation.rows
  let product := ProductBound.ceiling rows []
  if relations.isEmpty then
    0
  else if relations.all HyperRelation.hasPrivateAttributes then
    product
  else
    match b.solveHypergraph solver relations with
    | some value => min value product
    | none => product

end LpJoinBound

section Cover

variable (relations : List HyperRelation)

/-- Relations as edges over their attributes. -/
def attributeHypergraph :
    Hypergraph (Fin relations.length) AttributeId where
  contains i a := a ∈ (relations.get i).attributes
  forced i := (relations.get i).chargedInFull = true

/-- Product of the row counts, each raised to its weight. -/
noncomputable def coverSize (w : Fin relations.length → ℝ) : ℝ :=
  ∏ i, (relations.get i).size ^ w i

variable {relations}

/-- A sum over indexed entries is a sum over positions. -/
theorem sum_map_zipIdx
    {α : Type*}
    (xs : List α)
    (f : α × Nat → ℝ) :
    (xs.zipIdx.map f).sum =
      ∑ i : Fin xs.length, f (xs.get i, i.val) := by
  have hlist :
      xs.zipIdx.map f =
        List.ofFn
          (fun i : Fin xs.length => f (xs.get i, i.val)) := by
    apply List.ext_getElem
    · simp
    · intro i _ _
      simp
  rw [hlist, List.sum_ofFn]

/-- A sum over the indexed entries that pass a test. -/
theorem sum_map_zipIdx_filter
    {α : Type*}
    (xs : List α)
    (keep : α × Nat → Bool)
    (x : Nat → ℝ) :
    (((xs.zipIdx.filter keep).map Prod.snd).map x).sum =
      ∑ i : Fin xs.length,
        if keep (xs.get i, i.val) then x i.val else 0 := by
  have hfilter :
      ∀ ys : List (α × Nat),
        (((ys.filter keep).map Prod.snd).map x).sum =
          (ys.map (fun p => if keep p then x p.2 else 0)).sum := by
    intro ys
    induction ys with
    | nil =>
        rfl
    | cons p ys ih =>
        rw [List.map_cons, List.sum_cons, ← ih]
        by_cases hp : keep p = true
        · rw [List.filter_cons_of_pos hp, if_pos hp]
          rfl
        · rw [List.filter_cons_of_neg hp, if_neg hp, zero_add]
  rw [hfilter, sum_map_zipIdx]

open Classical in
/-- The constraint of an attribute asks for its load. -/
theorem sum_attributeConstraint
    (a : AttributeId)
    (x : Nat → ℝ) :
    ((attributeConstraint relations a).map x).sum =
      (attributeHypergraph relations).load (fun i => x i.val) a := by
  unfold attributeConstraint Hypergraph.load
  rw [sum_map_zipIdx_filter]
  apply Finset.sum_congr rfl
  intro i _
  by_cases hi : a ∈ (relations.get i).attributes
  · rw [if_pos (List.contains_iff_mem.mpr hi)]
    exact (if_pos hi).symm
  · rw [if_neg (fun h => hi (List.contains_iff_mem.mp h))]
    exact (if_neg hi).symm

theorem mem_distinctAttributes_iff
    (a : AttributeId) :
    a ∈ distinctAttributes relations ↔
      ∃ i : Fin relations.length, a ∈ (relations.get i).attributes := by
  unfold distinctAttributes
  rw [List.mem_mergeSort, List.mem_dedup, List.mem_flatMap]
  constructor
  · rintro ⟨relation, hmem, ha⟩
    obtain ⟨i, rfl⟩ := List.get_of_mem hmem
    exact ⟨i, ha⟩
  · rintro ⟨i, ha⟩
    exact ⟨relations.get i, List.get_mem relations i, ha⟩

/-- A listed attribute is covered by some variable. -/
theorem attributeConstraint_ne_nil
    {i : Fin relations.length}
    {a : AttributeId}
    (ha : a ∈ (relations.get i).attributes) :
    attributeConstraint relations a ≠ [] := by
  have hmem :
      i.val ∈ attributeConstraint relations a := by
    unfold attributeConstraint
    apply List.mem_map.mpr
    refine ⟨(relations.get i, i.val), ?_, rfl⟩
    apply List.mem_filter.mpr
    refine ⟨?_, List.contains_iff_mem.mpr ha⟩
    apply List.mem_zipIdx_iff_getElem?.mpr
    exact List.getElem?_eq_getElem i.isLt
  exact List.ne_nil_of_mem hmem

/-- The constraints: one for each listed attribute, one for each full charge. -/
theorem mem_constraints_iff
    (lhs : List Nat) :
    lhs ∈ (coverProgram relations).constraints ↔
      (∃ i : Fin relations.length, ∃ a ∈ (relations.get i).attributes,
        attributeConstraint relations a = lhs) ∨
      ∃ i : Fin relations.length,
        (relations.get i).chargedInFull = true ∧ [i.val] = lhs := by
  unfold coverProgram
  rw [List.mem_append]
  apply or_congr
  · rw [List.mem_filter, List.mem_map]
    constructor
    · rintro ⟨⟨a, ha, rfl⟩, _⟩
      obtain ⟨i, hi⟩ := (mem_distinctAttributes_iff a).mp ha
      exact ⟨i, a, hi, rfl⟩
    · rintro ⟨i, a, ha, rfl⟩
      refine ⟨⟨a, (mem_distinctAttributes_iff a).mpr ⟨i, ha⟩, rfl⟩, ?_⟩
      simp [attributeConstraint_ne_nil ha]
  · rw [List.mem_map]
    constructor
    · rintro ⟨⟨relation, position⟩, hp, rfl⟩
      obtain ⟨hget, hcharged⟩ := List.mem_filter.mp hp
      obtain ⟨hlt, hget⟩ :=
        List.getElem?_eq_some_iff.mp
          (List.mem_zipIdx_iff_getElem?.mp hget)
      refine ⟨⟨position, hlt⟩, ?_, rfl⟩
      rw [List.get_eq_getElem, hget]
      exact hcharged
    · rintro ⟨i, hi, rfl⟩
      refine ⟨(relations.get i, i.val), ?_, rfl⟩
      apply List.mem_filter.mpr
      refine ⟨?_, hi⟩
      apply List.mem_zipIdx_iff_getElem?.mpr
      exact List.getElem?_eq_getElem i.isLt

/-- Feasible assignments are the covers of the attribute hypergraph. -/
theorem feasible_iff
    (x : Nat → ℝ) :
    (coverProgram relations).Feasible x ↔
      (attributeHypergraph relations).IsCover (fun i => x i.val) := by
  have hlength :
      (coverProgram relations).coefficients.length =
        relations.length :=
    List.length_map _
  constructor
  · intro hx
    refine ⟨?_, ?_, ?_⟩
    · intro i
      apply hx.nonneg
      rw [hlength]
      exact i.isLt
    · intro i a ha
      rw [← sum_attributeConstraint]
      apply hx.geq_one
      exact (mem_constraints_iff _).mpr (Or.inl ⟨i, a, ha, rfl⟩)
    · intro i hi
      have hone :=
        hx.geq_one [i.val]
          ((mem_constraints_iff _).mpr (Or.inr ⟨i, hi, rfl⟩))
      simpa using hone
  · intro hw
    refine ⟨?_, ?_⟩
    · intro i hi
      rw [hlength] at hi
      exact hw.nonneg ⟨i, hi⟩
    · intro lhs hlhs
      rcases (mem_constraints_iff lhs).mp hlhs with
        ⟨i, a, ha, rfl⟩ | ⟨i, hi, rfl⟩
      · rw [sum_attributeConstraint]
        exact hw.covers i a ha
      · simpa using hw.forced i hi

/-- The exponential of a coefficient is the size. -/
theorem HyperRelation.exp_coefficient
    (relation : HyperRelation) :
    Real.exp relation.coefficient = relation.size := by
  unfold HyperRelation.coefficient HyperRelation.size
  dsimp only
  split_ifs with h
  · rw [Real.exp_zero, max_eq_right h]
  · have hlt := not_le.mp h
    rw [Real.exp_log (zero_lt_one.trans hlt), max_eq_left hlt.le]

theorem HyperRelation.one_le_size
    (relation : HyperRelation) :
    1 ≤ relation.size :=
  le_max_right _ _

/-- The exponential of the objective is the weighted product of the sizes. -/
theorem exp_objective
    (x : Nat → ℝ) :
    Real.exp ((coverProgram relations).objective x) =
      coverSize relations (fun i => x i.val) := by
  have hobjective :
      (coverProgram relations).objective x =
        ∑ i : Fin relations.length,
          (relations.get i).coefficient * x i.val := by
    unfold CoverProgram.objective coverProgram
    dsimp only
    rw [List.zipIdx_map, List.map_map, sum_map_zipIdx]
    rfl
  rw [hobjective, Real.exp_sum]
  apply Finset.prod_congr rfl
  intro i _
  rw [Real.exp_mul, HyperRelation.exp_coefficient]

/-- An optimal assignment is a cover of least size. -/
theorem CoverProgram.IsOptimal.coverSize_le
    {x : Nat → ℝ}
    (hx : (coverProgram relations).IsOptimal x)
    {w : Fin relations.length → ℝ}
    (hw : (attributeHypergraph relations).IsCover w) :
    coverSize relations (fun i => x i.val) ≤ coverSize relations w := by
  let y : Nat → ℝ :=
    fun i => if h : i < relations.length then w ⟨i, h⟩ else 0
  have hy : (fun i : Fin relations.length => y i.val) = w := by
    funext i
    exact dif_pos i.isLt
  have hle :=
    hx.2 y ((feasible_iff y).mpr (by rw [hy]; exact hw))
  have hexp := Real.exp_le_exp.mpr hle
  rw [exp_objective, exp_objective, hy] at hexp
  exact hexp

/-- Weights of a cover never shrink the product below one. -/
theorem one_le_coverSize
    {w : Fin relations.length → ℝ}
    (hw : (attributeHypergraph relations).IsCover w) :
    1 ≤ coverSize relations w := by
  apply Finset.one_le_prod
  intro i _
  exact Real.one_le_rpow (HyperRelation.one_le_size _) (hw.nonneg i)

end Cover

section Ceiling

theorem toNat_ceilAsU64
    (x : ℝ) :
    (ceilAsU64 x).toNat = min ⌈x⌉₊ u64Max := by
  unfold ceilAsU64
  split_ifs with h
  · have hceil : u64Max ≤ ⌈x⌉₊ := by
      have hle : ((2 ^ 64 : Nat) : ℝ) ≤ x := by
        exact_mod_cast h
      have hnat := Nat.ceil_le_ceil hle
      rw [Nat.ceil_natCast] at hnat
      exact (by decide : u64Max ≤ 2 ^ 64).trans hnat
    rw [toNat_u64Max, Nat.min_eq_right hceil]
  · exact toNat_ofNat_of_le (Nat.min_le_right _ _)

/-- The product bound is the exact product of the row counts, cut off. -/
theorem toNat_rowProduct
    (relations : List HyperRelation) :
    (ProductBound.ceiling
      (relations.map HyperRelation.rows) []).toNat =
      min (∏ i, (relations.get i).rows.toNat) u64Max := by
  have hprod :
      ((relations.map HyperRelation.rows).map UInt64.toNat).prod =
        ∏ i, (relations.get i).rows.toNat := by
    rw [List.map_map]
    exact
      (Fin.prod_univ_fun_getElem relations
        (UInt64.toNat ∘ HyperRelation.rows)).symm
  rw [ProductBound.toNat_ceiling, hprod]

/-- With an exact solver the ceiling is the optimum rounded up, capped. -/
theorem toNat_ceilingHypergraph
    (b : LpJoinBound)
    (solver : CoverProgram → Option (Nat → ℝ))
    {relations : List HyperRelation}
    (hne : relations ≠ [])
    (hopen : relations.all HyperRelation.hasPrivateAttributes = false)
    {x : Nat → ℝ}
    (hsolver : solver (coverProgram relations) = some x)
    (hx : (coverProgram relations).IsOptimal x) :
    (b.ceilingHypergraph solver relations).toNat =
      min
        (min ⌈coverSize relations (fun i => x i.val)⌉₊ u64Max)
        (min (∏ i, (relations.get i).rows.toNat) u64Max) := by
  have hempty : relations.isEmpty = false := by
    rw [List.isEmpty_eq_false_iff]
    exact hne
  have hone := one_le_coverSize ((feasible_iff x).mp hx.1)
  unfold LpJoinBound.ceilingHypergraph LpJoinBound.solveHypergraph
  simp only [hempty, hopen, hsolver, Option.map_some,
    Bool.false_eq_true, if_false]
  rw [toNat_minU64, toNat_ceilAsU64, exp_objective,
    max_eq_left hone, toNat_rowProduct]

/-- With private columns everywhere the ceiling is the product. -/
theorem toNat_ceilingHypergraph_of_all
    (b : LpJoinBound)
    (solver : CoverProgram → Option (Nat → ℝ))
    {relations : List HyperRelation}
    (hne : relations ≠ [])
    (hall : relations.all HyperRelation.hasPrivateAttributes = true) :
    (b.ceilingHypergraph solver relations).toNat =
      min (∏ i, (relations.get i).rows.toNat) u64Max := by
  have hempty : relations.isEmpty = false := by
    rw [List.isEmpty_eq_false_iff]
    exact hne
  unfold LpJoinBound.ceilingHypergraph
  simp only [hempty, hall, Bool.false_eq_true, if_false, if_true]
  exact toNat_rowProduct relations

end Ceiling

/-- A row: the listed attribute values and the private columns. -/
structure HyperRow (κ : Type u) where
  key : AttributeId → Option κ
  extra : List (Option κ)

/-- A finite bag of rows for every relation. -/
structure HyperInstance
    (κ : Type u)
    (relations : List HyperRelation) where
  bag : Fin relations.length → List (HyperRow κ)

namespace HyperInstance

variable {κ : Type u} [DecidableEq κ] {relations : List HyperRelation}

/-- Two relations that share an attribute are joined by equality on it. -/
def Joins
    (inst : HyperInstance κ relations)
    (f : Choice inst.bag) : Prop :=
  ∀ i j, i ≠ j →
    ∀ a ∈ (relations.get i).attributes,
      a ∈ (relations.get j).attributes →
        sqlEq
          (((inst.bag i).get (f i)).key a)
          (((inst.bag j).get (f j)).key a) = true

instance
    (inst : HyperInstance κ relations)
    (f : Choice inst.bag) :
    Decidable (inst.Joins f) :=
  inferInstanceAs (Decidable (∀ i j, i ≠ j → _))

/-- Joined row combinations, duplicate rows counted. -/
def joinSize (inst : HyperInstance κ relations) : Nat :=
  (Finset.univ.filter
    (fun f : Choice inst.bag => inst.Joins f)).card

/-- The bags respect the row counts and the private-column flags. -/
structure Honours (inst : HyperInstance κ relations) : Prop where
  rows_le :
    ∀ i, (inst.bag i).length ≤ (relations.get i).rows.toNat
  extra_eq :
    ∀ i, (relations.get i).hasPrivateAttributes = false →
      ∀ row ∈ inst.bag i, row.extra = []

/-- No relation that the program charges by its attributes repeats a row. -/
def DuplicateFree (inst : HyperInstance κ relations) : Prop :=
  ∀ i, (relations.get i).chargedInFull = false →
    ((inst.bag i).map
      (fun row =>
        ((relations.get i).attributes.map row.key, row.extra))).Nodup

/-- Every combination of rows, joined or not. -/
theorem joinSize_le_prod
    (inst : HyperInstance κ relations)
    (hinst : inst.Honours) :
    inst.joinSize ≤ ∏ i, (relations.get i).rows.toNat := by
  refine (Finset.card_filter_le _ _).trans ?_
  rw [Finset.card_univ, Fintype.card_pi]
  apply Finset.prod_le_prod'
  intro i _
  rw [Fintype.card_fin]
  exact hinst.rows_le i

/-- Joined rows agree on every shared attribute. -/
theorem Joins.key_eq
    {inst : HyperInstance κ relations}
    {f : Choice inst.bag}
    (hf : inst.Joins f)
    {i j : Fin relations.length}
    {a : AttributeId}
    (hi : a ∈ (relations.get i).attributes)
    (hj : a ∈ (relations.get j).attributes) :
    ((inst.bag i).get (f i)).key a =
      ((inst.bag j).get (f j)).key a := by
  by_cases hij : i = j
  · subst hij
    rfl
  · obtain ⟨k, hleft, hright⟩ :=
      (sqlEq_iff _ _).mp (hf i j hij a hi hj)
    rw [hleft, hright]

omit [DecidableEq κ] in
/-- Without private columns, equal listed values mean equal positions. -/
theorem DuplicateFree.eq_of_agree
    {inst : HyperInstance κ relations}
    (hfree : inst.DuplicateFree)
    (hinst : inst.Honours)
    {i : Fin relations.length}
    (hi : (relations.get i).chargedInFull = false)
    {r s : Fin (inst.bag i).length}
    (hagree :
      ∀ a ∈ (relations.get i).attributes,
        ((inst.bag i).get r).key a = ((inst.bag i).get s).key a) :
    r = s := by
  have hprivate :
      (relations.get i).hasPrivateAttributes = false :=
    (Bool.or_eq_false_iff.mp hi).1
  have hextra :
      ∀ t, ((inst.bag i).get t).extra = [] := by
    intro t
    exact hinst.extra_eq i hprivate _ (List.get_mem _ t)
  have hkeys := List.map_congr_left hagree
  have hr := hextra r
  have hs := hextra s
  apply Fin.ext
  apply (List.getElem?_inj (by simp) (hfree i hi)).mp
  simp only [List.get_eq_getElem] at hkeys hr hs
  simp only [List.getElem?_map, Fin.is_lt, List.getElem?_eq_getElem,
    List.get_eq_getElem, Option.map_some, hkeys, hr, hs]

/-- Without repeated rows the joined combinations obey every cover. -/
theorem joinSize_le_coverSize
    (inst : HyperInstance κ relations)
    (hinst : inst.Honours)
    (hfree : inst.DuplicateFree)
    {w : Fin relations.length → ℝ}
    (hw : (attributeHypergraph relations).IsCover w) :
    (inst.joinSize : ℝ) ≤ coverSize relations w := by
  have hcover :=
    hw.card_le_prod_rpow
      (relations.flatMap HyperRelation.attributes)
      (fun i a (r : Fin (inst.bag i).length) =>
        ((inst.bag i).get r).key a)
      (Finset.univ.filter
        (fun f : Choice inst.bag => inst.Joins f))
      (fun _ => Finset.univ)
      (fun _ _ _ => Finset.mem_univ _)
      (by
        intro f hf i j a hi hj
        exact (Finset.mem_filter.mp hf).2.key_eq hi hj)
      (by
        intro i hi r _ s _ hagree
        exact
          hfree.eq_of_agree hinst (Bool.eq_false_iff.mpr hi)
            (fun a ha =>
              hagree a
                (List.mem_flatMap.mpr
                  ⟨_, List.get_mem relations i, ha⟩) ha))
  refine hcover.trans ?_
  unfold coverSize
  apply Finset.prod_le_prod
  · intro i _
    exact Real.rpow_nonneg (Nat.cast_nonneg _) _
  · intro i _
    apply Real.rpow_le_rpow (Nat.cast_nonneg _)
    · rw [Finset.card_univ, Fintype.card_fin]
      refine le_trans ?_ (le_max_left _ _)
      exact_mod_cast hinst.rows_le i
    · exact hw.nonneg i

/-- Bags full of one and the same row. -/
def constant
    (relations : List HyperRelation)
    (k : κ) : HyperInstance κ relations where
  bag i :=
    List.replicate (relations.get i).rows.toNat ⟨fun _ => some k, []⟩

omit [DecidableEq κ] in
theorem constant_honours
    (relations : List HyperRelation)
    (k : κ) :
    (constant relations k).Honours where
  rows_le := by
    intro i
    exact (List.length_replicate).le
  extra_eq := by
    intro i _ row hrow
    rw [List.eq_of_mem_replicate hrow]

/-- Identical rows join in every combination. -/
theorem constant_joinSize
    (relations : List HyperRelation)
    (k : κ) :
    (constant relations k).joinSize =
      ∏ i, (relations.get i).rows.toNat := by
  have hjoins :
      ∀ f : Choice (constant relations k).bag,
        (constant relations k).Joins f := by
    intro f i j _ a _ _
    have hkey :
        ∀ l, (((constant relations k).bag l).get (f l)).key a =
          some k := by
      intro l
      have hrow :=
        List.eq_of_mem_replicate
          (List.get_mem ((constant relations k).bag l) (f l))
      rw [hrow]
    rw [hkey i, hkey j]
    exact (sqlEq_iff _ _).mpr ⟨k, rfl, rfl⟩
  unfold joinSize
  rw [Finset.filter_true_of_mem (fun f _ => hjoins f),
    Finset.card_univ, Fintype.card_pi]
  apply Finset.prod_congr rfl
  intro i _
  rw [Fintype.card_fin]
  exact List.length_replicate

end HyperInstance

section Soundness

variable {relations : List HyperRelation}

/--
The ceiling loses nothing against the product: an empty relation, or no
relation of two or more rows that some cover could leave out, or no cover
below the largest `u64`.
-/
def SoundForBags (relations : List HyperRelation) : Prop :=
  (∃ i, (relations.get i).rows.toNat = 0) ∨
  (∀ i, 2 ≤ (relations.get i).rows.toNat →
    (attributeHypergraph relations).Pinned i) ∨
  ∀ w, (attributeHypergraph relations).IsCover w →
    ((u64Max - 1 : Nat) : ℝ) < coverSize relations w

/-- Without an empty relation the sizes are the row counts. -/
theorem prod_size_eq
    (hrows : ∀ i, (relations.get i).rows.toNat ≠ 0) :
    ∏ i, (relations.get i).size =
      ((∏ i, (relations.get i).rows.toNat : Nat) : ℝ) := by
  rw [Nat.cast_prod]
  apply Finset.prod_congr rfl
  intro i _
  have hpos : 1 ≤ (relations.get i).rows.toNat :=
    Nat.one_le_iff_ne_zero.mpr (hrows i)
  apply max_eq_left
  exact_mod_cast hpos

/-- Where every larger relation is pinned, no cover is below the product. -/
theorem prod_rows_le_coverSize
    (hpinned :
      ∀ i, 2 ≤ (relations.get i).rows.toNat →
        (attributeHypergraph relations).Pinned i)
    {w : Fin relations.length → ℝ}
    (hw : (attributeHypergraph relations).IsCover w) :
    ((∏ i, (relations.get i).rows.toNat : Nat) : ℝ) ≤
      coverSize relations w := by
  have hlarge :
      ∀ i, 1 < (relations.get i).size →
        (attributeHypergraph relations).Pinned i := by
    intro i hi
    apply hpinned i
    rcases lt_max_iff.mp hi with hrows | hone
    · exact_mod_cast hrows
    · exact absurd hone (lt_irrefl 1)
  have hprod :=
    hw.prod_le_prod_rpow
      (fun i => HyperRelation.one_le_size (relations.get i)) hlarge
  refine le_trans ?_ hprod
  rw [Nat.cast_prod]
  apply Finset.prod_le_prod
  · intro i _
    exact Nat.cast_nonneg _
  · intro i _
    exact le_max_left _ _

/-- A relation that is not pinned can be left out of the cheapest cover. -/
theorem two_mul_coverSize_le
    (hrows : ∀ i, (relations.get i).rows.toNat ≠ 0)
    {i : Fin relations.length}
    (htwo : 2 ≤ (relations.get i).rows.toNat)
    (hopen : ¬ (attributeHypergraph relations).Pinned i)
    {x : Nat → ℝ}
    (hx : (coverProgram relations).IsOptimal x) :
    2 * coverSize relations (fun i => x i.val) ≤
      ((∏ i, (relations.get i).rows.toNat : Nat) : ℝ) := by
  have hle := hx.coverSize_le (Hypergraph.isCover_allBut hopen)
  have hdrop :=
    Hypergraph.mul_prod_rpow_allBut
      (fun j => (relations.get j).size) i
  have hsize : (2 : ℝ) ≤ (relations.get i).size := by
    apply le_max_of_le_left
    exact_mod_cast htwo
  have hone := one_le_coverSize ((feasible_iff x).mp hx.1)
  calc
    2 * coverSize relations (fun i => x i.val)
        ≤ (relations.get i).size *
            coverSize relations (fun i => x i.val) := by
      apply mul_le_mul_of_nonneg_right hsize
      linarith
    _ ≤ (relations.get i).size *
          coverSize relations (Hypergraph.allBut i) := by
      apply mul_le_mul_of_nonneg_left hle
      linarith
    _ = ∏ j, (relations.get j).size := hdrop
    _ = ((∏ i, (relations.get i).rows.toNat : Nat) : ℝ) :=
      prod_size_eq hrows

/-- The optimum, rounded up, reaches the product exactly under the condition. -/
theorem prod_le_ceil_iff
    {x : Nat → ℝ}
    (hx : (coverProgram relations).IsOptimal x) :
    min (∏ i, (relations.get i).rows.toNat) u64Max ≤
        ⌈coverSize relations (fun i => x i.val)⌉₊ ↔
      SoundForBags relations := by
  have hcover := (feasible_iff x).mp hx.1
  constructor
  · intro hle
    by_contra hnot
    unfold SoundForBags at hnot
    push Not at hnot
    obtain ⟨hrows, ⟨i, htwo, hopen⟩, w, hw, hsmall⟩ := hnot
    have hhalf := two_mul_coverSize_le hrows htwo hopen hx
    have hopt := hx.coverSize_le hw
    have hone := one_le_coverSize hcover
    rcases min_le_iff.mp hle with hprod | hmax
    · have hceil := Nat.ceil_lt_add_one (zero_le_one.trans hone)
      have hcast :
          ((∏ i, (relations.get i).rows.toNat : Nat) : ℝ) ≤
            (⌈coverSize relations (fun i => x i.val)⌉₊ : ℝ) := by
        exact_mod_cast hprod
      linarith
    · have hlt : u64Max - 1 < ⌈coverSize relations (fun i => x i.val)⌉₊ :=
        lt_of_lt_of_le (by decide) hmax
      have hreal := Nat.lt_ceil.mp hlt
      linarith
  · rintro (⟨i, hi⟩ | hpinned | hlarge)
    · rw [Finset.prod_eq_zero (Finset.mem_univ i) hi, Nat.zero_min]
      exact Nat.zero_le _
    · apply min_le_of_left_le
      have hle := prod_rows_le_coverSize hpinned hcover
      exact_mod_cast hle.trans (Nat.le_ceil _)
    · apply min_le_of_right_le
      have hlt := Nat.lt_ceil.mpr (hlarge _ hcover)
      exact Nat.le_of_pred_lt hlt

/-- Where every relation has private columns nothing can be left out. -/
theorem soundForBags_of_all
    (hall : relations.all HyperRelation.hasPrivateAttributes = true) :
    SoundForBags relations := by
  refine Or.inr (Or.inl ?_)
  intro i _
  have hi :=
    List.all_eq_true.mp hall _ (List.get_mem relations i)
  apply Or.inl
  change (relations.get i).chargedInFull = true
  unfold HyperRelation.chargedInFull
  rw [hi, Bool.true_or]

/-- The ceiling reaches the capped product exactly under the condition. -/
theorem prod_le_ceilingHypergraph_iff
    (b : LpJoinBound)
    (solver : CoverProgram → Option (Nat → ℝ))
    (hne : relations ≠ [])
    {x : Nat → ℝ}
    (hsolver : solver (coverProgram relations) = some x)
    (hx : (coverProgram relations).IsOptimal x) :
    min (∏ i, (relations.get i).rows.toNat) u64Max ≤
        (b.ceilingHypergraph solver relations).toNat ↔
      SoundForBags relations := by
  cases hall : relations.all HyperRelation.hasPrivateAttributes with
  | true =>
      rw [toNat_ceilingHypergraph_of_all b solver hne hall]
      exact
        ⟨fun _ => soundForBags_of_all hall, fun _ => Nat.le_refl _⟩
  | false =>
      rw [toNat_ceilingHypergraph b solver hne hall hsolver hx,
        ← prod_le_ceil_iff hx]
      constructor
      · intro h
        exact (h.trans (Nat.min_le_left _ _)).trans (Nat.min_le_left _ _)
      · intro h
        exact
          Nat.le_min.mpr
            ⟨Nat.le_min.mpr ⟨h, Nat.min_le_right _ _⟩, Nat.le_refl _⟩

/-- Identical rows are the worst bags. -/
theorem HyperInstance.forall_joinSize_le_iff
    {κ : Type u} [DecidableEq κ] [Inhabited κ]
    (ceiling : Nat) :
    (∀ inst : HyperInstance κ relations, inst.Honours →
        min inst.joinSize u64Max ≤ ceiling) ↔
      min (∏ i, (relations.get i).rows.toNat) u64Max ≤ ceiling := by
  constructor
  · intro h
    have hworst :=
      h (HyperInstance.constant relations default)
        (HyperInstance.constant_honours relations default)
    rwa [HyperInstance.constant_joinSize] at hworst
  · intro h inst hinst
    exact
      (min_le_min_right _ (inst.joinSize_le_prod hinst)).trans h

/-- Without repeated rows the ceiling is sound. -/
theorem HyperInstance.joinSize_le_ceilingHypergraph
    {κ : Type u} [DecidableEq κ]
    (b : LpJoinBound)
    (solver : CoverProgram → Option (Nat → ℝ))
    (hne : relations ≠ [])
    {x : Nat → ℝ}
    (hsolver : solver (coverProgram relations) = some x)
    (hx : (coverProgram relations).IsOptimal x)
    (inst : HyperInstance κ relations)
    (hinst : inst.Honours)
    (hfree : inst.DuplicateFree) :
    min inst.joinSize u64Max ≤
      (b.ceilingHypergraph solver relations).toNat := by
  have hprod :=
    min_le_min_right u64Max (inst.joinSize_le_prod hinst)
  cases hall : relations.all HyperRelation.hasPrivateAttributes with
  | true =>
      rw [toNat_ceilingHypergraph_of_all b solver hne hall]
      exact hprod
  | false =>
      have hcover :=
        inst.joinSize_le_coverSize hinst hfree ((feasible_iff x).mp hx.1)
      have hceil :
          inst.joinSize ≤
            ⌈coverSize relations (fun i => x i.val)⌉₊ := by
        exact_mod_cast hcover.trans (Nat.le_ceil _)
      rw [toNat_ceilingHypergraph b solver hne hall hsolver hx]
      exact Nat.le_min.mpr ⟨min_le_min_right _ hceil, hprod⟩

end Soundness

/--
**The hypergraph ceiling bounds every bag exactly when it loses nothing against
the product**, and always bounds bags whose projected relations repeat no row.
-/
theorem hypergraph_sound_iff
    {κ : Type u} [DecidableEq κ] [Inhabited κ]
    (b : LpJoinBound)
    (solver : CoverProgram → Option (Nat → ℝ))
    (relations : List HyperRelation)
    (hne : relations ≠ [])
    (hsolver :
      ∃ x, solver (coverProgram relations) = some x ∧
        (coverProgram relations).IsOptimal x) :
    ((∀ inst : HyperInstance κ relations, inst.Honours →
        min inst.joinSize u64Max ≤
          (b.ceilingHypergraph solver relations).toNat) ↔
      SoundForBags relations) ∧
    ∀ inst : HyperInstance κ relations,
      inst.Honours → inst.DuplicateFree →
        min inst.joinSize u64Max ≤
          (b.ceilingHypergraph solver relations).toNat := by
  obtain ⟨x, hsome, hx⟩ := hsolver
  constructor
  · rw [HyperInstance.forall_joinSize_le_iff]
    exact prod_le_ceilingHypergraph_iff b solver hne hsome hx
  · intro inst hinst hfree
    exact
      inst.joinSize_le_ceilingHypergraph b solver hne hsome hx
        hinst hfree

section SharedKeyPair

/-- Two projected relations of two rows on one attribute. -/
def sharedKeyPair : List HyperRelation :=
  [HyperRelation.projected 2 [0], HyperRelation.projected 2 [0]]

/-- All the weight on the first relation. -/
def firstOnly (i : Nat) : ℝ :=
  if i = 0 then 1 else 0

theorem sharedKeyPair_constraints :
    (coverProgram sharedKeyPair).constraints = [[0, 1]] := by
  decide +kernel

theorem sharedKeyPair_size
    (i : Fin sharedKeyPair.length) :
    (sharedKeyPair.get i).size = 2 := by
  have hrows :
      ∀ i : Fin sharedKeyPair.length,
        (sharedKeyPair.get i).rows.toNat = 2 := by
    decide
  unfold HyperRelation.size
  rw [hrows i]
  norm_num

theorem sharedKeyPair_objective
    (y : Nat → ℝ) :
    (coverProgram sharedKeyPair).objective y =
      Real.log 2 * y 0 + Real.log 2 * y 1 := by
  have hrows : (2 : UInt64).toNat = 2 := rfl
  have hcoefficient :
      (HyperRelation.projected 2 [0]).coefficient = Real.log 2 := by
    unfold HyperRelation.coefficient HyperRelation.projected
    norm_num [hrows]
  unfold CoverProgram.objective coverProgram sharedKeyPair
  simp [hcoefficient]

/-- The one constraint is met with equality. -/
theorem firstOnly_isOptimal :
    (coverProgram sharedKeyPair).IsOptimal firstOnly := by
  refine ⟨⟨?_, ?_⟩, ?_⟩
  · intro i _
    unfold firstOnly
    split_ifs
    · exact zero_le_one
    · exact le_rfl
  · intro lhs hlhs
    rw [sharedKeyPair_constraints, List.mem_singleton] at hlhs
    subst hlhs
    simp [firstOnly]
  · intro y hy
    have hcovered := hy.geq_one [0, 1]
    rw [sharedKeyPair_constraints] at hcovered
    have hsum : 1 ≤ y 0 + y 1 := by
      simpa using hcovered
    have hlog : 0 ≤ Real.log 2 :=
      Real.log_nonneg one_le_two
    rw [sharedKeyPair_objective, sharedKeyPair_objective]
    calc
      Real.log 2 * firstOnly 0 + Real.log 2 * firstOnly 1
          = Real.log 2 * 1 := by
        simp [firstOnly]
      _ ≤ Real.log 2 * (y 0 + y 1) :=
        mul_le_mul_of_nonneg_left hsum hlog
      _ = Real.log 2 * y 0 + Real.log 2 * y 1 := by
        ring

/--
The key 1 in all rows of both relations: four joined combinations, but the
exactly solved ceiling is two.
-/
theorem sharedKeyPair_exceeds_ceiling :
    (coverProgram sharedKeyPair).IsOptimal firstOnly ∧
      (HyperInstance.constant sharedKeyPair 1).Honours ∧
      min (HyperInstance.constant sharedKeyPair 1).joinSize u64Max = 4 ∧
      ((LpJoinBound.mk []).ceilingHypergraph
        (fun _ => some firstOnly) sharedKeyPair).toNat = 2 := by
  refine
    ⟨firstOnly_isOptimal, HyperInstance.constant_honours _ _, ?_, ?_⟩
  · rw [HyperInstance.constant_joinSize]
    decide
  · have hsize :
        coverSize sharedKeyPair (fun i => firstOnly i.val) = 2 := by
      unfold coverSize
      simp only [sharedKeyPair_size]
      change ∏ i : Fin 2, (2 : ℝ) ^ firstOnly i.val = 2
      simp [firstOnly]
    rw [toNat_ceilingHypergraph (LpJoinBound.mk [])
      (fun _ => some firstOnly) (by decide) (by decide) rfl
      firstOnly_isOptimal, hsize]
    have hceil : ⌈(2 : ℝ)⌉₊ = 2 := Nat.ceil_ofNat 2
    rw [hceil]
    decide

/-- The keys 1 and 2 in both relations. -/
def twoKeys : HyperInstance Nat sharedKeyPair where
  bag _ := [⟨fun _ => some 1, []⟩, ⟨fun _ => some 2, []⟩]

theorem twoKeys_honours : twoKeys.Honours where
  rows_le := by
    decide
  extra_eq := by
    intro i _ row hrow
    simp only [twoKeys, List.mem_cons, List.not_mem_nil,
      or_false] at hrow
    rcases hrow with rfl | rfl <;> rfl

theorem twoKeys_duplicateFree : twoKeys.DuplicateFree := by
  unfold HyperInstance.DuplicateFree
  decide

/-- Without a repeated row the ceiling of the pair holds. -/
theorem hypergraph_sound_iff_twoKeys :
    min twoKeys.joinSize u64Max ≤
      ((LpJoinBound.mk []).ceilingHypergraph
        (fun _ => some firstOnly) sharedKeyPair).toNat :=
  (hypergraph_sound_iff (LpJoinBound.mk [])
    (fun _ => some firstOnly) sharedKeyPair (by decide)
    ⟨firstOnly, rfl, firstOnly_isOptimal⟩).2
    twoKeys twoKeys_honours twoKeys_duplicateFree

end SharedKeyPair

end Samkhya
