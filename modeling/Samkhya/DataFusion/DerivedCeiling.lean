import Mathlib
import Samkhya.DataFusion.Plan

/-!
# The ceiling derived from a join input's own shape

`derive_input_ceiling` claims a ceiling for two shapes: the product of the
published row counts of a join's children, and the published row count of a
filter's child.  `Emits` says what these operators may emit over bags of child
rows under standard SQL semantics.

The product is no ceiling for the join types that keep unmatched rows when the
other side may be empty, or has a single row: `derivedCeiling_iff` gives the
exact condition on the published counts.
-/

namespace Samkhya

open Saturating BagJoin

variable {ο χ : Type}

/-- Rows that a child publishes. -/
def publishedRows
    (engine : Engine ο χ)
    (child : Plan ο χ) : Option UInt64 :=
  precisionValue (child.statistics engine).numRows

/-- The product loop; a child without a row count ends it. -/
def productOfRows
    (engine : Engine ο χ)
    (children : List (Plan ο χ)) : Option UInt64 :=
  children.foldlM
    (fun product child =>
      (publishedRows engine child).map (saturatingMulU64 product))
    1

/-- The ceiling before the saturation check, for the two accepted shapes. -/
def shapeCeiling
    (engine : Engine ο χ)
    (plan : Plan ο χ) : Option UInt64 :=
  let children := plan.children
  if plan.isJoin ∧ ¬ children.isEmpty then
    productOfRows engine children
  else if plan.isFilter ∧ children.length = 1 then
    children.head?.bind (publishedRows engine)
  else
    none

/-- Provable ceiling claimed for a composite input. -/
def deriveInputCeiling
    (engine : Engine ο χ)
    (plan : Plan ο χ) : Option UInt64 :=
  match shapeCeiling engine plan with
  | none => none
  | some ceiling =>
      if ceiling < UInt64.ofNat u64Max then
        some ceiling
      else
        none

/-- SQL join type of an operator with a join condition. -/
def OperatorKind.joinType : OperatorKind → Option JoinType
  | hashJoin t => some t
  | nestedLoopJoin t => some t
  | symmetricHashJoin t => some t
  | sortMergeJoin t => some t
  | crossJoin => none
  | filter => none
  | other => none

/-- Numbers of rows that an operator may emit over bags of child rows. -/
inductive Emits : OperatorKind → List Nat → Nat → Prop
  | join
      {kind : OperatorKind}
      {t : JoinType}
      (hkind : kind.joinType = some t)
      {α β : Type}
      (cond : α → β → Bool)
      (left : List α)
      (right : List β) :
      Emits kind [left.length, right.length]
        (rows t cond left right).length
  | cross
      {α β : Type}
      (left : List α)
      (right : List β) :
      Emits .crossJoin [left.length, right.length]
        (rows .inner (fun _ _ => true) left right).length
  | filter
      {α : Type}
      (keep : α → Bool)
      (input : List α) :
      Emits .filter [input.length] (input.filter keep).length

/-- Every child publishes a row count, and really emits at most that many. -/
def PublishedAtLeast
    (engine : Engine ο χ)
    (children : List (Plan ο χ))
    (emitted : List Nat) : Prop :=
  List.Forall₂
    (fun child n =>
      ∃ r, publishedRows engine child = some r ∧ n ≤ r.toNat)
    children emitted

/--
The promise of a derived ceiling: it is at least what the node emits, so that
clamping a sufficient proposal to it stays sufficient.
-/
def CeilingProvable
    (engine : Engine ο χ)
    (op : Operator ο)
    (children : List (Plan ο χ)) : Prop :=
  ∀ (emitted : List Nat) (n : Nat),
    Emits op.kind emitted n →
    PublishedAtLeast engine children emitted →
    ∀ c, deriveInputCeiling engine (.node op children) = some c →
      n ≤ c.toNat ∧
        ∀ proposed : UInt64, n ≤ proposed.toNat →
          n ≤ (min proposed c).toNat

/--
The published counts for which the product is a ceiling: none for filters,
cross joins and joins that only emit matched rows; a non-empty other side for
joins that keep one side's unmatched rows; at least two rows on both sides for
full joins.  A product that saturates claims nothing.
-/
def CeilingCondition
    (engine : Engine ο χ)
    (op : Operator ο)
    (children : List (Plan ο χ)) : Prop :=
  ∀ t, op.kind.joinType = some t →
    ∀ left right l r,
      children = [left, right] →
      publishedRows engine left = some l →
      publishedRows engine right = some r →
      u64Max ≤ l.toNat * r.toNat ∨
        FitsProduct l.toNat r.toNat t

section Derivation

variable (engine : Engine ο χ)

/-- The product of two children. -/
theorem productOfRows_pair
    {left right : Plan ο χ}
    {l r : UInt64}
    (hl : publishedRows engine left = some l)
    (hr : publishedRows engine right = some r) :
    ∃ p, productOfRows engine [left, right] = some p ∧
      p.toNat = min (l.toNat * r.toNat) u64Max := by
  refine
    ⟨saturatingMulU64 (saturatingMulU64 1 l) r, ?_, ?_⟩
  · simp [productOfRows, hl, hr]
  · have hbound := toNat_le_u64Max l
    simp only [toNat_saturatingMulU64, satMul, UInt64.toNat_one,
      Nat.one_mul]
    rw [Nat.min_eq_left hbound]

/-- A derived ceiling is the shape's ceiling below `u64::MAX`. -/
theorem deriveInputCeiling_eq_some
    {plan : Plan ο χ}
    {c : UInt64} :
    deriveInputCeiling engine plan = some c ↔
      shapeCeiling engine plan = some c ∧ c.toNat < u64Max := by
  have hlt :
      ∀ x : UInt64, x < UInt64.ofNat u64Max ↔ x.toNat < u64Max := by
    intro x
    rw [UInt64.lt_iff_toNat_lt, toNat_u64Max]
  unfold deriveInputCeiling
  cases shapeCeiling engine plan with
  | none =>
      simp
  | some ceiling =>
      simp only [hlt, Option.some.injEq]
      split_ifs with h
      · rw [Option.some.injEq]
        constructor
        · rintro rfl
          exact ⟨rfl, h⟩
        · exact And.left
      · constructor
        · intro hnone
          cases hnone
        · rintro ⟨rfl, hc⟩
          exact absurd hc h

/-- What a join of two children claims. -/
theorem deriveInputCeiling_join
    {op : Operator ο}
    {left right : Plan ο χ}
    {l r : UInt64}
    (hjoin : op.kind.isJoin = true)
    (hl : publishedRows engine left = some l)
    (hr : publishedRows engine right = some r)
    (c : UInt64) :
    deriveInputCeiling engine (.node op [left, right]) = some c ↔
      l.toNat * r.toNat < u64Max ∧
        c.toNat = l.toNat * r.toNat := by
  obtain ⟨p, hp, hvalue⟩ := productOfRows_pair engine hl hr
  have hshape :
      shapeCeiling engine (.node op [left, right]) = some p := by
    unfold shapeCeiling
    rw [if_pos ⟨hjoin, by simp [Plan.children]⟩]
    exact hp
  rw [deriveInputCeiling_eq_some, hshape, Option.some.injEq]
  constructor
  · rintro ⟨rfl, hlt⟩
    omega
  · rintro ⟨hlt, hc⟩
    refine ⟨?_, by omega⟩
    rw [← UInt64.toNat_inj, hvalue, hc]
    omega

/-- What a filter claims. -/
theorem deriveInputCeiling_filter
    {op : Operator ο}
    {child : Plan ο χ}
    {r c : UInt64}
    (hfilter : op.kind = .filter)
    (hr : publishedRows engine child = some r)
    (h :
      deriveInputCeiling engine (.node op [child]) = some c) :
    c = r := by
  have hshape :
      shapeCeiling engine (.node op [child]) = some r := by
    unfold shapeCeiling
    rw [if_neg (by simp [Plan.isJoin, hfilter, OperatorKind.isJoin]),
      if_pos (by simp [Plan.isFilter, hfilter, Plan.children])]
    exact hr
  have hclaim := (deriveInputCeiling_eq_some engine).mp h
  rw [hshape] at hclaim
  exact (Option.some.inj hclaim.1).symm

/-- A ceiling on the output also bounds every clamped sufficient proposal. -/
theorem le_min_of_le
    {n : Nat}
    {c : UInt64}
    (hn : n ≤ c.toNat) :
    n ≤ c.toNat ∧
      ∀ proposed : UInt64, n ≤ proposed.toNat →
        n ≤ (min proposed c).toNat := by
  refine ⟨hn, ?_⟩
  intro proposed hproposed
  rw [toNat_minU64]
  exact Nat.le_min.mpr ⟨hproposed, hn⟩

theorem isJoin_of_joinType
    {kind : OperatorKind}
    {t : JoinType}
    (h : kind.joinType = some t) :
    kind.isJoin = true := by
  cases kind <;> first | rfl | cases h

/-- The condition is enough, for every shape. -/
theorem ceilingProvable_of_condition
    {op : Operator ο}
    {children : List (Plan ο χ)}
    (hcond : CeilingCondition engine op children) :
    CeilingProvable engine op children := by
  obtain ⟨kind, detail⟩ := op
  intro emitted n hemits hpublished c hc
  apply le_min_of_le
  cases hemits with
  | @join kind t hkind α β cond xs ys =>
      cases hpublished with
      | @cons left _ lefts _ hleft hrest =>
          cases hrest with
          | @cons right _ rights _ hright hnil =>
              cases hnil
              obtain ⟨l, hl, hxs⟩ := hleft
              obtain ⟨r, hr, hys⟩ := hright
              obtain ⟨hlt, hvalue⟩ :=
                (deriveInputCeiling_join engine
                  (isJoin_of_joinType hkind) hl hr c).mp hc
              rcases hcond t hkind left right l r rfl hl hr
                with hsat | hfits
              · omega
              · rw [hvalue]
                exact length_rows_le_mul t cond hxs hys hfits
  | @cross α β xs ys =>
      cases hpublished with
      | @cons left _ lefts _ hleft hrest =>
          cases hrest with
          | @cons right _ rights _ hright hnil =>
              cases hnil
              obtain ⟨l, hl, hxs⟩ := hleft
              obtain ⟨r, hr, hys⟩ := hright
              obtain ⟨_, hvalue⟩ :=
                (deriveInputCeiling_join engine rfl hl hr c).mp hc
              rw [hvalue]
              exact
                length_rows_le_mul .inner _ hxs hys trivial
  | @filter α keep input =>
      cases hpublished with
      | @cons child _ rest _ hchild hnil =>
          cases hnil
          obtain ⟨r, hr, hinput⟩ := hchild
          rw [deriveInputCeiling_filter engine rfl hr hc]
          exact (List.length_filter_le _ _).trans hinput

/-- The condition is necessary: its failures have bags that exceed the claim. -/
theorem condition_of_ceilingProvable
    {op : Operator ο}
    {children : List (Plan ο χ)}
    (hprovable : CeilingProvable engine op children) :
    CeilingCondition engine op children := by
  intro t hkind left right l r hchildren hl hr
  subst hchildren
  by_cases hsat : u64Max ≤ l.toNat * r.toNat
  · exact Or.inl hsat
  refine Or.inr ((length_rows_le_mul_iff t _ _).mp ?_)
  intro α β cond xs ys hxs hys
  have hfit : l.toNat * r.toNat ≤ u64Max :=
    (Nat.lt_of_not_le hsat).le
  have hclaim :=
    (deriveInputCeiling_join engine (isJoin_of_joinType hkind) hl hr
      (UInt64.ofNat (l.toNat * r.toNat))).mpr
      ⟨Nat.lt_of_not_le hsat, toNat_ofNat_of_le hfit⟩
  have hbound :=
    (hprovable [xs.length, ys.length] _
      (Emits.join hkind cond xs ys)
      (List.Forall₂.cons ⟨l, hl, hxs⟩
        (List.Forall₂.cons ⟨r, hr, hys⟩ List.Forall₂.nil))
      _ hclaim).1
  rwa [toNat_ofNat_of_le hfit] at hbound

end Derivation

/--
**When a derived ceiling is provable.**  For every operator the derivation
accepts, over all child bags, join conditions and filters.
-/
theorem derivedCeiling_iff
    (engine : Engine ο χ)
    (op : Operator ο)
    (children : List (Plan ο χ)) :
    CeilingProvable engine op children ↔
      CeilingCondition engine op children :=
  ⟨condition_of_ceilingProvable engine,
    ceilingProvable_of_condition engine⟩

section EmptyBuildSide

/-- Operators that publish as many rows as their detail says. -/
def countingEngine : Engine UInt64 Empty where
  statistics op _ :=
    { numRows := .exact op.detail
      totalByteSize := .absent
      columnStatistics := [] }

/-- A scan with a published row count. -/
def scan (rows : UInt64) : Plan UInt64 Empty :=
  .node ⟨.other, rows⟩ []

/-- A left join of three rows with an empty side emits three rows, not zero. -/
theorem leftJoin_exceeds_ceiling :
    deriveInputCeiling countingEngine
        (.node ⟨.hashJoin .left, 0⟩ [scan 3, scan 0]) = some 0 ∧
      Emits (.hashJoin .left) [3, 0] 3 ∧
      ¬ CeilingProvable countingEngine ⟨.hashJoin .left, 0⟩
        [scan 3, scan 0] := by
  have hclaim :
      deriveInputCeiling countingEngine
        (.node ⟨.hashJoin .left, 0⟩ [scan 3, scan 0]) = some 0 := by
    decide +kernel
  have hemits : Emits (.hashJoin .left) [3, 0] 3 :=
    Emits.join (t := .left) rfl (fun _ _ => false) [(), (), ()]
      ([] : List Unit)
  refine ⟨hclaim, hemits, ?_⟩
  intro hprovable
  have hpublished :
      PublishedAtLeast countingEngine [scan 3, scan 0] [3, 0] :=
    List.Forall₂.cons ⟨3, rfl, by decide⟩
      (List.Forall₂.cons ⟨0, rfl, by decide⟩ List.Forall₂.nil)
  have hbound := (hprovable _ _ hemits hpublished 0 hclaim).1
  exact absurd hbound (by decide)

end EmptyBuildSide

end Samkhya
