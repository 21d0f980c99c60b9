import Mathlib
import Samkhya.DataFusion.PlanShape

/-!
# The features that the runner records

`extract_features` walks a plan once in pre-order.  It counts joins and
filters and takes row counts and distinct counts from the inputs of the first
join it meets.  The rule of the optimizer computes features of the same names
by recursions of its own.
-/

namespace Samkhya

open Saturating

/-- Four of the join operators; the symmetric hash join is not among them. -/
def OperatorKind.isCountedJoin : OperatorKind → Bool
  | hashJoin _ => true
  | nestedLoopJoin _ => true
  | crossJoin => true
  | sortMergeJoin _ => true
  | symmetricHashJoin _ => false
  | filter => false
  | other => false

namespace Plan

variable {ο χ : Type}

def isCountedJoin : Plan ο χ → Bool
  | node op _ => op.kind.isCountedJoin
  | statsExec _ _ => false

/-- A join that the walk passes over. -/
def isSymmetricJoin (plan : Plan ο χ) : Bool :=
  plan.isJoin && !plan.isCountedJoin

end Plan

namespace Bench

variable {ο χ : Type}

/-- The column loop of `side_stats`. -/
def addDistinct
    (sum : UInt64 × Bool)
    (column : ColumnStatistics χ) : UInt64 × Bool :=
  match column.distinctCount with
  | .exact n => (saturatingAddU64 sum.1 n, true)
  | .inexact n => (saturatingAddU64 sum.1 n, true)
  | .absent => sum

/-- Rows and summed distinct counts of one input. -/
def sideStats
    (engine : Engine ο χ)
    (plan : Plan ο χ) : Option UInt64 × Option UInt64 :=
  let stats := plan.statistics engine
  let rows := precisionValue stats.numRows
  let sum := stats.columnStatistics.foldl addDistinct (0, false)
  (rows, if sum.2 then some sum.1 else none)

/-- The two mutable arguments of `walk_plan`. -/
structure Walk where
  features : CorrectionFeatures
  outermostJoinSeen : Bool

def setLeft
    (engine : Engine ο χ)
    (side : Option (Plan ο χ))
    (features : CorrectionFeatures) : CorrectionFeatures :=
  match side with
  | some left =>
      { features with
        leftInputRows := (sideStats engine left).1
        leftDistinct := (sideStats engine left).2 }
  | none => features

def setRight
    (engine : Engine ο χ)
    (side : Option (Plan ο χ))
    (features : CorrectionFeatures) : CorrectionFeatures :=
  match side with
  | some right =>
      { features with
        rightInputRows := (sideStats engine right).1
        rightDistinct := (sideStats engine right).2 }
  | none => features

/-- `walk_plan` up to its recursive calls: the join branch. -/
def visitJoin
    (engine : Engine ο χ)
    (plan : Plan ο χ)
    (walk : Walk) : Walk :=
  if plan.isCountedJoin then
    let features :=
      { walk.features with
        joinDepth := saturatingAddU32 walk.features.joinDepth 1 }
    if !walk.outermostJoinSeen then
      { features :=
          setRight engine plan.children[1]?
            (setLeft engine plan.children[0]? features)
        outermostJoinSeen := true }
    else
      { walk with features := features }
  else
    walk

/-- `walk_plan` up to its recursive calls: the filter branch. -/
def visitFilter
    (plan : Plan ο χ)
    (walk : Walk) : Walk :=
  if plan.isFilter then
    { walk with
      features :=
        { walk.features with
          predicateCount :=
            saturatingAddU32 walk.features.predicateCount 1 } }
  else
    walk

def visit
    (engine : Engine ο χ)
    (walk : Walk)
    (plan : Plan ο χ) : Walk :=
  visitFilter plan (visitJoin engine plan walk)

/-- A node before its children, and those from left to right. -/
def walkPlan
    (engine : Engine ο χ) : Plan ο χ → Walk → Walk
  | .node op children => fun walk =>
      (children.map (walkPlan engine)).foldl
        (fun walk walkChild => walkChild walk)
        (visit engine walk (.node op children))
  | .statsExec input stats => fun walk =>
      walkPlan engine input (visit engine walk (.statsExec input stats))

def Walk.start (baselineEstimate : UInt64) : Walk where
  features :=
    { baselineEstimate := baselineEstimate
      leftInputRows := none
      rightInputRows := none
      leftDistinct := none
      rightDistinct := none
      predicateCount := 0
      joinDepth := 0 }
  outermostJoinSeen := false

def extractFeatures
    (engine : Engine ο χ)
    (plan : Plan ο χ)
    (baselineEstimate : UInt64) : CorrectionFeatures :=
  (walkPlan engine plan (Walk.start baselineEstimate)).features

/-- The loop over the children, when each of them is met in pre-order. -/
theorem foldl_walkPlan
    (engine : Engine ο χ)
    (children : List (Plan ο χ))
    (walk : Walk)
    (hchildren :
      ∀ child ∈ children, ∀ walk,
        walkPlan engine child walk =
          child.nodes.foldl (visit engine) walk) :
    (children.map (walkPlan engine)).foldl
        (fun walk walkChild => walkChild walk) walk =
      (children.map Plan.nodes).flatten.foldl (visit engine) walk := by
  induction children generalizing walk with
  | nil =>
      rfl
  | cons child children ih =>
      have htail :=
        ih (walkPlan engine child walk)
          (fun c hc => hchildren c (List.mem_cons_of_mem _ hc))
      rw [List.map_cons, List.map_cons, List.foldl_cons,
        List.flatten_cons, List.foldl_append, htail]
      rw [hchildren child List.mem_cons_self walk]

/-- The walk meets the nodes of the plan in pre-order. -/
theorem walkPlan_eq_foldl_nodes
    (engine : Engine ο χ)
    (plan : Plan ο χ)
    (walk : Walk) :
    walkPlan engine plan walk = plan.nodes.foldl (visit engine) walk := by
  induction plan generalizing walk with
  | node op children ih =>
      simp only [walkPlan, Plan.nodes, List.foldl_cons]
      exact foldl_walkPlan engine children _ ih
  | statsExec input stats ih =>
      simp only [walkPlan, Plan.nodes, List.foldl_cons, ih]

section Counters

@[simp] theorem setLeft_joinDepth
    (engine : Engine ο χ)
    (side : Option (Plan ο χ))
    (features : CorrectionFeatures) :
    (setLeft engine side features).joinDepth = features.joinDepth := by
  cases side <;> rfl

@[simp] theorem setLeft_predicateCount
    (engine : Engine ο χ)
    (side : Option (Plan ο χ))
    (features : CorrectionFeatures) :
    (setLeft engine side features).predicateCount =
      features.predicateCount := by
  cases side <;> rfl

@[simp] theorem setRight_joinDepth
    (engine : Engine ο χ)
    (side : Option (Plan ο χ))
    (features : CorrectionFeatures) :
    (setRight engine side features).joinDepth = features.joinDepth := by
  cases side <;> rfl

@[simp] theorem setRight_predicateCount
    (engine : Engine ο χ)
    (side : Option (Plan ο χ))
    (features : CorrectionFeatures) :
    (setRight engine side features).predicateCount =
      features.predicateCount := by
  cases side <;> rfl

/-- One node raises the join counter by what it is. -/
theorem visit_joinDepth
    (engine : Engine ο χ)
    (walk : Walk)
    (plan : Plan ο χ) :
    (visit engine walk plan).features.joinDepth =
      if plan.isCountedJoin then
        saturatingAddU32 walk.features.joinDepth 1
      else
        walk.features.joinDepth := by
  have hfilter :
      ∀ walk : Walk,
        (visitFilter plan walk).features.joinDepth =
          walk.features.joinDepth := by
    intro walk
    cases h : plan.isFilter <;> simp [visitFilter, h]
  rw [visit, hfilter, visitJoin]
  cases plan.isCountedJoin
  · rfl
  · cases walk.outermostJoinSeen <;> simp

/-- One node raises the filter counter by what it is. -/
theorem visit_predicateCount
    (engine : Engine ο χ)
    (walk : Walk)
    (plan : Plan ο χ) :
    (visit engine walk plan).features.predicateCount =
      if plan.isFilter then
        saturatingAddU32 walk.features.predicateCount 1
      else
        walk.features.predicateCount := by
  have hjoin :
      (visitJoin engine plan walk).features.predicateCount =
        walk.features.predicateCount := by
    rw [visitJoin]
    cases plan.isCountedJoin
    · rfl
    · cases walk.outermostJoinSeen <;> simp
  cases h : plan.isFilter <;> simp [visit, visitFilter, h, hjoin]

/-- A counter that each node raises ends at the number of those nodes. -/
theorem toNat_foldl_visit
    (engine : Engine ο χ)
    (counter : Walk → UInt32)
    (p : Plan ο χ → Bool)
    (hstep :
      ∀ walk plan,
        counter (visit engine walk plan) =
          if p plan then
            saturatingAddU32 (counter walk) 1
          else
            counter walk)
    (nodes : List (Plan ο χ))
    (walk : Walk) :
    (counter (nodes.foldl (visit engine) walk)).toNat =
      min ((counter walk).toNat + nodes.countP p) u32Max := by
  induction nodes generalizing walk with
  | nil =>
      have hle := toNat_le_u32Max (counter walk)
      simpa using hle
  | cons plan nodes ih =>
      rw [List.foldl_cons, ih, hstep, List.countP_cons]
      cases p plan
      · simp
      · simp only [if_true, toNat_saturatingAddU32, satAdd,
          UInt32.toNat_one]
        omega

/-- The recorded join depth is the number of counted joins. -/
theorem toNat_joinDepth_extractFeatures
    (engine : Engine ο χ)
    (plan : Plan ο χ)
    (baselineEstimate : UInt64) :
    (extractFeatures engine plan baselineEstimate).joinDepth.toNat =
      min (plan.nodes.countP Plan.isCountedJoin) u32Max := by
  have hcount :=
    toNat_foldl_visit engine (fun walk => walk.features.joinDepth)
      Plan.isCountedJoin (visit_joinDepth engine)
      plan.nodes (Walk.start baselineEstimate)
  rw [extractFeatures, walkPlan_eq_foldl_nodes, hcount]
  simp [Walk.start]

/-- The recorded predicate count is that of the rule, on every plan. -/
theorem predicateCount_extractFeatures
    (engine : Engine ο χ)
    (plan : Plan ο χ)
    (baselineEstimate : UInt64) :
    (extractFeatures engine plan baselineEstimate).predicateCount =
      plan.countFilters := by
  have hcount :=
    toNat_foldl_visit engine (fun walk => walk.features.predicateCount)
      Plan.isFilter (visit_predicateCount engine)
      plan.nodes (Walk.start baselineEstimate)
  rw [← UInt32.toNat_inj, Plan.toNat_countFilters]
  rw [extractFeatures, walkPlan_eq_foldl_nodes, hcount]
  simp [Walk.start]

end Counters

section Inputs

/-- The four recorded features of the join inputs. -/
def inputsOf (features : CorrectionFeatures) : JoinInputFeatures where
  leftRows := features.leftInputRows
  rightRows := features.rightInputRows
  leftDistinct := features.leftDistinct
  rightDistinct := features.rightDistinct

/-- What the walk records when it stops at a join. -/
def recordedInputs
    (engine : Engine ο χ)
    (join : Option (Plan ο χ)) : JoinInputFeatures :=
  let left := join.bind (fun join => join.children[0]?)
  let right := join.bind (fun join => join.children[1]?)
  { leftRows := left.bind (fun side => (sideStats engine side).1)
    rightRows := right.bind (fun side => (sideStats engine side).1)
    leftDistinct := left.bind (fun side => (sideStats engine side).2)
    rightDistinct := right.bind (fun side => (sideStats engine side).2) }

theorem inputsOf_visitFilter
    (plan : Plan ο χ)
    (walk : Walk) :
    inputsOf (visitFilter plan walk).features =
      inputsOf walk.features := by
  cases h : plan.isFilter <;> simp [visitFilter, h, inputsOf]

theorem outermostJoinSeen_visitFilter
    (plan : Plan ο χ)
    (walk : Walk) :
    (visitFilter plan walk).outermostJoinSeen =
      walk.outermostJoinSeen := by
  cases h : plan.isFilter <;> simp [visitFilter, h]

/-- After the first join nothing changes the inputs. -/
theorem inputsOf_foldl_visit_of_seen
    (engine : Engine ο χ)
    (nodes : List (Plan ο χ))
    (walk : Walk)
    (hseen : walk.outermostJoinSeen = true) :
    inputsOf (nodes.foldl (visit engine) walk).features =
      inputsOf walk.features := by
  induction nodes generalizing walk with
  | nil =>
      rfl
  | cons plan nodes ih =>
      have hjoin :
          (visitJoin engine plan walk).outermostJoinSeen = true ∧
            inputsOf (visitJoin engine plan walk).features =
              inputsOf walk.features := by
        cases h : plan.isCountedJoin <;>
          simp [visitJoin, h, hseen, inputsOf]
      rw [List.foldl_cons, ih, visit, inputsOf_visitFilter, hjoin.2]
      rw [visit, outermostJoinSeen_visitFilter, hjoin.1]

/-- Before the first join the inputs wait for it. -/
theorem inputsOf_foldl_visit
    (engine : Engine ο χ)
    (nodes : List (Plan ο χ))
    (walk : Walk)
    (hseen : walk.outermostJoinSeen = false)
    (hinputs :
      inputsOf walk.features =
        recordedInputs engine (none : Option (Plan ο χ))) :
    inputsOf (nodes.foldl (visit engine) walk).features =
      recordedInputs engine (nodes.find? Plan.isCountedJoin) := by
  induction nodes generalizing walk with
  | nil =>
      exact hinputs
  | cons plan nodes ih =>
      rw [List.foldl_cons, List.find?_cons]
      cases h : plan.isCountedJoin
      · have hjoin : visitJoin engine plan walk = walk := by
          simp [visitJoin, h]
        apply ih
        · rw [visit, outermostJoinSeen_visitFilter, hjoin, hseen]
        · rw [visit, inputsOf_visitFilter, hjoin, hinputs]
      · have hset :
            inputsOf (visitJoin engine plan walk).features =
              recordedInputs engine (some plan) := by
          simp only [inputsOf, recordedInputs, JoinInputFeatures.mk.injEq,
            Option.bind_none] at hinputs
          obtain ⟨hleft, hright, hdleft, hdright⟩ := hinputs
          cases hzero : plan.children[0]? <;>
            cases hone : plan.children[1]? <;>
            simp [visitJoin, h, hseen, inputsOf, recordedInputs, hzero,
              hone, setLeft, setRight, hleft, hright, hdleft, hdright]
        have hnow :
            (visitJoin engine plan walk).outermostJoinSeen = true := by
          simp [visitJoin, h, hseen]
        rw [inputsOf_foldl_visit_of_seen, visit, inputsOf_visitFilter, hset]
        rw [visit, outermostJoinSeen_visitFilter, hnow]

/-- The walk records the inputs of the first counted join in pre-order. -/
theorem inputsOf_extractFeatures
    (engine : Engine ο χ)
    (plan : Plan ο χ)
    (baselineEstimate : UInt64) :
    inputsOf (extractFeatures engine plan baselineEstimate) =
      recordedInputs engine (plan.nodes.find? Plan.isCountedJoin) := by
  rw [extractFeatures, walkPlan_eq_foldl_nodes]
  exact inputsOf_foldl_visit engine plan.nodes _ rfl rfl

end Inputs

section SideStats

/-- The distinct counts that a plan publishes, column by column. -/
def publishedDistinct (stats : Statistics χ) : List UInt64 :=
  stats.columnStatistics.filterMap
    (fun column => precisionValue column.distinctCount)

/-- A sum of the counts that stops at `u64::MAX`, if there are any. -/
def summed (counts : List UInt64) : Option UInt64 :=
  if counts.isEmpty then
    none
  else
    some (counts.foldl saturatingAddU64 0)

/-- The column loop adds up what is published and notes that something is. -/
theorem foldl_addDistinct
    (columns : List (ColumnStatistics χ))
    (sum : UInt64 × Bool) :
    columns.foldl addDistinct sum =
      let counts :=
        columns.filterMap
          (fun column => precisionValue column.distinctCount)
      (counts.foldl saturatingAddU64 sum.1, sum.2 || !counts.isEmpty) := by
  induction columns generalizing sum with
  | nil =>
      simp
  | cons column columns ih =>
      rw [List.foldl_cons, ih]
      cases h : column.distinctCount <;>
        simp [addDistinct, precisionValue, h]

theorem sideStats_eq
    (engine : Engine ο χ)
    (plan : Plan ο χ) :
    sideStats engine plan =
      (precisionValue (plan.statistics engine).numRows,
        summed (publishedDistinct (plan.statistics engine))) := by
  have hsummed :
      ∀ counts : List UInt64,
        (if false || !counts.isEmpty then
            some (counts.foldl saturatingAddU64 0)
          else
            none) =
          summed counts := by
    intro counts
    cases counts <;> rfl
  simp only [sideStats, foldl_addDistinct]
  exact congrArg _ (hsummed _)

/-- The sum of some counts, cut off, is the largest of some others. -/
def AddsUpToLargest (walked served : List UInt64) : Prop :=
  (walked = [] ↔ served = []) ∧
    ∀ largest,
      served.max? = some largest →
        min (walked.map UInt64.toNat).sum u64Max = largest.toNat

theorem summed_eq_max_iff
    (walked served : List UInt64) :
    summed walked = served.max? ↔ AddsUpToLargest walked served := by
  cases hmax : served.max? with
  | none =>
      have hnil := List.max?_eq_none_iff.mp hmax
      cases walked <;> simp [summed, AddsUpToLargest, hnil]
  | some largest =>
      have hne : served ≠ [] := by
        rintro rfl
        simp at hmax
      cases walked with
      | nil =>
          simp [summed, AddsUpToLargest, hne]
      | cons n walked =>
          have hsum :=
            toNat_foldl_saturatingAddU64 (n :: walked) 0
          rw [UInt64.toNat_zero, Nat.zero_add] at hsum
          simp only [summed, List.isEmpty_cons, Bool.false_eq_true,
            if_false, Option.some_inj, AddsUpToLargest, hmax, hne,
            reduceCtorEq, true_and, ← hsum, UInt64.toNat_inj]
          simp

/-- At most one column publishes a positive count, or one `u64::MAX`. -/
def AtMostOneCounts (counts : List UInt64) : Prop :=
  counts.countP (fun n => decide (0 < n.toNat)) ≤ 1 ∨
    UInt64.ofNat u64Max ∈ counts

/-- When the counts add up to the largest of themselves. -/
theorem addsUpToLargest_self_iff
    (counts : List UInt64) :
    AddsUpToLargest counts counts ↔ AtMostOneCounts counts := by
  cases hmax : counts.max? with
  | none =>
      have hnil := List.max?_eq_none_iff.mp hmax
      simp [hnil, AddsUpToLargest, AtMostOneCounts]
  | some largest =>
      have hmem := List.max?_mem hmax
      have hle := (List.max?_le_iff hmax).mp (UInt64.le_refl largest)
      have hsum :=
        min_sum_eq_max_iff
          (List.mem_map_of_mem (f := UInt64.toNat) hmem)
          (fun x hx => by
            obtain ⟨n, hn, rfl⟩ := List.mem_map.mp hx
            exact UInt64.le_iff_toNat_le.mp (hle n hn))
          (toNat_le_u64Max largest)
      have htop :
          u64Max ∈ counts.map UInt64.toNat ↔
            UInt64.ofNat u64Max ∈ counts := by
        constructor
        · intro h
          obtain ⟨n, hn, htoNat⟩ := List.mem_map.mp h
          rw [← htoNat]
          simpa using hn
        · intro h
          exact List.mem_map.mpr ⟨_, h, toNat_u64Max⟩
      rw [List.countP_map, htop] at hsum
      simpa [AddsUpToLargest, AtMostOneCounts, hmax, Function.comp_def]
        using hsum

end SideStats

section Parity

/-- The recorded features are those that the rule serves. -/
def FeatureParity
    (engine : Engine ο χ)
    (plan : Plan ο χ)
    (baselineEstimate : UInt64) : Prop :=
  let features := extractFeatures engine plan baselineEstimate
  features.joinDepth = plan.joinDepth ∧
    features.predicateCount = plan.countFilters ∧
    ∀ join left right,
      plan.nodes.find? Plan.isJoin = some join →
      join.children = [left, right] →
      inputsOf features =
        JoinInputFeatures.new
          (left.statistics engine) (right.statistics engine)

/--
Beside a deepest branch there are as many counted joins as there are
symmetric ones on it; or both numbers are past `u32::MAX`.
-/
def JoinsNest (plan : Plan ο χ) : Prop :=
  (∃ on beside,
    plan.Deepest on beside ∧
      beside.countP Plan.isCountedJoin =
        on.countP Plan.isSymmetricJoin) ∨
    (u32Max ≤ plan.nodes.countP Plan.isCountedJoin ∧
      ∃ on beside,
        plan.Branch on beside ∧ u32Max ≤ on.countP Plan.isJoin)

/-- What the walk reads of an input is what the rule reads of another. -/
def PublishesSame
    (engine : Engine ο χ)
    (walked : Option (Plan ο χ))
    (served : Plan ο χ) : Prop :=
  walked.bind
      (fun side => precisionValue (side.statistics engine).numRows) =
    precisionValue (served.statistics engine).numRows ∧
  AddsUpToLargest
    (walked.elim []
      (fun side => publishedDistinct (side.statistics engine)))
    (publishedDistinct (served.statistics engine))

/--
The first join is a counted one, and on neither input do two columns publish
distinct counts that add up to more than the larger; or it is a symmetric one,
and the inputs of the first counted join publish the same.
-/
def FirstJoinAligned
    (engine : Engine ο χ)
    (plan : Plan ο χ) : Prop :=
  ∀ join left right,
    plan.nodes.find? Plan.isJoin = some join →
    join.children = [left, right] →
    if join.isCountedJoin then
      AtMostOneCounts (publishedDistinct (left.statistics engine)) ∧
        AtMostOneCounts (publishedDistinct (right.statistics engine))
    else
      let counted := plan.nodes.find? Plan.isCountedJoin
      PublishesSame engine
          (counted.bind (fun join => join.children[0]?)) left ∧
        PublishesSame engine
          (counted.bind (fun join => join.children[1]?)) right

theorem isJoin_of_isCountedJoin
    {plan : Plan ο χ}
    (h : plan.isCountedJoin = true) :
    plan.isJoin = true := by
  cases plan with
  | node op children =>
      rcases op with ⟨kind, detail⟩
      cases kind <;> first | rfl | exact absurd h Bool.false_ne_true
  | statsExec input stats =>
      exact absurd h Bool.false_ne_true

/-- A join is a counted one or a symmetric one. -/
theorem countP_isJoin
    (nodes : List (Plan ο χ)) :
    nodes.countP Plan.isJoin =
      nodes.countP Plan.isCountedJoin +
        nodes.countP Plan.isSymmetricJoin := by
  induction nodes with
  | nil =>
      rfl
  | cons plan nodes ih =>
      rw [List.countP_cons, List.countP_cons, List.countP_cons, ih]
      cases hcounted : plan.isCountedJoin
      · cases hjoin : plan.isJoin <;>
          simp [Plan.isSymmetricJoin, hcounted, hjoin, Nat.add_assoc]
      · have hjoin := isJoin_of_isCountedJoin hcounted
        simp [Plan.isSymmetricJoin, hcounted, hjoin]
        omega

/-- The join depths agree exactly when the joins nest. -/
theorem joinDepth_extractFeatures_iff
    (engine : Engine ο χ)
    (plan : Plan ο χ)
    (baselineEstimate : UInt64) :
    (extractFeatures engine plan baselineEstimate).joinDepth =
        plan.joinDepth ↔
      JoinsNest plan := by
  have hwalk :=
    toNat_joinDepth_extractFeatures engine plan baselineEstimate
  rw [← UInt32.toNat_inj, hwalk]
  constructor
  · intro h
    obtain ⟨on, beside, hdeepest⟩ := plan.exists_deepest
    have hsplit := hdeepest.1.countP_nodes Plan.isCountedJoin
    have hon := countP_isJoin on
    rw [hdeepest.toNat_joinDepth] at h
    by_cases hfew : on.countP Plan.isJoin < u32Max
    · exact Or.inl ⟨on, beside, hdeepest, by omega⟩
    · exact Or.inr
        ⟨by omega, on, beside, hdeepest.1, by omega⟩
  · rintro (⟨on, beside, hdeepest, hbeside⟩ | ⟨hmany, on, beside, branch, hon⟩)
    · have hsplit := hdeepest.1.countP_nodes Plan.isCountedJoin
      have hon := countP_isJoin on
      rw [hdeepest.toNat_joinDepth]
      omega
    · have hdepth := branch.min_countP_le_joinDepth
      have hcap := toNat_le_u32Max plan.joinDepth
      omega

/-- One side agrees exactly when it publishes the same. -/
theorem side_eq_iff_publishesSame
    (engine : Engine ο χ)
    (walked : Option (Plan ο χ))
    (served : Plan ο χ) :
    walked.bind (fun side => (sideStats engine side).1) =
          precisionValue (served.statistics engine).numRows ∧
        walked.bind (fun side => (sideStats engine side).2) =
          maxDistinct (served.statistics engine) ↔
      PublishesSame engine walked served := by
  have hmax :
      maxDistinct (served.statistics engine) =
        (publishedDistinct (served.statistics engine)).max? := rfl
  rw [PublishesSame, ← summed_eq_max_iff, hmax]
  cases walked with
  | none => simp [summed]
  | some side => simp [sideStats_eq]

theorem publishesSame_self_iff
    (engine : Engine ο χ)
    (side : Plan ο χ) :
    PublishesSame engine (some side) side ↔
      AtMostOneCounts (publishedDistinct (side.statistics engine)) := by
  simp [PublishesSame, addsUpToLargest_self_iff]

/-- The recorded inputs agree exactly when both sides publish the same. -/
theorem recordedInputs_eq_iff
    (engine : Engine ο χ)
    (counted : Option (Plan ο χ))
    (left right : Plan ο χ) :
    recordedInputs engine counted =
        JoinInputFeatures.new
          (left.statistics engine) (right.statistics engine) ↔
      PublishesSame engine
          (counted.bind (fun join => join.children[0]?)) left ∧
        PublishesSame engine
          (counted.bind (fun join => join.children[1]?)) right := by
  rw [← side_eq_iff_publishesSame, ← side_eq_iff_publishesSame]
  simp only [recordedInputs, JoinInputFeatures.new,
    JoinInputFeatures.mk.injEq]
  constructor
  · rintro ⟨hleft, hright, hdleft, hdright⟩
    exact ⟨⟨hleft, hdleft⟩, hright, hdright⟩
  · rintro ⟨⟨hleft, hdleft⟩, hright, hdright⟩
    exact ⟨hleft, hright, hdleft, hdright⟩

/-- A first join that is counted is the first counted join. -/
theorem find_isCountedJoin_of_isJoin
    {nodes : List (Plan ο χ)}
    {join : Plan ο χ}
    (hfirst : nodes.find? Plan.isJoin = some join)
    (hcounted : join.isCountedJoin = true) :
    nodes.find? Plan.isCountedJoin = some join := by
  rw [List.find?_eq_some_iff_append] at hfirst ⊢
  obtain ⟨_, before, after, hnodes, hbefore⟩ := hfirst
  refine ⟨hcounted, before, after, hnodes, fun node hnode => ?_⟩
  have hnot := hbefore node hnode
  cases h : node.isCountedJoin
  · rfl
  · simp [isJoin_of_isCountedJoin h] at hnot

/--
What is recorded for training is what is served at optimisation exactly when
the joins nest and the first join's inputs are aligned.
-/
theorem featureParity_iff
    (engine : Engine ο χ)
    (plan : Plan ο χ)
    (baselineEstimate : UInt64) :
    FeatureParity engine plan baselineEstimate ↔
      JoinsNest plan ∧ FirstJoinAligned engine plan := by
  have hinputs := inputsOf_extractFeatures engine plan baselineEstimate
  have hpredicates :=
    predicateCount_extractFeatures engine plan baselineEstimate
  have hside :
      ∀ join left right,
        plan.nodes.find? Plan.isJoin = some join →
        join.children = [left, right] →
        (inputsOf (extractFeatures engine plan baselineEstimate) =
            JoinInputFeatures.new
              (left.statistics engine) (right.statistics engine) ↔
          if join.isCountedJoin then
            AtMostOneCounts (publishedDistinct (left.statistics engine)) ∧
              AtMostOneCounts
                (publishedDistinct (right.statistics engine))
          else
            let counted := plan.nodes.find? Plan.isCountedJoin
            PublishesSame engine
                (counted.bind (fun join => join.children[0]?)) left ∧
              PublishesSame engine
                (counted.bind (fun join => join.children[1]?)) right) := by
    intro join left right hjoin hchildren
    rw [hinputs, recordedInputs_eq_iff]
    cases hcounted : join.isCountedJoin
    · rfl
    · rw [find_isCountedJoin_of_isJoin hjoin hcounted]
      simp [hchildren, publishesSame_self_iff]
  rw [FeatureParity, joinDepth_extractFeatures_iff]
  simp only [hpredicates, true_and]
  refine and_congr_right fun _ => ?_
  constructor
  · intro h join left right hjoin hchildren
    exact
      (hside join left right hjoin hchildren).mp
        (h join left right hjoin hchildren)
  · intro h join left right hjoin hchildren
    exact
      (hside join left right hjoin hchildren).mpr
        (h join left right hjoin hchildren)

/-- A scan of twenty rows. -/
def scanOf (distinctCounts : List UInt64) : Plan Unit Unit :=
  .statsExec (.node ⟨.other, ()⟩ [])
    { numRows := .exact 20
      totalByteSize := .absent
      columnStatistics :=
        distinctCounts.map fun n =>
          { nullCount := .absent
            maxValue := .absent
            minValue := .absent
            sumValue := .absent
            distinctCount := .exact n } }

/-- The left input has columns with ten and twenty distinct values. -/
def twoColumnJoin : Plan Unit Unit :=
  .node ⟨.hashJoin .inner, ()⟩ [scanOf [10, 20], scanOf [20]]

/-- Thirty is recorded where twenty is served. -/
theorem twoColumnJoin_no_parity :
    ¬FeatureParity
      { statistics := fun _ _ =>
          { numRows := .absent
            totalByteSize := .absent
            columnStatistics := [] } }
      twoColumnJoin 400 := by
  intro h
  have hjoin :
      twoColumnJoin.nodes.find? Plan.isJoin = some twoColumnJoin := by
    simp [twoColumnJoin, Plan.nodes, Plan.isJoin, OperatorKind.isJoin]
  have hcounted :
      twoColumnJoin.nodes.find? Plan.isCountedJoin =
        some twoColumnJoin :=
    find_isCountedJoin_of_isJoin hjoin rfl
  have hinputs := h.2.2 _ _ _ hjoin rfl
  rw [inputsOf_extractFeatures, hcounted] at hinputs
  have hdistinct := congrArg JoinInputFeatures.leftDistinct hinputs
  revert hdistinct
  decide

end Parity

end Bench

end Samkhya
