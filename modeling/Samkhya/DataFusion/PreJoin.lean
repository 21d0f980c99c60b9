import Mathlib
import Samkhya.DataFusion.DerivedCeiling

/-!
# The pre-join correction rule

`SamkhyaPreJoinRule::optimize` visits a plan from the leaves up and wraps the
inputs of two-child joins in `SamkhyaStatsExec`, with the row count that the
corrector proposes, cut by the configured ceiling, the derived ceiling and
`safeMaxRows` and raised to the native count again.

The specification is a plan with marks (`Marked`): `forget` is the plan the
rule returns, `erase` takes the marked wrappers out again.  `Placed` says where
marks may stand and what their statistics satisfy (`Envelope`).  By the time an
outer join is visited its inputs are rewritten, so every native count is read
from a `forget`.
-/

namespace Samkhya

open Saturating

variable {ο χ ε : Type}

/-- Sanity ceiling on any row count the rule publishes. -/
def safeMaxRows : UInt64 :=
  UInt64.ofNat (1 <<< 40)

/-- Configuration of the rule. -/
structure PreJoinCorrectionOptions where
  ceiling : UInt64
  allowBelowNative : Bool
  deriveCeiling : Bool
deriving DecidableEq

/-- A model that proposes a row count, abstains or fails. -/
structure Corrector (ε : Type) where
  correct : CorrectionFeatures → Except ε (Option UInt64)

/-- `u128::div_ceil`. -/
def divCeil (a b : Nat) : Nat :=
  a / b + if a % b = 0 then 0 else 1

/-- Byte size scaled by the ratio of corrected to native rows. -/
def scaleByteSize
    (byteSize : Precision Usize)
    (nativeRows correctedRows : Usize) : Precision Usize :=
  match precisionValue byteSize with
  | none => .absent
  | some precision =>
      if nativeRows = 0 then
        .absent
      else
        let scaled :=
          divCeil
            (satMul u128Max precision.toNat correctedRows.toNat)
            nativeRows.toNat
        .inexact (UInt64.ofNat (min scaled u64Max))

/-- Options and corrector of one rule. -/
structure SamkhyaPreJoinRule (ε : Type) where
  corrector : Corrector ε
  options : PreJoinCorrectionOptions

/-- A rewritten plan and whether it changed. -/
structure Transformed (ο χ : Type) where
  data : Plan ο χ
  transformed : Bool

namespace SamkhyaPreJoinRule

variable (rule : SamkhyaPreJoinRule ε) (engine : Engine ο χ)

/-- What the corrector sees of an input with a native row count. -/
def features
    (input : Plan ο χ)
    (nativeRows : UInt64)
    (pair : JoinInputFeatures) : CorrectionFeatures where
  baselineEstimate := nativeRows
  leftInputRows := pair.leftRows
  rightInputRows := pair.rightRows
  leftDistinct := pair.leftDistinct
  rightDistinct := pair.rightDistinct
  predicateCount := input.countFilters
  joinDepth := input.joinDepth

/-- The configured ceiling, tightened by the derived one. -/
def effectiveCeiling (input : Plan ο χ) : UInt64 :=
  let derived :=
    if rule.options.deriveCeiling then
      deriveInputCeiling engine input
    else
      none
  match derived with
  | some value => min rule.options.ceiling value
  | none => rule.options.ceiling

/-- Proposal cut by the ceilings, then raised to the native floor. -/
def boundedRows
    (input : Plan ο χ)
    (nativeRows proposed : UInt64) : UInt64 :=
  let ceilingClamped :=
    min (min proposed (rule.effectiveCeiling engine input))
      safeMaxRows
  if ¬ rule.options.allowBelowNative ∧ ceilingClamped < nativeRows then
    nativeRows
  else
    ceilingClamped

/-- Correct one join input; the flag tells whether it was wrapped. -/
def correctInput
    (input : Plan ο χ)
    (stats : Statistics χ)
    (pair : JoinInputFeatures) : Plan ο χ × Bool :=
  match precisionValue stats.numRows with
  | none => (input, false)
  | some nativeRows =>
      match
        rule.corrector.correct
          (features input nativeRows pair) with
      | .ok none => (input, false)
      | .error _ => (input, false)
      | .ok (some proposed) =>
          let correctedRows :=
            rule.boundedRows engine input nativeRows proposed
          if correctedRows = nativeRows then
            (input, false)
          else
            (.statsExec input
              { stats with
                numRows := .inexact correctedRows
                totalByteSize :=
                  scaleByteSize stats.totalByteSize nativeRows
                    correctedRows },
              true)

/-- Correct both inputs of a join of two children. -/
def correctJoinInputs (plan : Plan ο χ) : Transformed ο χ :=
  if ¬ plan.isJoin then
    ⟨plan, false⟩
  else
    match plan.children with
    | [leftInput, rightInput] =>
        let leftStats := leftInput.statistics engine
        let rightStats := rightInput.statistics engine
        let pair := JoinInputFeatures.new leftStats rightStats
        let (left, leftChanged) :=
          rule.correctInput engine leftInput leftStats pair
        let (right, rightChanged) :=
          rule.correctInput engine rightInput rightStats pair
        if ¬ leftChanged ∧ ¬ rightChanged then
          ⟨plan, false⟩
        else
          ⟨plan.withNewChildren [left, right], true⟩
    | _ => ⟨plan, false⟩

/-- The whole plan, children before parents. -/
def optimize (plan : Plan ο χ) : Plan ο χ :=
  plan.transformUp
    (fun plan => (rule.correctJoinInputs engine plan).data)

end SamkhyaPreJoinRule

/-- A plan in which the wrappers that the rule inserted are marked. -/
inductive Marked (ο χ : Type)
  | node (op : Operator ο) (children : List (Marked ο χ))
  | statsExec (input : Marked ο χ) (stats : Statistics χ)
  | inserted (input : Marked ο χ) (stats : Statistics χ)

namespace Marked

/-- The plan with its marks forgotten. -/
def forget : Marked ο χ → Plan ο χ
  | node op children => .node op (children.map forget)
  | statsExec input stats => .statsExec input.forget stats
  | inserted input stats => .statsExec input.forget stats

/-- The plan without the marked wrappers. -/
def erase : Marked ο χ → Plan ο χ
  | node op children => .node op (children.map erase)
  | statsExec input stats => .statsExec input.erase stats
  | inserted input _ => input.erase

/-- The plan below a mark, if there is one. -/
def bare : Marked ο χ → Marked ο χ
  | inserted input _ => input
  | m => m

end Marked

section Specification

variable (rule : SamkhyaPreJoinRule ε) (engine : Engine ο χ)

/-- The proposal under every ceiling that applies to the input. -/
def clampedProposal
    (input : Plan ο χ)
    (proposed : UInt64) : Nat :=
  let configured :=
    min (min proposed.toNat rule.options.ceiling.toNat)
      safeMaxRows.toNat
  match rule.options.deriveCeiling, deriveInputCeiling engine input with
  | true, some derived => min configured derived.toNat
  | _, _ => configured

/--
What a new wrapper publishes over its input, as part of a join with the given
features: a row count between the native one and the larger of the native one
and the clamped proposal, no fewer bytes than the input, and the input's other
statistics.
-/
structure Envelope
    (pair : JoinInputFeatures)
    (input : Plan ο χ)
    (published : Statistics χ)
    (native proposed r : UInt64) : Prop where
  native_eq :
    precisionValue (input.statistics engine).numRows = some native
  proposed_eq :
    rule.corrector.correct
        (SamkhyaPreJoinRule.features input native pair) =
      .ok (some proposed)
  rows_eq : published.numRows = .inexact r
  native_le : native ≤ r
  rows_le :
    r.toNat ≤
      max native.toNat (clampedProposal rule engine input proposed)
  bytes_le :
    ∀ bytes,
      precisionValue published.totalByteSize = some bytes →
        ∃ inputBytes,
          precisionValue (input.statistics engine).totalByteSize =
            some inputBytes ∧
          inputBytes ≤ bytes
  columns_eq :
    published.columnStatistics =
      (input.statistics engine).columnStatistics

/-- Features of a recognised join over its two (unwrapped) inputs. -/
def joinPair
    (op : Operator ο)
    (children : List (Marked ο χ)) : Option JoinInputFeatures :=
  match op.kind.isJoin, children with
  | true, [left, right] =>
      some
        (JoinInputFeatures.new
          (left.bare.forget.statistics engine)
          (right.bare.forget.statistics engine))
  | _, _ => none

/--
Marks stand on the two inputs of recognised joins only, never on each other,
and every mark satisfies the envelope.  The argument tells whether a mark may
stand here, and for which join.
-/
inductive Placed :
    Option JoinInputFeatures → Marked ο χ → Prop
  | node
      {pair : Option JoinInputFeatures}
      (op : Operator ο)
      (children : List (Marked ο χ))
      (h : ∀ c ∈ children, Placed (joinPair engine op children) c) :
      Placed pair (.node op children)
  | statsExec
      {pair : Option JoinInputFeatures}
      (input : Marked ο χ)
      (stats : Statistics χ)
      (h : Placed none input) :
      Placed pair (.statsExec input stats)
  | inserted
      {pair : JoinInputFeatures}
      (input : Marked ο χ)
      (stats : Statistics χ)
      {native proposed r : UInt64}
      (henvelope :
        Envelope rule engine pair input.forget stats native
          proposed r)
      (h : Placed none input) :
      Placed (some pair) (.inserted input stats)

end Specification

section OneInput

variable (rule : SamkhyaPreJoinRule ε) (engine : Engine ο χ)

/-- A quotient rounded up is at least every value it covers. -/
theorem le_divCeil
    {a b n : Nat}
    (hn : 0 < n)
    (h : b * n ≤ a) :
    b ≤ divCeil a n := by
  have hdiv : b ≤ a / n := (Nat.le_div_iff_mul_le hn).mpr h
  exact hdiv.trans (Nat.le_add_right _ _)

/-- Scaling to at least as many rows never shrinks a byte size. -/
theorem le_scaleByteSize
    {byteSize : Precision Usize}
    {nativeRows correctedRows bytes : Usize}
    (hle : nativeRows ≤ correctedRows)
    (h :
      precisionValue
          (scaleByteSize byteSize nativeRows correctedRows) =
        some bytes) :
    ∃ inputBytes,
      precisionValue byteSize = some inputBytes ∧
        inputBytes ≤ bytes := by
  unfold scaleByteSize at h
  cases hbytes : precisionValue byteSize with
  | none =>
      rw [hbytes] at h
      cases h
  | some precision =>
      rw [hbytes] at h
      refine ⟨precision, rfl, ?_⟩
      simp only at h
      split_ifs at h with hzero
      · cases h
      · have hpos : 0 < nativeRows.toNat :=
          UInt64.lt_iff_toNat_lt.mp
            (UInt64.pos_iff_ne_zero.mpr hzero)
        have hscaled :
            precision.toNat ≤
              divCeil (precision.toNat * correctedRows.toNat)
                nativeRows.toNat :=
          le_divCeil hpos
            (Nat.mul_le_mul_left _ (UInt64.le_iff_toNat_le.mp hle))
        rw [← Option.some.inj h, UInt64.le_iff_toNat_le,
          toNat_ofNat_of_le (Nat.min_le_right _ _),
          satMul_u128_eq (toNat_le_u64Max _) (toNat_le_u64Max _)]
        exact Nat.le_min.mpr ⟨hscaled, toNat_le_u64Max precision⟩

/-- The ceilings of the rule cut the proposal to the clamped proposal. -/
theorem toNat_ceilingClamped
    (input : Plan ο χ)
    (proposed : UInt64) :
    (min (min proposed (rule.effectiveCeiling engine input))
        safeMaxRows).toNat =
      clampedProposal rule engine input proposed := by
  unfold SamkhyaPreJoinRule.effectiveCeiling clampedProposal
  rw [toNat_minU64, toNat_minU64]
  cases rule.options.deriveCeiling with
  | false =>
      rfl
  | true =>
      cases deriveInputCeiling engine input with
      | none =>
          rfl
      | some derived =>
          simp only [if_true, toNat_minU64]
          omega

/-- The row count that is published, between the floor and the ceilings. -/
theorem boundedRows_bounds
    (hfloor : rule.options.allowBelowNative = false)
    (input : Plan ο χ)
    (native proposed : UInt64) :
    native ≤ rule.boundedRows engine input native proposed ∧
      (rule.boundedRows engine input native proposed).toNat ≤
        max native.toNat
          (clampedProposal rule engine input proposed) := by
  have hclamped := toNat_ceilingClamped rule engine input proposed
  unfold SamkhyaPreJoinRule.boundedRows
  simp only [hfloor, Bool.false_eq_true, not_false_eq_true,
    true_and]
  split_ifs with h
  · exact ⟨UInt64.le_refl native, Nat.le_max_left _ _⟩
  · exact
      ⟨UInt64.not_lt.mp h, hclamped.le.trans (Nat.le_max_right _ _)⟩

/-- The statistics of a wrapper with the corrected row count. -/
def correctedStatistics
    (stats : Statistics χ)
    (native corrected : Usize) : Statistics χ :=
  { stats with
    numRows := .inexact corrected
    totalByteSize :=
      scaleByteSize stats.totalByteSize native corrected }

/-- All that correcting one input can do. -/
theorem correctInput_cases
    (input : Plan ο χ)
    (stats : Statistics χ)
    (pair : JoinInputFeatures) :
    rule.correctInput engine input stats pair = (input, false) ∨
      ∃ native proposed,
        precisionValue stats.numRows = some native ∧
        rule.corrector.correct
            (SamkhyaPreJoinRule.features input native pair) =
          .ok (some proposed) ∧
        rule.correctInput engine input stats pair =
          (.statsExec input
            (correctedStatistics stats native
              (rule.boundedRows engine input native proposed)),
            true) := by
  unfold SamkhyaPreJoinRule.correctInput
  cases hnative : precisionValue stats.numRows with
  | none =>
      exact Or.inl rfl
  | some native =>
      simp only
      cases hproposed :
          rule.corrector.correct
            (SamkhyaPreJoinRule.features input native pair) with
      | error e =>
          exact Or.inl rfl
      | ok outcome =>
          cases outcome with
          | none =>
              exact Or.inl rfl
          | some proposed =>
              simp only
              split_ifs with hsame
              · exact Or.inl rfl
              · exact
                  Or.inr ⟨native, proposed, rfl, hproposed, rfl⟩

/-- A wrapped input is wrapped within the envelope. -/
theorem envelope_correctedStatistics
    (hfloor : rule.options.allowBelowNative = false)
    {input : Plan ο χ}
    {pair : JoinInputFeatures}
    {native proposed : UInt64}
    (hnative :
      precisionValue (input.statistics engine).numRows = some native)
    (hproposed :
      rule.corrector.correct
          (SamkhyaPreJoinRule.features input native pair) =
        .ok (some proposed)) :
    Envelope rule engine pair input
      (correctedStatistics (input.statistics engine) native
        (rule.boundedRows engine input native proposed))
      native proposed
      (rule.boundedRows engine input native proposed) where
  native_eq := hnative
  proposed_eq := hproposed
  rows_eq := rfl
  native_le :=
    (boundedRows_bounds rule engine hfloor input native proposed).1
  rows_le :=
    (boundedRows_bounds rule engine hfloor input native proposed).2
  bytes_le := fun _ h =>
    le_scaleByteSize
      (boundedRows_bounds rule engine hfloor input native proposed).1 h
  columns_eq := rfl

/-- A corrector without a proposal leaves every input alone. -/
theorem correctInput_of_no_proposal
    (hnone :
      ∀ f v, rule.corrector.correct f ≠ .ok (some v))
    (input : Plan ο χ)
    (stats : Statistics χ)
    (pair : JoinInputFeatures) :
    rule.correctInput engine input stats pair = (input, false) := by
  rcases correctInput_cases rule engine input stats pair with
    hsame | ⟨_, proposed, _, hproposed, _⟩
  · exact hsame
  · exact absurd hproposed (hnone _ proposed)

/-- An input whose flag is down is returned as it was. -/
theorem correctInput_fst_of_not_snd
    {input : Plan ο χ}
    {stats : Statistics χ}
    {pair : JoinInputFeatures}
    (h : ¬ (rule.correctInput engine input stats pair).2 = true) :
    (rule.correctInput engine input stats pair).1 = input := by
  rcases correctInput_cases rule engine input stats pair with
    hsame | ⟨_, _, _, _, hwrap⟩
  · rw [hsame]
  · rw [hwrap] at h
    exact absurd rfl h

end OneInput

section WholePlan

variable {rule : SamkhyaPreJoinRule ε} {engine : Engine ο χ}

/-- An unmarked root may stand below a join as well. -/
theorem Placed.anywhere
    {m : Marked ο χ}
    (h : Placed rule engine none m)
    (pair : Option JoinInputFeatures) :
    Placed rule engine pair m := by
  cases h with
  | node op children h =>
      exact Placed.node op children h
  | statsExec input stats h =>
      exact Placed.statsExec input stats h

/-- One corrected input, with a mark where it was wrapped. -/
theorem exists_marked_input
    (hfloor : rule.options.allowBelowNative = false)
    {m : Marked ο χ}
    (h : Placed rule engine none m)
    (pair : JoinInputFeatures) :
    ∃ m' : Marked ο χ,
      m'.forget =
          (rule.correctInput engine m.forget
            (m.forget.statistics engine) pair).1 ∧
        m'.erase = m.erase ∧
        m'.bare = m ∧
        Placed rule engine (some pair) m' := by
  have hbare : m.bare = m := by
    cases h <;> rfl
  rcases
      correctInput_cases rule engine m.forget
        (m.forget.statistics engine) pair with
    hsame | ⟨native, proposed, hnative, hproposed, hwrap⟩
  · exact ⟨m, by rw [hsame], rfl, hbare, h.anywhere _⟩
  · have henvelope :=
      envelope_correctedStatistics rule engine hfloor hnative
        hproposed
    refine
      ⟨.inserted m _, ?_, ?_, rfl,
        Placed.inserted m _ henvelope h⟩
    · rw [hwrap, Marked.forget]
    · rw [Marked.erase]

/-- A join of two children becomes the join of its corrected inputs. -/
theorem correctJoinInputs_join
    {op : Operator ο}
    (hjoin : op.kind.isJoin = true)
    (left right : Plan ο χ) :
    (rule.correctJoinInputs engine (.node op [left, right])).data =
      .node op
        [(rule.correctInput engine left (left.statistics engine)
            (JoinInputFeatures.new (left.statistics engine)
              (right.statistics engine))).1,
          (rule.correctInput engine right (right.statistics engine)
            (JoinInputFeatures.new (left.statistics engine)
              (right.statistics engine))).1] := by
  have hnode : (Plan.node op [left, right]).isJoin = true := hjoin
  unfold SamkhyaPreJoinRule.correctJoinInputs
  rw [if_neg (not_not.mpr hnode)]
  simp only [Plan.children]
  split_ifs with hflags
  · rw [correctInput_fst_of_not_snd rule engine hflags.1,
      correctInput_fst_of_not_snd rule engine hflags.2]
  · rfl

/-- A plan that is no join of two children is not touched. -/
theorem correctJoinInputs_other
    {plan : Plan ο χ}
    (h : plan.isJoin = true → plan.children.length ≠ 2) :
    (rule.correctJoinInputs engine plan).data = plan := by
  unfold SamkhyaPreJoinRule.correctJoinInputs
  split_ifs with hjoin
  · have hlength := h hjoin
    split
    · rename_i leftInput rightInput hchildren
      rw [hchildren] at hlength
      exact absurd rfl hlength
    · rfl
  · rfl

/-- One node over children that are rewritten and marked already. -/
theorem exists_marked_node
    (hfloor : rule.options.allowBelowNative = false)
    (op : Operator ο)
    {ms : List (Marked ο χ)}
    (h : ∀ m ∈ ms, Placed rule engine none m) :
    ∃ m : Marked ο χ,
      m.forget =
          (rule.correctJoinInputs engine
            (.node op (ms.map Marked.forget))).data ∧
        m.erase = .node op (ms.map Marked.erase) ∧
        Placed rule engine none m := by
  by_cases htwo : op.kind.isJoin = true ∧ ms.length = 2
  · obtain ⟨hjoin, hlength⟩ := htwo
    obtain ⟨left, right, rfl⟩ := List.length_eq_two.mp hlength
    obtain ⟨left', hleft, heraseLeft, hbareLeft, hplacedLeft⟩ :=
      exists_marked_input hfloor (h left (by simp))
        (JoinInputFeatures.new (left.forget.statistics engine)
          (right.forget.statistics engine))
    obtain ⟨right', hright, heraseRight, hbareRight, hplacedRight⟩ :=
      exists_marked_input hfloor (h right (by simp))
        (JoinInputFeatures.new (left.forget.statistics engine)
          (right.forget.statistics engine))
    refine ⟨.node op [left', right'], ?_, ?_, ?_⟩
    · rw [Marked.forget]
      simp only [List.map_cons, List.map_nil]
      rw [correctJoinInputs_join hjoin, hleft, hright]
    · rw [Marked.erase]
      simp only [List.map_cons, List.map_nil]
      rw [heraseLeft, heraseRight]
    · apply Placed.node
      have hfeatures :
          joinPair engine op [left', right'] =
            some
              (JoinInputFeatures.new
                (left.forget.statistics engine)
                (right.forget.statistics engine)) := by
        unfold joinPair
        rw [hjoin]
        simp only [hbareLeft, hbareRight]
      rw [hfeatures]
      intro c hc
      simp only [List.mem_cons, List.not_mem_nil, or_false] at hc
      rcases hc with rfl | rfl
      · exact hplacedLeft
      · exact hplacedRight
  · refine ⟨.node op ms, ?_, ?_, ?_⟩
    · rw [Marked.forget, correctJoinInputs_other]
      intro hjoin hlength
      apply htwo
      exact ⟨hjoin, by simpa [Plan.children] using hlength⟩
    · rw [Marked.erase]
    · exact Placed.node op ms (fun c hc => (h c hc).anywhere _)

/-- Marks for every member of a list. -/
theorem exists_marked_list
    {P : Marked ο χ → Prop}
    {g : Plan ο χ → Plan ο χ}
    {children : List (Plan ο χ)}
    (h :
      ∀ c ∈ children, ∃ m : Marked ο χ,
        m.forget = g c ∧ m.erase = c ∧ P m) :
    ∃ ms : List (Marked ο χ),
      ms.map Marked.forget = children.map g ∧
        ms.map Marked.erase = children ∧
        ∀ m ∈ ms, P m := by
  induction children with
  | nil =>
      exact ⟨[], rfl, rfl, fun m hm => absurd hm List.not_mem_nil⟩
  | cons c children ih =>
      obtain ⟨m, hforget, herase, hm⟩ := h c List.mem_cons_self
      obtain ⟨ms, hforgets, herases, hms⟩ :=
        ih (fun c' hc' => h c' (List.mem_cons_of_mem c hc'))
      refine ⟨m :: ms, ?_, ?_, ?_⟩
      · rw [List.map_cons, List.map_cons, hforget, hforgets]
      · rw [List.map_cons, herase, herases]
      · intro m' hm'
        rcases List.mem_cons.mp hm' with rfl | hm'
        · exact hm
        · exact hms m' hm'

/-- The rewritten plan carries its marks, by induction from the leaves up. -/
theorem exists_marked_optimize
    (hfloor : rule.options.allowBelowNative = false)
    (plan : Plan ο χ) :
    ∃ m : Marked ο χ,
      m.forget = rule.optimize engine plan ∧
        m.erase = plan ∧
        Placed rule engine none m := by
  unfold SamkhyaPreJoinRule.optimize
  induction plan with
  | node op children ih =>
      obtain ⟨ms, hforget, herase, hms⟩ := exists_marked_list ih
      obtain ⟨m, hm, hmerase, hplaced⟩ :=
        exists_marked_node hfloor op hms
      refine ⟨m, ?_, ?_, hplaced⟩
      · rw [hm, hforget, Plan.transformUp]
      · rw [hmerase, herase]
  | statsExec input stats ih =>
      obtain ⟨m, hforget, herase, hplaced⟩ := ih
      refine
        ⟨.statsExec m stats, ?_, ?_, Placed.statsExec m stats hplaced⟩
      · rw [Marked.forget, Plan.transformUp, hforget,
          correctJoinInputs_other]
        intro hjoin
        cases hjoin
      · rw [Marked.erase, herase]

/-- Without proposals no node changes. -/
theorem optimize_of_no_proposal
    (hnone :
      ∀ f v, rule.corrector.correct f ≠ .ok (some v))
    (plan : Plan ο χ) :
    rule.optimize engine plan = plan := by
  have hnode :
      ∀ p : Plan ο χ,
        (rule.correctJoinInputs engine p).data = p := by
    intro p
    by_cases htwo : p.isJoin = true ∧ p.children.length = 2
    · obtain ⟨hjoin, hlength⟩ := htwo
      cases p with
      | statsExec input stats =>
          cases hjoin
      | node op children =>
          obtain ⟨left, right, rfl⟩ := List.length_eq_two.mp hlength
          rw [correctJoinInputs_join hjoin,
            correctInput_of_no_proposal rule engine hnone,
            correctInput_of_no_proposal rule engine hnone]
    · exact
        correctJoinInputs_other
          (fun hjoin hlength => htwo ⟨hjoin, hlength⟩)
  unfold SamkhyaPreJoinRule.optimize
  induction plan with
  | node op children ih =>
      have hchildren :
          children.map
              (Plan.transformUp
                (fun p => (rule.correctJoinInputs engine p).data)) =
            children := by
        conv_rhs => rw [← List.map_id children]
        exact List.map_congr_left ih
      rw [Plan.transformUp, hchildren, hnode]
  | statsExec input stats ih =>
      rw [Plan.transformUp, ih, hnode]

end WholePlan

/--
**The envelope of the pre-join rule over a whole plan.**  For every plan,
options that keep the native floor, corrector and native statistics: the
rewritten plan is the input plan with marked wrappers, which stand on the two
inputs of recognised joins and satisfy the envelope over what those rewritten
inputs report; and a corrector that never proposes changes nothing.
-/
theorem optimize_envelope
    (rule : SamkhyaPreJoinRule ε)
    (engine : Engine ο χ)
    (hfloor : rule.options.allowBelowNative = false)
    (plan : Plan ο χ) :
    (∃ m : Marked ο χ,
      m.forget = rule.optimize engine plan ∧
        m.erase = plan ∧
        Placed rule engine none m) ∧
    ((∀ f v, rule.corrector.correct f ≠ .ok (some v)) →
      rule.optimize engine plan = plan) :=
  ⟨exists_marked_optimize hfloor plan,
    fun hnone => optimize_of_no_proposal hnone plan⟩

section TwoScans

/-- A rule that proposes ten times the baseline and keeps the native floor. -/
def tenfoldRule : SamkhyaPreJoinRule Empty where
  corrector :=
    ⟨fun f => .ok (some (10 * f.baselineEstimate))⟩
  options := ⟨UInt64.ofNat u64Max, false, true⟩

theorem optimize_envelope_twoScans :
    (∃ m : Marked UInt64 Empty,
      m.forget =
          tenfoldRule.optimize countingEngine
            (.node ⟨.hashJoin .inner, 0⟩ [scan 3, scan 5]) ∧
        m.erase = .node ⟨.hashJoin .inner, 0⟩ [scan 3, scan 5] ∧
        Placed tenfoldRule countingEngine none m) :=
  (optimize_envelope tenfoldRule countingEngine rfl
    (.node ⟨.hashJoin .inner, 0⟩ [scan 3, scan 5])).1

end TwoScans

end Samkhya
