import Mathlib
import Samkhya.Core.Stats
import Samkhya.Foundations.BagJoin
import Samkhya.Foundations.Saturating

/-!
# Physical plans and their statistics

A physical plan is a tree of operators; `SamkhyaStatsExec` is the wrapper that
publishes statistics of its own and delegates everything else.  What a native
operator reports over its children is the engine's business and stays an
arbitrary function of the operator and its children.

The rule reads a plan through few eyes: row counts, the largest distinct count
of the columns, the number of filters, and the depth of nested joins.
`transformUp` rewrites children before parents.
-/

namespace Samkhya

open Saturating BagJoin

/-- `datafusion::common::stats::Precision`. -/
inductive Precision (α : Type)
  | exact (value : α)
  | inexact (value : α)
  | absent
deriving DecidableEq

/-- `usize` on a 64-bit target. -/
abbrev Usize := UInt64

/-- Statistics of one column; `χ` are the engine's scalar values. -/
structure ColumnStatistics (χ : Type) where
  nullCount : Precision Usize
  maxValue : Precision χ
  minValue : Precision χ
  sumValue : Precision χ
  distinctCount : Precision Usize
deriving DecidableEq

/-- Statistics of a plan node. -/
structure Statistics (χ : Type) where
  numRows : Precision Usize
  totalByteSize : Precision Usize
  columnStatistics : List (ColumnStatistics χ)
deriving DecidableEq

def precisionValue {α : Type} : Precision α → Option α
  | .exact value => some value
  | .inexact value => some value
  | .absent => none

/-- The operators that the rule tells apart. -/
inductive OperatorKind
  | hashJoin (joinType : JoinType)
  | crossJoin
  | nestedLoopJoin (joinType : JoinType)
  | symmetricHashJoin (joinType : JoinType)
  | sortMergeJoin (joinType : JoinType)
  | filter
  | other
deriving DecidableEq

/-- An operator with everything else it carries: keys, predicates, schema. -/
structure Operator (ο : Type) where
  kind : OperatorKind
  detail : ο
deriving DecidableEq

/-- Trees of operators and statistics wrappers. -/
inductive Plan (ο χ : Type)
  | node (op : Operator ο) (children : List (Plan ο χ))
  | statsExec (input : Plan ο χ) (stats : Statistics χ)

/-- What native operators report over their children. -/
structure Engine (ο χ : Type) where
  statistics : Operator ο → List (Plan ο χ) → Statistics χ

def OperatorKind.isJoin : OperatorKind → Bool
  | hashJoin _ => true
  | crossJoin => true
  | nestedLoopJoin _ => true
  | symmetricHashJoin _ => true
  | sortMergeJoin _ => true
  | filter => false
  | other => false

namespace Plan

variable {ο χ : Type}

/-- Induction over the operators of a plan. -/
@[elab_as_elim, induction_eliminator]
theorem ind
    {motive : Plan ο χ → Prop}
    (node :
      ∀ op children, (∀ c ∈ children, motive c) →
        motive (.node op children))
    (statsExec :
      ∀ input stats, motive input → motive (.statsExec input stats)) :
    ∀ plan, motive plan := fun plan =>
  Plan.rec
    (motive_1 := motive)
    (motive_2 := fun children => ∀ c ∈ children, motive c)
    node statsExec
    (fun _ h => absurd h List.not_mem_nil)
    (fun _ _ hhead htail c hc => by
      rcases List.mem_cons.mp hc with rfl | hc
      · exact hhead
      · exact htail c hc)
    plan

def statistics (engine : Engine ο χ) : Plan ο χ → Statistics χ
  | node op children => engine.statistics op children
  | statsExec _ stats => stats

def children : Plan ο χ → List (Plan ο χ)
  | node _ children => children
  | statsExec input _ => [input]

/-- Replace the children and nothing else; a wrapper has exactly one. -/
def withNewChildren : Plan ο χ → List (Plan ο χ) → Plan ο χ
  | node op _, children => node op children
  | statsExec input stats, children =>
      statsExec (children.headD input) stats

def isJoin : Plan ο χ → Bool
  | node op _ => op.kind.isJoin
  | statsExec _ _ => false

def isFilter : Plan ο χ → Bool
  | node op _ => op.kind == .filter
  | statsExec _ _ => false

/-- Number of filters in the plan. -/
def countFilters : Plan ο χ → UInt32
  | node op children =>
      let here : UInt32 := if op.kind == .filter then 1 else 0
      (children.map countFilters).foldl saturatingAddU32 here
  | statsExec input _ => saturatingAddU32 0 input.countFilters

/-- Largest number of nested joins. -/
def joinDepth : Plan ο χ → UInt32
  | node op children =>
      let childDepth := (children.map joinDepth).max?.getD 0
      if op.kind.isJoin then
        saturatingAddU32 childDepth 1
      else
        childDepth
  | statsExec input _ => input.joinDepth

/-- Rewrite every node, children before parents. -/
def transformUp (f : Plan ο χ → Plan ο χ) : Plan ο χ → Plan ο χ
  | node op children => f (node op (children.map (transformUp f)))
  | statsExec input stats => f (statsExec (transformUp f input) stats)

end Plan

/-- Largest distinct count that some column publishes. -/
def maxDistinct {χ : Type} (stats : Statistics χ) : Option UInt64 :=
  (stats.columnStatistics.filterMap
    (fun column => precisionValue column.distinctCount)).max?

/-- The features both inputs of a join share. -/
structure JoinInputFeatures where
  leftRows : Option UInt64
  rightRows : Option UInt64
  leftDistinct : Option UInt64
  rightDistinct : Option UInt64
deriving DecidableEq

def JoinInputFeatures.new
    {χ : Type}
    (left right : Statistics χ) : JoinInputFeatures where
  leftRows := precisionValue left.numRows
  rightRows := precisionValue right.numRows
  leftDistinct := maxDistinct left
  rightDistinct := maxDistinct right

end Samkhya
