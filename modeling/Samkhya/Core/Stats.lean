import Mathlib

/-!
# Column statistics and plan features

The records that the adapters hand to a native optimizer and to a corrector.
-/

namespace Samkhya

/-- A value bound of a column; floats by their bits. -/
inductive Bound
  | int (value : Int64)
  | float (bits : UInt64)
  | str (value : String)
  | bytes (value : List UInt8)
deriving DecidableEq

/-- `ColumnStats` without its row ceiling, which no adapter here reads. -/
structure ColumnStats where
  rowCount : Option UInt64
  nullCount : Option UInt64
  distinctCount : Option UInt64
  min : Option Bound
  max : Option Bound
deriving DecidableEq

namespace ColumnStats

def new : ColumnStats where
  rowCount := none
  nullCount := none
  distinctCount := none
  min := none
  max := none

def withDistinctCount (s : ColumnStats) (n : UInt64) : ColumnStats :=
  { s with distinctCount := some n }

end ColumnStats

/-- What a corrector sees of a join input. -/
structure CorrectionFeatures where
  baselineEstimate : UInt64
  leftInputRows : Option UInt64
  rightInputRows : Option UInt64
  leftDistinct : Option UInt64
  rightDistinct : Option UInt64
  predicateCount : UInt32
  joinDepth : UInt32
deriving DecidableEq

end Samkhya
