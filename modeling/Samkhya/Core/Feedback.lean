import Mathlib
import Samkhya.Core.Sketch
import Samkhya.Core.Stats
import Samkhya.Foundations.Sqlite

/-!
# The feedback store

Observations of estimates and actual row counts, kept in one table of a SQLite
file.  Two kinds of records share the table: a plain observation leaves the
feature columns null, a plan observation fills them.

Opening runs the schema script, then the version check, then the migration.
The script runs before the check, so a newer store is refused only after what
the script creates is there (`opensSafely_iff`).
-/

namespace Samkhya

open Sqlite

variable {ρ : Type}

/-- A single observation captured at query end; latency is opaque. -/
structure Observation (ρ : Type) where
  templateHash : String
  planFingerprint : String
  estRows : UInt64
  actualRows : UInt64
  latencyMs : Option ρ
deriving DecidableEq

/-- An observation with the features that the corrector saw. -/
structure PlanObservation (ρ : Type) where
  templateHash : String
  planFingerprint : String
  features : CorrectionFeatures
  actualRows : UInt64
  latencyMs : Option ρ
deriving DecidableEq

/-- Reduce to the plain shape, discarding the plan features. -/
def PlanObservation.toObservation
    (obs : PlanObservation ρ) : Observation ρ where
  templateHash := obs.templateHash
  planFingerprint := obs.planFingerprint
  estRows := obs.features.baselineEstimate
  actualRows := obs.actualRows
  latencyMs := obs.latencyMs

/-- Programs of the store; the file is their state. -/
abbrev StoreM (ρ : Type) := EStateM Error (Database ρ)

namespace FeedbackStore

/-- The columns of `observations` besides its id. -/
def v1Columns : List Column :=
  [⟨"template_hash", "TEXT", true, .null⟩,
    ⟨"plan_fingerprint", "TEXT", true, .null⟩,
    ⟨"est_rows", "INTEGER", true, .null⟩,
    ⟨"actual_rows", "INTEGER", true, .null⟩,
    ⟨"latency_ms", "REAL", false, .null⟩,
    ⟨"recorded_at", "TEXT", true, .now⟩]

def schemaV1 : List Statement :=
  [.createTable "observations" "id" v1Columns,
    .createIndex "idx_obs_template" "observations" "template_hash",
    .createIndex "idx_obs_plan" "observations" "plan_fingerprint"]

/-- Plan-shape feature columns, added in 1.2.0. -/
def featureColumns : List (String × String) :=
  [("left_input_rows", "INTEGER"),
    ("right_input_rows", "INTEGER"),
    ("left_distinct", "INTEGER"),
    ("right_distinct", "INTEGER"),
    ("predicate_count", "INTEGER"),
    ("join_depth", "INTEGER")]

def schemaUserVersion : Int32 := 1

/-- `map_sqlite` on what a statement returns. -/
def mapSqlite {α : Type} (m : SqlM ρ α) : StoreM ρ α := fun db =>
  match m db with
  | .ok a db' => .ok a db'
  | .error e db' => .error (.feedback e) db'

/-- The refusal of a newer store. -/
def newerVersion (onDisk : Int32) : Error :=
  .feedback
    ("feedback store schema version " ++ toString onDisk ++
      " is newer than this build supports (" ++
      toString schemaUserVersion ++
      "); refuse to open to avoid data truncation")

/-- Stamp an unset or older version; refuse a newer one. -/
def checkOrStampSchemaVersion : StoreM ρ Unit := do
  let onDisk := (← get).userVersion
  if onDisk = 0 then
    mapSqlite (executeBatch [.setUserVersion schemaUserVersion])
  else if onDisk > schemaUserVersion then
    throw (newerVersion onDisk)
  else if onDisk < schemaUserVersion then
    mapSqlite (executeBatch [.setUserVersion schemaUserVersion])
  else
    pure ()

/-- `PRAGMA table_info(observations)`; a missing table has no columns. -/
def existingColumns (db : Database ρ) : List String :=
  match db.tables[Ident.of "observations"]? with
  | some t => t.columnNames
  | none => []

/-- Add the columns that are not there yet, one statement each. -/
def addMissing (existing : List String) :
    List (String × String) → StoreM ρ Unit
  | [] => pure ()
  | column :: rest => do
      if column.1 ∈ existing then
        pure ()
      else
        mapSqlite
          (executeBatch
            [.addColumn "observations" column.1 column.2])
      addMissing existing rest

/-- Add the plan-feature columns to an existing table. -/
def addFeatureColumns : StoreM ρ Unit := do
  let existing := existingColumns (← get)
  addMissing existing featureColumns

end FeedbackStore

/-- Open or create a store. -/
def FeedbackStore.open : StoreM ρ Unit := do
  mapSqlite (executeBatch schemaV1)
  checkOrStampSchemaVersion
  addFeatureColumns

namespace FeedbackStore

/-- What fills the columns of a plain observation. -/
def observationValues
    (obs : Observation ρ) : List (String × Value ρ) :=
  [("template_hash", .text obs.templateHash),
    ("plan_fingerprint", .text obs.planFingerprint),
    ("est_rows", .integer obs.estRows.toInt64),
    ("actual_rows", .integer obs.actualRows.toInt64),
    ("latency_ms", (obs.latencyMs.map Value.real).getD .null)]

/-- `v.map(|v| v as i64)` as a parameter of a statement. -/
def optionalValue (v : Option UInt64) : Value ρ :=
  (v.map fun n => Value.integer n.toInt64).getD .null

/-- What fills the columns of a plan observation. -/
def planValues
    (obs : PlanObservation ρ) : List (String × Value ρ) :=
  let f := obs.features
  [("template_hash", .text obs.templateHash),
    ("plan_fingerprint", .text obs.planFingerprint),
    ("est_rows", .integer f.baselineEstimate.toInt64),
    ("actual_rows", .integer obs.actualRows.toInt64),
    ("latency_ms", (obs.latencyMs.map Value.real).getD .null),
    ("left_input_rows", optionalValue f.leftInputRows),
    ("right_input_rows", optionalValue f.rightInputRows),
    ("left_distinct", optionalValue f.leftDistinct),
    ("right_distinct", optionalValue f.rightDistinct),
    ("predicate_count", .integer f.predicateCount.toUInt64.toInt64),
    ("join_depth", .integer f.joinDepth.toUInt64.toInt64)]

/-- Record an observation; `now` is the clock of the database. -/
def record (now : String) (obs : Observation ρ) : StoreM ρ Int64 :=
  mapSqlite (insert "observations" now (observationValues obs))

/-- Record an observation with its plan-shape features. -/
def recordPlan
    (now : String)
    (obs : PlanObservation ρ) : StoreM ρ Int64 :=
  mapSqlite (insert "observations" now (planValues obs))

section Reading

/-- The failure of `row.get` at another type. -/
def wrongType : Error :=
  .feedback "Invalid column type"

def getText : Value ρ → Except Error String
  | .text s => .ok s
  | _ => .error wrongType

def getI64 : Value ρ → Except Error Int64
  | .integer n => .ok n
  | _ => .error wrongType

/-- `row.get::<_, Option<i64>>` and the cast back. -/
def getOptU64 : Value ρ → Except Error (Option UInt64)
  | .null => .ok none
  | .integer n => .ok (some n.toUInt64)
  | _ => .error wrongType

/-- `row.get::<_, Option<f64>>`; a `REAL` column holds no integers. -/
def getOptReal : Value ρ → Except Error (Option ρ)
  | .null => .ok none
  | .real r => .ok (some r)
  | _ => .error wrongType

/-- The columns that both readers select. -/
def observationColumns : List String :=
  ["template_hash", "plan_fingerprint", "est_rows", "actual_rows",
    "latency_ms"]

def readObservation
    (row : List (Value ρ)) : Except Error (Observation ρ) := do
  let templateHash ← getText (row.getD 0 .null)
  let planFingerprint ← getText (row.getD 1 .null)
  let estRows ← getI64 (row.getD 2 .null)
  let actualRows ← getI64 (row.getD 3 .null)
  let latencyMs ← getOptReal (row.getD 4 .null)
  pure
    { templateHash := templateHash
      planFingerprint := planFingerprint
      estRows := estRows.toUInt64
      actualRows := actualRows.toUInt64
      latencyMs := latencyMs }

def readPlanObservation
    (row : List (Value ρ)) : Except Error (PlanObservation ρ) := do
  let templateHash ← getText (row.getD 0 .null)
  let planFingerprint ← getText (row.getD 1 .null)
  let baselineEstimate ← getI64 (row.getD 2 .null)
  let leftInputRows ← getOptU64 (row.getD 5 .null)
  let rightInputRows ← getOptU64 (row.getD 6 .null)
  let leftDistinct ← getOptU64 (row.getD 7 .null)
  let rightDistinct ← getOptU64 (row.getD 8 .null)
  let predicateCount ← getI64 (row.getD 9 .null)
  let joinDepth ← getI64 (row.getD 10 .null)
  let actualRows ← getI64 (row.getD 3 .null)
  let latencyMs ← getOptReal (row.getD 4 .null)
  pure
    { templateHash := templateHash
      planFingerprint := planFingerprint
      features :=
        { baselineEstimate := baselineEstimate.toUInt64
          leftInputRows := leftInputRows
          rightInputRows := rightInputRows
          leftDistinct := leftDistinct
          rightDistinct := rightDistinct
          predicateCount := predicateCount.toUInt64.toUInt32
          joinDepth := joinDepth.toUInt64.toUInt32 }
      actualRows := actualRows.toUInt64
      latencyMs := latencyMs }

/-- All observations of a query template, oldest first. -/
def history
    (templateHash : String)
    (db : Database ρ) : Except Error (List (Observation ρ)) := do
  let rows ←
    (select "observations" observationColumns
      (.equals "template_hash" templateHash) db).mapError .feedback
  rows.mapM readObservation

/-- The observations of a template that carry plan features. -/
def planHistory
    (templateHash : String)
    (db : Database ρ) : Except Error (List (PlanObservation ρ)) := do
  let rows ←
    (select "observations"
      (observationColumns ++ featureColumns.map Prod.fst)
      (.and (.equals "template_hash" templateHash)
        (.isNotNull "predicate_count"))
      db).mapError .feedback
  rows.mapM readPlanObservation

/-- Number of observations stored. -/
def count (db : Database ρ) : Except Error UInt64 := do
  let n ← (countRows "observations" db).mapError .feedback
  pure n.toUInt64

end Reading

end FeedbackStore

end Samkhya
