import Mathlib
import Samkhya.DataFusion.Plan

/-!
# The table provider and what its scan publishes

`SamkhyaTableProvider` folds overrides into the statistics of an inner provider
and wraps the inner scan in a `SamkhyaStatsExec` that publishes the result.

What a count is known to reach orders counts, with a missing one at the bottom.
The guard of the fold takes the larger of what it merges and never lowers a
count of the inner provider.  The statistics of the inner plan are not part of
the fold, so nothing keeps the published counts above them.
-/

namespace Samkhya

/-- What the code calls of DataFusion; `σ` are schemas, `χ` scalar values. -/
structure DataFusionApi (σ χ : Type) where
  fieldCount : σ → Nat
  newUnknown : σ → Statistics χ
  unknownColumn : σ → List (ColumnStatistics χ)
  project : Statistics χ → Option (List Nat) → Option (Statistics χ)
  int64 : Int64 → χ
  float64 : UInt64 → χ
  utf8 : String → χ
  binary : List UInt8 → χ

/-- `ColumnStatistics::new_unknown`. -/
def ColumnStatistics.unknown (χ : Type) : ColumnStatistics χ where
  nullCount := .absent
  maxValue := .absent
  minValue := .absent
  sumValue := .absent
  distinctCount := .absent

/-- What DataFusion documents; a column out of range makes `project` panic. -/
structure DataFusionApi.Documented
    {σ χ : Type}
    (df : DataFusionApi σ χ) : Prop where
  unknownColumn_eq :
    ∀ schema,
      df.unknownColumn schema =
        List.replicate (df.fieldCount schema) (.unknown χ)
  newUnknown_eq :
    ∀ schema,
      df.newUnknown schema =
        { numRows := .absent
          totalByteSize := .absent
          columnStatistics := df.unknownColumn schema }
  project_none :
    ∀ stats, df.project stats none = some stats
  project_some :
    ∀ stats projection,
      df.project stats (some projection) =
        (projection.mapM (fun i => stats.columnStatistics[i]?)).map
          (fun columns => { stats with columnStatistics := columns })

/-- `option_u64_to_precision_usize`. -/
def optionU64ToPrecisionUsize : Option UInt64 → Precision Usize
  | some n => .inexact n
  | none => .absent

section Translation

variable {σ χ : Type}

/-- `bound_to_precision_scalar`. -/
def boundToPrecisionScalar
    (df : DataFusionApi σ χ) : Option Bound → Precision χ
  | some (.int i) => .inexact (df.int64 i)
  | some (.float f) => .inexact (df.float64 f)
  | some (.str s) => .inexact (df.utf8 s)
  | some (.bytes bytes) => .inexact (df.binary bytes)
  | none => .absent

/-- samkhya's statistics of a column in DataFusion's terms. -/
def toDatafusionColumnStatistics
    (df : DataFusionApi σ χ)
    (src : ColumnStats) : ColumnStatistics χ where
  nullCount := optionU64ToPrecisionUsize src.nullCount
  distinctCount := optionU64ToPrecisionUsize src.distinctCount
  minValue := boundToPrecisionScalar df src.min
  maxValue := boundToPrecisionScalar df src.max
  sumValue := .absent

/-- The larger of two counts, inexact. -/
def pickMaxUsize (base ovr : Precision Usize) : Precision Usize :=
  match precisionValue base, precisionValue ovr with
  | some b, some o => .inexact (Max.max b o)
  | some b, none => .inexact b
  | none, some o => .inexact o
  | none, none => .absent

/-- The override where it says something. -/
def pick {α : Type} (base : Precision α) : Precision α → Precision α
  | .absent => base
  | other => other

/-- Merge an override over the statistics of a column. -/
def mergeColumnStats
    (base ovr : ColumnStatistics χ) : ColumnStatistics χ where
  nullCount := pick base.nullCount ovr.nullCount
  maxValue := pick base.maxValue ovr.maxValue
  minValue := pick base.minValue ovr.minValue
  sumValue := pick base.sumValue ovr.sumValue
  distinctCount := pickMaxUsize base.distinctCount ovr.distinctCount

end Translation

/-- A hash map by the order in which it is iterated. -/
structure Overrides where
  entries : List (Nat × ColumnStats)
  nodup : (entries.map Prod.fst).Nodup

namespace Overrides

def empty : Overrides where
  entries := []
  nodup := List.nodup_nil

/-- Install an override; one with the same index is replaced. -/
def insert
    (overrides : Overrides)
    (colIdx : Nat)
    (stats : ColumnStats) : Overrides where
  entries :=
    (colIdx, stats) ::
      overrides.entries.filter (fun entry => entry.1 ≠ colIdx)
  nodup := by
    rw [List.map_cons, List.nodup_cons]
    constructor
    · simp
    · exact
        overrides.nodup.sublist
          (List.Sublist.map Prod.fst List.filter_sublist)

end Overrides

/-- A table provider, as far as the wrapper looks at it. -/
structure TableProvider (σ ς φ ε ο χ : Type) where
  schema : σ
  statistics : Option (Statistics χ)
  scan :
    ς → Option (List Nat) → List φ → Option Usize →
      Except ε (Plan ο χ)

/-- The wrapper. -/
structure SamkhyaTableProvider (σ ς φ ε ο χ : Type) where
  inner : TableProvider σ ς φ ε ο χ
  overrides : Overrides

/-- How a scan fails: an error of the inner scan, or a panic. -/
inductive ScanFailure (ε : Type)
  | inner (e : ε)
  | panicked

namespace SamkhyaTableProvider

variable {σ ς φ ε ο χ : Type}

def new (inner : TableProvider σ ς φ ε ο χ) :
    SamkhyaTableProvider σ ς φ ε ο χ where
  inner := inner
  overrides := .empty

def withColumnStats
    (p : SamkhyaTableProvider σ ς φ ε ο χ)
    (colIdx : Nat)
    (stats : ColumnStats) : SamkhyaTableProvider σ ς φ ε ο χ :=
  { p with overrides := p.overrides.insert colIdx stats }

/-- The inner statistics, with a column entry for every field. -/
def baseStatistics
    (df : DataFusionApi σ χ)
    (inner : TableProvider σ ς φ ε ο χ) : Statistics χ :=
  let base := inner.statistics.getD (df.newUnknown inner.schema)
  if base.columnStatistics.length ≠ df.fieldCount inner.schema then
    { base with columnStatistics := df.unknownColumn inner.schema }
  else
    base

/-- One turn of the merge loop; an index out of range is skipped. -/
def mergeOverride
    (df : DataFusionApi σ χ)
    (nFields : Nat)
    (columns : List (ColumnStatistics χ))
    (entry : Nat × ColumnStats) : List (ColumnStatistics χ) :=
  if nFields ≤ entry.1 then
    columns
  else
    columns.modify entry.1
      (fun base =>
        mergeColumnStats base
          (toDatafusionColumnStatistics df entry.2))

/-- Row counts that overrides carry. -/
def overrideRowCounts
    (p : SamkhyaTableProvider σ ς φ ε ο χ) : List UInt64 :=
  p.overrides.entries.filterMap (fun entry => entry.2.rowCount)

/-- Fold the overrides into the statistics of the inner provider. -/
def statistics
    (df : DataFusionApi σ χ)
    (p : SamkhyaTableProvider σ ς φ ε ο χ) : Option (Statistics χ) :=
  let nFields := df.fieldCount p.inner.schema
  let base := baseStatistics df p.inner
  let base :=
    { base with
      columnStatistics :=
        p.overrides.entries.foldl (mergeOverride df nFields)
          base.columnStatistics }
  match p.overrideRowCounts.max? with
  | some rc =>
      let monotoneRc :=
        match base.numRows with
        | .exact n => Max.max rc n
        | .inexact n => Max.max rc n
        | .absent => rc
      some
        { base with
          numRows := .inexact monotoneRc
          totalByteSize :=
            match base.totalByteSize with
            | .exact n => .inexact n
            | .inexact n => .inexact n
            | .absent => .absent }
  | none => some base

/-- Scan the inner provider and publish the projected statistics. -/
def scan
    (df : DataFusionApi σ χ)
    (p : SamkhyaTableProvider σ ς φ ε ο χ)
    (state : ς)
    (projection : Option (List Nat))
    (filters : List φ)
    (limit : Option Usize) : Except (ScanFailure ε) (Plan ο χ) :=
  match p.inner.scan state projection filters limit with
  | .error e => .error (.inner e)
  | .ok innerPlan =>
      let fullStats :=
        (p.statistics df).getD (df.newUnknown p.inner.schema)
      match df.project fullStats projection with
      | none => .error .panicked
      | some outputStats => .ok (.statsExec innerPlan outputStats)

end SamkhyaTableProvider

namespace Precision

/-- A count that is there and not smaller than `n`. -/
def Reaches (p : Precision Usize) (n : UInt64) : Prop :=
  ∃ m, precisionValue p = some m ∧ n ≤ m

/-- Whatever the native count reaches, the published one does. -/
def CoveredBy (native published : Precision Usize) : Prop :=
  ∀ n, precisionValue native = some n → published.Reaches n

/-- Merging two counts reaches what either does. -/
theorem reaches_pickMaxUsize_iff
    {base ovr : Precision Usize}
    {n : UInt64} :
    (pickMaxUsize base ovr).Reaches n ↔
      base.Reaches n ∨ ovr.Reaches n := by
  unfold pickMaxUsize Reaches
  cases precisionValue base <;> cases precisionValue ovr <;>
    simp [precisionValue, Std.le_max]

theorem reaches_optionU64_iff
    {count : Option UInt64}
    {n : UInt64} :
    (optionU64ToPrecisionUsize count).Reaches n ↔
      ∃ m, count = some m ∧ n ≤ m := by
  cases count <;>
    simp [optionU64ToPrecisionUsize, Reaches, precisionValue]

end Precision

namespace SamkhyaTableProvider

variable {σ ς φ ε ο χ : Type}

/-- Columns that a projection emits, in the order of the output. -/
def projectedColumns
    (fieldCount : Nat) : Option (List Nat) → List Nat
  | none => List.range fieldCount
  | some projection => projection

/--
What the guard is there for: the published row count covers that of the inner
plan, and each published distinct count the one of the inner provider.
-/
structure PlanMemoryMonotone
    (engine : Engine ο χ)
    (df : DataFusionApi σ χ)
    (inner : TableProvider σ ς φ ε ο χ)
    (projection : Option (List Nat))
    (innerPlan : Plan ο χ)
    (published : Statistics χ) : Prop where
  rows :
    (innerPlan.statistics engine).numRows.CoveredBy published.numRows
  distinct :
    ∀ position colIdx : Nat,
      (projectedColumns (df.fieldCount inner.schema)
          projection)[position]? = some colIdx →
        ∀ stats, inner.statistics = some stats →
          ∀ native : ColumnStatistics χ,
            stats.columnStatistics[colIdx]? = some native →
            ∃ column,
              published.columnStatistics[position]? = some column ∧
              native.distinctCount.CoveredBy column.distinctCount

/--
When it holds.  The row count of the inner plan is covered by an override or by
the inner provider; and the provider has a column entry for every field, or
each of its distinct counts is covered by an override.
-/
structure CountsCovered
    (engine : Engine ο χ)
    (df : DataFusionApi σ χ)
    (p : SamkhyaTableProvider σ ς φ ε ο χ)
    (projection : Option (List Nat))
    (innerPlan : Plan ο χ) : Prop where
  rows :
    ∀ n, precisionValue (innerPlan.statistics engine).numRows = some n →
      ∃ m,
        (m ∈ p.overrideRowCounts ∨
          ∃ stats, p.inner.statistics = some stats ∧
            precisionValue stats.numRows = some m) ∧
        n ≤ m
  distinct :
    ∀ stats, p.inner.statistics = some stats →
      stats.columnStatistics.length = df.fieldCount p.inner.schema ∨
      ∀ colIdx ∈
          projectedColumns (df.fieldCount p.inner.schema) projection,
        ∀ native : ColumnStatistics χ,
          stats.columnStatistics[colIdx]? = some native →
          ∀ n, precisionValue native.distinctCount = some n →
            ∃ entry ∈ p.overrides.entries,
              entry.1 = colIdx ∧
              ∃ m, entry.2.distinctCount = some m ∧ n ≤ m

section Merge

variable
  {df : DataFusionApi σ χ}
  {nFields : Nat}
  {columns : List (ColumnStatistics χ)}
  {entries : List (Nat × ColumnStats)}

@[simp] theorem length_mergeOverride
    (entry : Nat × ColumnStats) :
    (mergeOverride df nFields columns entry).length =
      columns.length := by
  unfold mergeOverride
  split_ifs
  · rfl
  · rw [List.length_modify]

theorem length_foldl_mergeOverride :
    (entries.foldl (mergeOverride df nFields) columns).length =
      columns.length := by
  induction entries generalizing columns with
  | nil =>
      rfl
  | cons entry entries ih =>
      rw [List.foldl_cons, ih, length_mergeOverride]

/-- One override raises the distinct count of its column. -/
theorem getElem?_mergeOverride
    {i : Nat}
    {column : ColumnStatistics χ}
    (hi : i < nFields)
    (hcolumn : columns[i]? = some column)
    (entry : Nat × ColumnStats) :
    ∃ merged,
      (mergeOverride df nFields columns entry)[i]? = some merged ∧
      ∀ n, merged.distinctCount.Reaches n ↔
        column.distinctCount.Reaches n ∨
          (entry.1 = i ∧
            ∃ m, entry.2.distinctCount = some m ∧ n ≤ m) := by
  unfold mergeOverride
  split_ifs with hout
  · have hne : entry.1 ≠ i := by
      omega
    exact ⟨column, hcolumn, fun n => by simp [hne]⟩
  · rw [List.getElem?_modify, hcolumn]
    by_cases heq : entry.1 = i
    · refine ⟨_, by simp only [if_pos heq]; rfl, fun n => ?_⟩
      simp only [mergeColumnStats, toDatafusionColumnStatistics,
        Precision.reaches_pickMaxUsize_iff, heq, true_and,
        Precision.reaches_optionU64_iff]
    · refine ⟨column, by simp only [if_neg heq]; rfl, fun n => ?_⟩
      simp [heq]

/-- All overrides together raise it to the largest of theirs. -/
theorem getElem?_foldl_mergeOverride
    {i : Nat}
    {column : ColumnStatistics χ}
    (hi : i < nFields)
    (hcolumn : columns[i]? = some column) :
    ∃ merged,
      (entries.foldl (mergeOverride df nFields) columns)[i]? =
        some merged ∧
      ∀ n, merged.distinctCount.Reaches n ↔
        column.distinctCount.Reaches n ∨
          ∃ entry ∈ entries,
            entry.1 = i ∧
            ∃ m, entry.2.distinctCount = some m ∧ n ≤ m := by
  induction entries generalizing columns column with
  | nil =>
      exact ⟨column, hcolumn, fun n => by simp⟩
  | cons entry entries ih =>
      obtain ⟨next, hnext, hstep⟩ :=
        getElem?_mergeOverride hi hcolumn entry
      obtain ⟨merged, hmerged, hrest⟩ := ih hnext
      refine ⟨merged, hmerged, fun n => ?_⟩
      rw [hrest, hstep, or_assoc, List.exists_mem_cons_iff]

end Merge

section Published

variable
  {df : DataFusionApi σ χ}
  {p : SamkhyaTableProvider σ ς φ ε ο χ}
  {projection : Option (List Nat)}

/-- The statistics of the wrapper, field by field. -/
theorem statistics_eq
    (df : DataFusionApi σ χ)
    (p : SamkhyaTableProvider σ ς φ ε ο χ) :
    ∃ stats,
      p.statistics df = some stats ∧
      stats.columnStatistics =
        p.overrides.entries.foldl
          (mergeOverride df (df.fieldCount p.inner.schema))
          (baseStatistics df p.inner).columnStatistics ∧
      ∀ n, stats.numRows.Reaches n ↔
        (baseStatistics df p.inner).numRows.Reaches n ∨
          ∃ m ∈ p.overrideRowCounts, n ≤ m := by
  unfold statistics
  cases hmax : p.overrideRowCounts.max? with
  | none =>
      rw [List.max?_eq_none_iff] at hmax
      exact ⟨_, rfl, rfl, fun n => by simp [hmax]⟩
  | some rc =>
      rw [List.max?_eq_some_iff] at hmax
      obtain ⟨hmem, hle⟩ := hmax
      have hlargest :
          ∀ n, n ≤ rc ↔ ∃ m ∈ p.overrideRowCounts, n ≤ m := by
        intro n
        constructor
        · intro hn
          exact ⟨rc, hmem, hn⟩
        · rintro ⟨m, hm, hn⟩
          exact UInt64.le_trans hn (hle m hm)
      refine ⟨_, rfl, rfl, fun n => ?_⟩
      rw [← hlargest]
      cases hrows : (baseStatistics df p.inner).numRows <;>
        simp [Precision.Reaches, precisionValue, Std.le_max, or_comm]

theorem length_baseStatistics
    (hdf : df.Documented) :
    (baseStatistics df p.inner).columnStatistics.length =
      df.fieldCount p.inner.schema := by
  unfold baseStatistics
  simp only
  split_ifs with hlength
  · rw [hdf.unknownColumn_eq, List.length_replicate]
  · exact not_not.mp hlength

/-- The row count of the base is the one of the inner provider. -/
theorem reaches_baseStatistics_iff
    (hdf : df.Documented)
    {n : UInt64} :
    (baseStatistics df p.inner).numRows.Reaches n ↔
      ∃ stats, p.inner.statistics = some stats ∧
        stats.numRows.Reaches n := by
  have hrows :
      (baseStatistics df p.inner).numRows =
        (p.inner.statistics.getD
          (df.newUnknown p.inner.schema)).numRows := by
    unfold baseStatistics
    simp only
    split_ifs <;> rfl
  rw [hrows]
  cases p.inner.statistics with
  | none =>
      rw [Option.getD_none, hdf.newUnknown_eq]
      simp [Precision.Reaches, precisionValue]
  | some stats =>
      simp

/-- What a successful traversal has at an index. -/
theorem getElem?_mapM_eq_some
    {α β : Type}
    {f : α → Option β}
    {as : List α}
    {bs : List β}
    (h : as.mapM f = some bs)
    {i : Nat}
    {a : α}
    (ha : as[i]? = some a) :
    ∃ b, f a = some b ∧ bs[i]? = some b := by
  induction as generalizing bs i with
  | nil =>
      cases ha
  | cons first as ih =>
      simp only [List.mapM_cons, Option.bind_eq_bind,
        Option.bind_eq_some_iff, Option.pure_def,
        Option.some.injEq] at h
      obtain ⟨b, hb, rest, hrest, rfl⟩ := h
      cases i with
      | zero =>
          obtain rfl : first = a := by
            simpa using ha
          exact ⟨b, hb, rfl⟩
      | succ i =>
          exact ih hrest (by simpa using ha)

/-- Projecting keeps the row count and picks the columns. -/
theorem project_eq_some
    (hdf : df.Documented)
    {stats output : Statistics χ}
    (hlength :
      stats.columnStatistics.length = df.fieldCount p.inner.schema)
    (h : df.project stats projection = some output) :
    output.numRows = stats.numRows ∧
      ∀ position colIdx : Nat,
        (projectedColumns (df.fieldCount p.inner.schema)
            projection)[position]? = some colIdx →
          colIdx < df.fieldCount p.inner.schema ∧
          output.columnStatistics[position]? =
            stats.columnStatistics[colIdx]? := by
  cases projection with
  | none =>
      rw [hdf.project_none] at h
      obtain rfl := Option.some.inj h
      refine ⟨rfl, fun position colIdx hcolumn => ?_⟩
      obtain ⟨hlt, rfl⟩ := List.getElem?_eq_some_iff.mp hcolumn
      simp only [projectedColumns, List.length_range] at hlt
      simp only [projectedColumns, List.getElem_range, and_true]
      exact hlt
  | some columns =>
      rw [hdf.project_some] at h
      obtain ⟨picked, hpicked, rfl⟩ := Option.map_eq_some_iff.mp h
      refine ⟨rfl, fun position colIdx hcolumn => ?_⟩
      obtain ⟨column, hcolumn, houtput⟩ :=
        getElem?_mapM_eq_some hpicked hcolumn
      obtain ⟨hlt, _⟩ := List.getElem?_eq_some_iff.mp hcolumn
      rw [hlength] at hlt
      exact ⟨hlt, houtput.trans hcolumn.symm⟩

/-- What the inner plan and the published statistics are of a scan. -/
theorem scan_eq_ok
    {state : ς}
    {filters : List φ}
    {limit : Option Usize}
    {exec : Plan ο χ}
    (h : p.scan df state projection filters limit = .ok exec) :
    ∃ innerPlan output,
      p.inner.scan state projection filters limit = .ok innerPlan ∧
      df.project
          ((p.statistics df).getD (df.newUnknown p.inner.schema))
          projection =
        some output ∧
      exec = .statsExec innerPlan output := by
  unfold scan at h
  cases hinner : p.inner.scan state projection filters limit with
  | error e =>
      simp only [hinner] at h
      cases h
  | ok innerPlan =>
      simp only [hinner] at h
      cases hproject :
          df.project
            ((p.statistics df).getD (df.newUnknown p.inner.schema))
            projection with
      | none =>
          simp only [hproject] at h
          cases h
      | some output =>
          simp only [hproject] at h
          exact
            ⟨innerPlan, output, rfl, rfl, (Except.ok.inj h).symm⟩

end Published

section Guard

variable
  {df : DataFusionApi σ χ}
  {p : SamkhyaTableProvider σ ς φ ε ο χ}
  {projection : Option (List Nat)}

/-- The distinct count of a base column, by what the provider reports. -/
theorem reaches_baseColumn_iff
    (hdf : df.Documented)
    {colIdx : Nat}
    {column : ColumnStatistics χ}
    (hcolumn :
      (baseStatistics df p.inner).columnStatistics[colIdx]? =
        some column)
    {stats : Statistics χ}
    (hstats : p.inner.statistics = some stats)
    {native : ColumnStatistics χ}
    (hnative : stats.columnStatistics[colIdx]? = some native)
    {n : UInt64} :
    column.distinctCount.Reaches n ↔
      stats.columnStatistics.length = df.fieldCount p.inner.schema ∧
        native.distinctCount.Reaches n := by
  unfold baseStatistics at hcolumn
  rw [hstats, Option.getD_some] at hcolumn
  simp only at hcolumn
  split_ifs at hcolumn with hlength
  · rw [hdf.unknownColumn_eq, List.getElem?_replicate] at hcolumn
    split_ifs at hcolumn
    obtain rfl := Option.some.inj hcolumn
    simp [hlength, Precision.Reaches, precisionValue,
      ColumnStatistics.unknown]
  · rw [hnative] at hcolumn
    obtain rfl := Option.some.inj hcolumn
    simp [not_not.mp hlength]

/-- What an emitted column reaches, by the provider and the overrides. -/
theorem exists_emittedColumn
    (hdf : df.Documented)
    {full output : Statistics χ}
    (hcolumns :
      full.columnStatistics =
        p.overrides.entries.foldl
          (mergeOverride df (df.fieldCount p.inner.schema))
          (baseStatistics df p.inner).columnStatistics)
    {position colIdx : Nat}
    (houtput :
      colIdx < df.fieldCount p.inner.schema ∧
        output.columnStatistics[position]? =
          full.columnStatistics[colIdx]?)
    {stats : Statistics χ}
    (hstats : p.inner.statistics = some stats)
    {native : ColumnStatistics χ}
    (hnative : stats.columnStatistics[colIdx]? = some native) :
    ∃ column,
      output.columnStatistics[position]? = some column ∧
      ∀ n, column.distinctCount.Reaches n ↔
        (stats.columnStatistics.length =
            df.fieldCount p.inner.schema ∧
          native.distinctCount.Reaches n) ∨
        ∃ entry ∈ p.overrides.entries,
          entry.1 = colIdx ∧
          ∃ m, entry.2.distinctCount = some m ∧ n ≤ m := by
  have hin := houtput.1
  rw [← length_baseStatistics hdf] at hin
  have hentry := List.getElem?_eq_getElem hin
  obtain ⟨merged, hmerged, hreaches⟩ :=
    getElem?_foldl_mergeOverride houtput.1 hentry
  refine ⟨merged, ?_, fun n => ?_⟩
  · rw [houtput.2, hcolumns, hmerged]
  · rw [hreaches, reaches_baseColumn_iff hdf hentry hstats hnative]

/--
**When the guard holds at the physical layer.**  The scan publishes the fold of
the provider's statistics and never looks at those of the inner plan.
-/
theorem scan_monotone_iff
    (engine : Engine ο χ)
    (df : DataFusionApi σ χ)
    (hdf : df.Documented)
    (p : SamkhyaTableProvider σ ς φ ε ο χ)
    (state : ς)
    (projection : Option (List Nat))
    (filters : List φ)
    (limit : Option Usize)
    {innerPlan exec : Plan ο χ}
    (hinner :
      p.inner.scan state projection filters limit = .ok innerPlan)
    (hscan : p.scan df state projection filters limit = .ok exec) :
    PlanMemoryMonotone engine df p.inner projection innerPlan
        (exec.statistics engine) ↔
      CountsCovered engine df p projection innerPlan := by
  obtain ⟨innerPlan', output, hinner', hproject, rfl⟩ :=
    scan_eq_ok hscan
  obtain rfl : innerPlan' = innerPlan :=
    Except.ok.inj (hinner'.symm.trans hinner)
  obtain ⟨full, hfull, hcolumns, hrows⟩ := statistics_eq df p
  have hlength :
      full.columnStatistics.length =
        df.fieldCount p.inner.schema := by
    rw [hcolumns, length_foldl_mergeOverride,
      length_baseStatistics hdf]
  rw [hfull, Option.getD_some] at hproject
  obtain ⟨hsame, houtput⟩ := project_eq_some hdf hlength hproject
  change
    PlanMemoryMonotone engine df p.inner projection innerPlan'
        output ↔ _
  constructor
  · intro hmonotone
    constructor
    · intro n hn
      have hreached := hmonotone.rows n hn
      rw [hsame, hrows, reaches_baseStatistics_iff hdf] at hreached
      rcases hreached with ⟨stats, hstats, m, hm, hle⟩ | ⟨m, hm, hle⟩
      · exact ⟨m, Or.inr ⟨stats, hstats, hm⟩, hle⟩
      · exact ⟨m, Or.inl hm, hle⟩
    · intro stats hstats
      by_cases hfields :
          stats.columnStatistics.length =
            df.fieldCount p.inner.schema
      · exact Or.inl hfields
      · right
        intro colIdx hmem native hnative n hn
        obtain ⟨position, hposition⟩ :=
          List.mem_iff_getElem?.mp hmem
        obtain ⟨column, hpublished, hreaches⟩ :=
          exists_emittedColumn hdf hcolumns
            (houtput position colIdx hposition) hstats hnative
        obtain ⟨column', hpublished', hcovered⟩ :=
          hmonotone.distinct position colIdx hposition stats hstats
            native hnative
        obtain rfl : column = column' :=
          Option.some.inj (hpublished.symm.trans hpublished')
        rcases (hreaches n).mp (hcovered n hn) with
          ⟨hfields', _⟩ | hoverride
        · exact absurd hfields' hfields
        · exact hoverride
  · intro hcovered
    constructor
    · intro n hn
      rw [hsame, hrows, reaches_baseStatistics_iff hdf]
      obtain ⟨m, hm | ⟨stats, hstats, hm⟩, hle⟩ :=
        hcovered.rows n hn
      · exact Or.inr ⟨m, hm, hle⟩
      · exact Or.inl ⟨stats, hstats, m, hm, hle⟩
    · intro position colIdx hposition stats hstats native hnative
      obtain ⟨column, hpublished, hreaches⟩ :=
        exists_emittedColumn hdf hcolumns
          (houtput position colIdx hposition) hstats hnative
      refine ⟨column, hpublished, fun n hn => ?_⟩
      rw [hreaches]
      rcases hcovered.distinct stats hstats with hfields | hoverride
      · exact Or.inl ⟨hfields, n, hn, UInt64.le_refl n⟩
      · exact
          Or.inr
            (hoverride colIdx (List.mem_of_getElem? hposition) native
              hnative n hn)

section MemTable

/-- DataFusion as documented, with schemas as their number of fields. -/
def plainApi : DataFusionApi Nat Unit where
  fieldCount n := n
  newUnknown n :=
    { numRows := .absent
      totalByteSize := .absent
      columnStatistics := List.replicate n (.unknown Unit) }
  unknownColumn n := List.replicate n (.unknown Unit)
  project stats
    | none => some stats
    | some projection =>
        (projection.mapM (fun i => stats.columnStatistics[i]?)).map
          (fun columns => { stats with columnStatistics := columns })
  int64 _ := ()
  float64 _ := ()
  utf8 _ := ()
  binary _ := ()

theorem plainApi_documented : plainApi.Documented where
  unknownColumn_eq _ := rfl
  newUnknown_eq _ := rfl
  project_none _ := rfl
  project_some _ _ := rfl

/-- The scan of a table of five rows. -/
def memScan : Plan Unit Unit :=
  .node ⟨.other, ()⟩ []

/-- It reports its exact row count. -/
def memEngine : Engine Unit Unit where
  statistics _ _ :=
    { numRows := .exact 5
      totalByteSize := .absent
      columnStatistics := [.unknown Unit] }

/-- A table whose provider keeps the default of reporting no statistics. -/
def memTable : TableProvider Nat Unit Unit Unit Unit Unit where
  schema := 1
  statistics := none
  scan _ _ _ _ := .ok memScan

/-- Wrapping it without an override loses its row count. -/
theorem scan_memTable_absent :
    ∃ exec,
      (new memTable).scan plainApi () none [] none = .ok exec ∧
      (memScan.statistics memEngine).numRows = .exact 5 ∧
      (exec.statistics memEngine).numRows = .absent ∧
      ¬ PlanMemoryMonotone memEngine plainApi memTable none memScan
          (exec.statistics memEngine) := by
  refine ⟨_, rfl, rfl, rfl, ?_⟩
  intro hmonotone
  obtain ⟨m, hm, _⟩ := hmonotone.rows 5 rfl
  cases hm

/-- The same table with an override that covers it. -/
theorem scan_memTable_covered :
    ∃ exec,
      ((new memTable).withColumnStats 0
          { ColumnStats.new with rowCount := some 999 }).scan
          plainApi () (some [0]) [] none =
        .ok exec ∧
      PlanMemoryMonotone memEngine plainApi memTable (some [0])
        memScan (exec.statistics memEngine) := by
  refine ⟨_, rfl, ?_⟩
  refine
    (scan_monotone_iff memEngine plainApi plainApi_documented
      ((new memTable).withColumnStats 0
        { ColumnStats.new with rowCount := some 999 })
      () (some [0]) [] none rfl rfl).mpr ⟨?_, ?_⟩
  · intro n hn
    refine ⟨999, Or.inl (by decide), ?_⟩
    rw [← Option.some.inj hn]
    decide
  · intro stats hstats
    cases hstats

end MemTable

end Guard

end SamkhyaTableProvider

end Samkhya
