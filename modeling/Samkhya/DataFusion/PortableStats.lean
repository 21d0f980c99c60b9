import Mathlib
import Samkhya.DataFusion.TableProvider
import Samkhya.Iceberg.SidecarRoundTrip

/-!
# Portable statistics bound to a provider's columns

`try_with_portable_stats` decodes one Iceberg field of a portable snapshot and
installs what it holds as the override of a column ordinal.

A list of bindings is run one after the other.  Each either is refused with a
message that only depends on what is stored for its field (`Binding.refusal`),
or installs exactly that (`Carries.withColumnStats`).  The fold of the overrides
then touches no more than the distinct counts of the columns that were bound,
in whatever order the map is iterated.
-/

namespace Samkhya

open FieldCodec Binary64
open Loader PortableStatsSnapshot

/-- How a binding fails. -/
inductive BindError
  | plan (message : String)
  | external (e : PortableError)
deriving DecidableEq

namespace BindError

def notPositive (icebergFieldId : Int32) : String :=
  "Iceberg field id must be positive; got " ++ toString icebergFieldId

def outOfRange (ordinal fieldCount : Nat) : String :=
  "DataFusion column ordinal " ++ toString ordinal ++
    " is out of range for a provider with " ++ toString fieldCount ++
    " columns"

def unsupported (icebergFieldId : Int32) : String :=
  "portable snapshot has no supported statistics for Iceberg field id " ++
    toString icebergFieldId

def incompatible (icebergFieldId : Int32) : String :=
  "portable snapshot has no DataFusion-compatible scalar statistics " ++
    "for Iceberg field id " ++ toString icebergFieldId

end BindError

def hasDatafusionPlannerStats (stats : ColumnStats) : Bool :=
  stats.rowCount.isSome ||
    stats.nullCount.isSome ||
    stats.distinctCount.isSome ||
    stats.min.isSome ||
    stats.max.isSome

/-- One call: an Iceberg field and the column it is for. -/
structure Binding where
  icebergFieldId : Int32
  ordinal : Nat

/-- The last of the bindings of a column. -/
def lastBinding
    (bindings : List Binding)
    (ordinal : Nat) : Option Binding :=
  (bindings.filter (fun b => b.ordinal = ordinal)).getLast?

/-- Why a binding is refused, by what is stored for its field. -/
def Binding.refusal
    (fieldCount : Nat)
    (stored : List StoredBlob)
    (b : Binding) : Option String :=
  if b.icebergFieldId ≤ 0 then
    some (BindError.notPositive b.icebergFieldId)
  else if fieldCount ≤ b.ordinal then
    some (BindError.outOfRange b.ordinal fieldCount)
  else
    match
      storedHll stored b.icebergFieldId,
      storedHistogram stored b.icebergFieldId
    with
    | some _, _ => none
    | none, some _ => some (BindError.incompatible b.icebergFieldId)
    | none, none => some (BindError.unsupported b.icebergFieldId)

namespace SamkhyaTableProvider

variable {σ ς φ ε ο χ : Type}

/-- Decode a field of a snapshot and bind it to a column. -/
def tryWithPortableStats
    (df : DataFusionApi σ χ)
    (c : SketchCodecs)
    (p : SamkhyaTableProvider σ ς φ ε ο χ)
    (snapshot : PortableStatsSnapshot)
    (icebergFieldId : Int32)
    (ordinal : Nat) :
    Except BindError (SamkhyaTableProvider σ ς φ ε ο χ) :=
  if icebergFieldId ≤ 0 then
    .error (.plan (BindError.notPositive icebergFieldId))
  else
    let fieldCount := df.fieldCount p.inner.schema
    if fieldCount ≤ ordinal then
      .error (.plan (BindError.outOfRange ordinal fieldCount))
    else
      match snapshot.decodeColumn c icebergFieldId with
      | .error e => .error (.external e)
      | .ok none => .error (.plan (BindError.unsupported icebergFieldId))
      | .ok (some decoded) =>
          if hasDatafusionPlannerStats decoded.stats then
            .ok (p.withColumnStats ordinal decoded.stats)
          else
            .error (.plan (BindError.incompatible icebergFieldId))

/-- Bindings in the order in which they are called. -/
def bindAll
    (df : DataFusionApi σ χ)
    (c : SketchCodecs)
    (snapshot : PortableStatsSnapshot)
    (p : SamkhyaTableProvider σ ς φ ε ο χ)
    (bindings : List Binding) :
    Except BindError (SamkhyaTableProvider σ ς φ ε ο χ) :=
  bindings.foldlM
    (fun p b =>
      p.tryWithPortableStats df c snapshot b.icebergFieldId b.ordinal)
    p

end SamkhyaTableProvider

namespace Overrides

/-- An override replaces the one of its column and leaves the others. -/
theorem mem_entries_insert
    {overrides : Overrides}
    {ordinal i : Nat}
    {stats s : ColumnStats} :
    (i, s) ∈ (overrides.insert ordinal stats).entries ↔
      if i = ordinal then s = stats else (i, s) ∈ overrides.entries := by
  by_cases heq : i = ordinal
  · simp [insert, heq]
  · simp [insert, heq]

end Overrides

/-- A later binding of a column takes the place of an earlier one. -/
theorem lastBinding_append_singleton
    (bindings : List Binding)
    (b : Binding)
    (i : Nat) :
    lastBinding (bindings ++ [b]) i =
      if b.ordinal = i then some b else lastBinding bindings i := by
  unfold lastBinding
  by_cases heq : b.ordinal = i
  · simp [List.filter_append, heq]
  · simp [List.filter_append, heq]

namespace SamkhyaTableProvider

variable {σ ς φ ε ο χ : Type}

section Fold

variable
  {df : DataFusionApi σ χ}
  {nFields i : Nat}
  {columns : List (ColumnStatistics χ)}
  {entries : List (Nat × ColumnStats)}

theorem getElem?_mergeOverride_self
    (hi : i < nFields)
    (stats : ColumnStats) :
    (mergeOverride df nFields columns (i, stats))[i]? =
      columns[i]?.map fun base =>
        mergeColumnStats base (toDatafusionColumnStatistics df stats) := by
  rw [mergeOverride, if_neg (Nat.not_le.mpr hi)]
  simp

theorem getElem?_mergeOverride_of_ne
    {entry : Nat × ColumnStats}
    (hne : entry.1 ≠ i) :
    (mergeOverride df nFields columns entry)[i]? = columns[i]? := by
  unfold mergeOverride
  split_ifs
  · rfl
  · simp [hne]

/-- A column without an override keeps what the base has. -/
theorem getElem?_foldl_of_notMem
    (hentries : ∀ entry ∈ entries, entry.1 ≠ i) :
    (entries.foldl (mergeOverride df nFields) columns)[i]? =
      columns[i]? := by
  induction entries generalizing columns with
  | nil => rfl
  | cons entry entries ih =>
      rw [List.forall_mem_cons] at hentries
      rw [List.foldl_cons, ih hentries.2,
        getElem?_mergeOverride_of_ne hentries.1]

/-- A column with an override has it merged in once. -/
theorem getElem?_foldl_of_mem
    (hnodup : (entries.map Prod.fst).Nodup)
    (hi : i < nFields)
    {stats : ColumnStats}
    (hmem : (i, stats) ∈ entries) :
    (entries.foldl (mergeOverride df nFields) columns)[i]? =
      columns[i]?.map fun base =>
        mergeColumnStats base (toDatafusionColumnStatistics df stats) := by
  induction entries generalizing columns with
  | nil => cases hmem
  | cons entry entries ih =>
      rw [List.map_cons, List.nodup_cons] at hnodup
      rw [List.foldl_cons]
      rcases List.mem_cons.mp hmem with rfl | hrest
      · have hothers : ∀ entry ∈ entries, entry.1 ≠ i := by
          rintro entry hentry rfl
          exact hnodup.1 (List.mem_map.mpr ⟨entry, hentry, rfl⟩)
        rw [getElem?_foldl_of_notMem hothers,
          getElem?_mergeOverride_self hi]
      · have hne : entry.1 ≠ i := by
          rintro rfl
          exact hnodup.1 (List.mem_map.mpr ⟨_, hrest, rfl⟩)
        rw [ih hnodup.2 hrest, getElem?_mergeOverride_of_ne hne]

end Fold

/-- What a bound column is published as. -/
def boundColumn
    (math : EstimateMath)
    (stored : List StoredBlob)
    (bindings : List Binding)
    (i : Nat)
    (column : ColumnStatistics χ) : ColumnStatistics χ :=
  match lastBinding bindings i with
  | none => column
  | some b =>
      { column with
        distinctCount :=
          pickMaxUsize column.distinctCount
            (optionU64ToPrecisionUsize
              (storedStats math stored b.icebergFieldId).distinctCount) }

/--
The inner scan, publishing the statistics of the inner provider with every
column changed as given.
-/
def scanWith
    (df : DataFusionApi σ χ)
    (inner : TableProvider σ ς φ ε ο χ)
    (change : Nat → ColumnStatistics χ → ColumnStatistics χ)
    (state : ς)
    (projection : Option (List Nat))
    (filters : List φ)
    (limit : Option Usize) : Except (ScanFailure ε) (Plan ο χ) :=
  match inner.scan state projection filters limit with
  | .error e => .error (.inner e)
  | .ok innerPlan =>
      let base := baseStatistics df inner
      match
        (projectedColumns (df.fieldCount inner.schema) projection).mapM
          (fun i => base.columnStatistics[i]?.map (change i))
      with
      | none => .error .panicked
      | some columns =>
          .ok
            (.statsExec innerPlan
              { base with columnStatistics := columns })

section Scan

variable
  {df : DataFusionApi σ χ}
  {p : SamkhyaTableProvider σ ς φ ε ο χ}
  {change : Nat → ColumnStatistics χ → ColumnStatistics χ}

/-- Reading a list index by index gives the list back. -/
theorem mapM_range'_getElem?
    {α : Type}
    (front l : List α) :
    (List.range' front.length l.length).mapM
        (fun i => (front ++ l)[i]?) =
      some l := by
  induction l generalizing front with
  | nil => rfl
  | cons a l ih =>
      have hrest := ih (front ++ [a])
      rw [List.length_append, List.length_singleton,
        List.append_assoc, List.singleton_append] at hrest
      rw [List.length_cons, List.range'_succ, List.mapM_cons, hrest]
      simp

/-- A projection picks its columns and leaves the rest alone. -/
theorem project_eq_mapM
    (hdf : df.Documented)
    {n : Nat}
    (stats : Statistics χ)
    (hlength : stats.columnStatistics.length = n)
    (projection : Option (List Nat)) :
    df.project stats projection =
      ((projectedColumns n projection).mapM
          (fun i => stats.columnStatistics[i]?)).map
        (fun columns => { stats with columnStatistics := columns }) := by
  cases projection with
  | none =>
      have hread := mapM_range'_getElem? [] stats.columnStatistics
      rw [List.nil_append, List.length_nil, ← List.range_eq_range',
        hlength] at hread
      rw [hdf.project_none, projectedColumns, hread]
      rfl
  | some columns => rw [hdf.project_some, projectedColumns]

/-- Overrides without row counts leave all but the columns alone. -/
theorem statistics_of_no_rowCount
    (hrows : p.overrideRowCounts = []) :
    p.statistics df =
      some
        { baseStatistics df p.inner with
          columnStatistics :=
            p.overrides.entries.foldl
              (mergeOverride df (df.fieldCount p.inner.schema))
              (baseStatistics df p.inner).columnStatistics } := by
  unfold statistics
  rw [hrows]
  rfl

/-- A scan whose fold changes the columns as given, and nothing else. -/
theorem scan_eq_scanWith
    (hdf : df.Documented)
    (hrows : p.overrideRowCounts = [])
    (hcolumns :
      ∀ i < df.fieldCount p.inner.schema,
        (p.overrides.entries.foldl
            (mergeOverride df (df.fieldCount p.inner.schema))
            (baseStatistics df p.inner).columnStatistics)[i]? =
          (baseStatistics df p.inner).columnStatistics[i]?.map
            (change i))
    (state : ς)
    (projection : Option (List Nat))
    (filters : List φ)
    (limit : Option Usize) :
    p.scan df state projection filters limit =
      scanWith df p.inner change state projection filters limit := by
  have hlength := length_baseStatistics (p := p) hdf
  generalize hmerged :
    p.overrides.entries.foldl
        (mergeOverride df (df.fieldCount p.inner.schema))
        (baseStatistics df p.inner).columnStatistics =
      merged at hcolumns
  have hsame : merged.length = df.fieldCount p.inner.schema := by
    rw [← hmerged, length_foldl_mergeOverride, hlength]
  have hall :
      ∀ i : Nat,
        merged[i]? =
          (baseStatistics df p.inner).columnStatistics[i]?.map
            (change i) := by
    intro i
    by_cases hi : i < df.fieldCount p.inner.schema
    · exact hcolumns i hi
    · rw [List.getElem?_eq_none (hsame.trans_le (Nat.not_lt.mp hi)),
        List.getElem?_eq_none (hlength.trans_le (Nat.not_lt.mp hi))]
      rfl
  have hproject :=
    project_eq_mapM hdf
      { baseStatistics df p.inner with columnStatistics := merged }
      hsame projection
  simp only [hall] at hproject
  unfold scan scanWith
  rw [statistics_of_no_rowCount hrows, hmerged, Option.getD_some]
  cases p.inner.scan state projection filters limit with
  | error e => rfl
  | ok innerPlan =>
      simp only [hproject]
      cases (projectedColumns (df.fieldCount p.inner.schema)
          projection).mapM
        (fun i =>
          (baseStatistics df p.inner).columnStatistics[i]?.map
            (change i)) with
      | none => rfl
      | some columns => rfl

end Scan

/-- The overrides hold what is stored for the last binding of each column. -/
def Carries
    (math : EstimateMath)
    (stored : List StoredBlob)
    (bindings : List Binding)
    (overrides : Overrides) : Prop :=
  ∀ i stats, (i, stats) ∈ overrides.entries ↔
    ∃ b, lastBinding bindings i = some b ∧
      stats = storedStats math stored b.icebergFieldId

section Bindings

variable
  {df : DataFusionApi σ χ}
  {display : F64 → String}
  {math : EstimateMath}
  {stored : List StoredBlob}
  {snapshot : PortableStatsSnapshot}
  {bindings : List Binding}
  {overrides : Overrides}
  {inner : TableProvider σ ς φ ε ο χ}
  {p : SamkhyaTableProvider σ ς φ ε ο χ}

theorem carries_empty :
    Carries math stored [] .empty := by
  intro i stats
  simp [Overrides.empty, lastBinding]

/-- Installing what is stored for a binding carries it as the last one. -/
theorem Carries.insert
    (h : Carries math stored bindings overrides)
    (b : Binding) :
    Carries math stored (bindings ++ [b])
      (overrides.insert b.ordinal
        (storedStats math stored b.icebergFieldId)) := by
  intro i stats
  rw [Overrides.mem_entries_insert, lastBinding_append_singleton]
  by_cases heq : i = b.ordinal
  · simp [heq]
  · rw [if_neg heq, if_neg (Ne.symm heq)]
    exact h i stats

/-- No row count comes out of a snapshot. -/
theorem Carries.overrideRowCounts_eq
    (h : Carries math stored bindings p.overrides) :
    p.overrideRowCounts = [] := by
  refine List.filterMap_eq_nil_iff.mpr ?_
  rintro ⟨i, stats⟩ hmem
  obtain ⟨b, _, rfl⟩ := (h i stats).mp hmem
  unfold storedStats
  cases storedHll stored b.icebergFieldId <;> rfl

/-- A distinct count is all that a stored sketch changes of a column. -/
theorem mergeColumnStats_storedStats
    (column : ColumnStatistics χ)
    (fieldId : Int32) :
    mergeColumnStats column
        (toDatafusionColumnStatistics df
          (storedStats math stored fieldId)) =
      { column with
        distinctCount :=
          pickMaxUsize column.distinctCount
            (optionU64ToPrecisionUsize
              (storedStats math stored fieldId).distinctCount) } := by
  unfold storedStats
  cases storedHll stored fieldId <;> rfl

/-- The fold merges into every column what its last binding stands for. -/
theorem Carries.getElem?_foldl
    (h : Carries math stored bindings p.overrides)
    {columns : List (ColumnStatistics χ)}
    {nFields i : Nat}
    (hi : i < nFields) :
    (p.overrides.entries.foldl (mergeOverride df nFields)
        columns)[i]? =
      columns[i]?.map (boundColumn math stored bindings i) := by
  cases hlast : lastBinding bindings i with
  | none =>
      have hnone : ∀ entry ∈ p.overrides.entries, entry.1 ≠ i := by
        rintro ⟨i', stats⟩ hmem rfl
        obtain ⟨b, hb, _⟩ := (h _ stats).mp hmem
        rw [hlast] at hb
        cases hb
      have hkeep :
          boundColumn (χ := χ) math stored bindings i = id := by
        funext column
        simp only [boundColumn, hlast, id]
      rw [getElem?_foldl_of_notMem hnone, hkeep, Option.map_id, id]
  | some b =>
      have hmem := (h i _).mpr ⟨b, hlast, rfl⟩
      rw [getElem?_foldl_of_mem p.overrides.nodup hi hmem]
      congr 1
      funext column
      rw [mergeColumnStats_storedStats]
      simp only [boundColumn, hlast]

/-- What the snapshot decodes to is what is stored. -/
def Holding
    (display : F64 → String)
    (math : EstimateMath)
    (stored : List StoredBlob)
    (snapshot : PortableStatsSnapshot) : Prop :=
  ∀ fieldId, 0 ≤ fieldId →
    snapshot.decodeColumn (sketchCodecs display math) fieldId =
      .ok
        (assemble (sketchCodecs display math) fieldId
          (storedHll stored fieldId, storedHistogram stored fieldId))

/-- One binding: refused for what is stored, or installed. -/
theorem tryWithPortableStats_eq
    (df : DataFusionApi σ χ)
    (h : Holding display math stored snapshot)
    (b : Binding) :
    p.tryWithPortableStats df (sketchCodecs display math) snapshot
        b.icebergFieldId b.ordinal =
      match b.refusal (df.fieldCount p.inner.schema) stored with
      | some message => .error (.plan message)
      | none =>
          .ok
            (p.withColumnStats b.ordinal
              (storedStats math stored b.icebergFieldId)) := by
  unfold tryWithPortableStats Binding.refusal
  by_cases hpositive : b.icebergFieldId ≤ 0
  · rw [if_pos hpositive, if_pos hpositive]
  rw [if_neg hpositive, if_neg hpositive]
  by_cases hrange : df.fieldCount p.inner.schema ≤ b.ordinal
  · simp [hrange]
  have hfield := Int32.le_of_lt (Int32.not_le.mp hpositive)
  simp only [if_neg hrange, h b.icebergFieldId hfield, storedStats]
  cases storedHll stored b.icebergFieldId with
  | none =>
      cases storedHistogram stored b.icebergFieldId <;> rfl
  | some sketch => rfl

theorem bindAll_append_singleton
    (c : SketchCodecs)
    (bindings : List Binding)
    (b : Binding) :
    bindAll df c snapshot p (bindings ++ [b]) =
      match bindAll df c snapshot p bindings with
      | .error e => .error e
      | .ok p =>
          p.tryWithPortableStats df c snapshot b.icebergFieldId
            b.ordinal := by
  have hsplit :
      bindAll df c snapshot p (bindings ++ [b]) =
        (bindAll df c snapshot p bindings).bind fun p =>
          p.tryWithPortableStats df c snapshot b.icebergFieldId
            b.ordinal := by
    unfold bindAll
    rw [List.foldlM_append]
    simp only [List.foldlM_cons, List.foldlM_nil, bind_pure]
    rfl
  rw [hsplit]
  cases bindAll df c snapshot p bindings <;> rfl

/-- A run of bindings stops at the first that is refused. -/
theorem bindAll_spec
    (df : DataFusionApi σ χ)
    (inner : TableProvider σ ς φ ε ο χ)
    (h : Holding display math stored snapshot)
    (bindings : List Binding) :
    match
      bindings.findSome?
        (Binding.refusal (df.fieldCount inner.schema) stored)
    with
    | some message =>
        bindAll df (sketchCodecs display math) snapshot (new inner)
            bindings =
          .error (.plan message)
    | none =>
        ∃ p,
          bindAll df (sketchCodecs display math) snapshot (new inner)
              bindings =
            .ok p ∧
          p.inner = inner ∧
          Carries math stored bindings p.overrides := by
  induction bindings using List.reverseRecOn with
  | nil => exact ⟨new inner, rfl, rfl, carries_empty⟩
  | append_singleton bindings b ih =>
      rw [List.findSome?_append, bindAll_append_singleton]
      cases hfirst :
          bindings.findSome?
            (Binding.refusal (df.fieldCount inner.schema) stored) with
      | some message =>
          simp only [hfirst] at ih
          simp only [ih, Option.some_or]
      | none =>
          simp only [hfirst] at ih
          obtain ⟨p, hp, rfl, hcarries⟩ := ih
          have hstep := tryWithPortableStats_eq (p := p) df h b
          simp only [hp, hstep, Option.none_or,
            List.findSome?_singleton]
          cases b.refusal (df.fieldCount p.inner.schema) stored with
          | some message => rfl
          | none => exact ⟨_, rfl, rfl, hcarries.insert b⟩

end Bindings

end SamkhyaTableProvider

end Samkhya
