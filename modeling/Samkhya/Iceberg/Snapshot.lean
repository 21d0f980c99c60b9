import Mathlib
import Samkhya.Iceberg.SidecarRoundTrip

/-!
# Loading through a table's own storage

`discover_puffin_sidecars` picks the statistics files of a table's current
snapshot, and `load_portable_stats_from_table` reads them through the reader of
the Iceberg crate.

Table metadata has at most one statistics file of a snapshot, so the sort of the
paths and the removal of repeats have nothing to do.  What that reader returns
of a file is the same kind of view that the local loader has of it
(`IcebergFileIo.view`).  Where the two views agree, a table load is a local load
of the discovered paths that also insists on the sequence number of the snapshot
(`loadPortableStatsFromTable_eq_ok_iff`).
-/

namespace Samkhya

open FieldCodec Binary64 KeyedRecords
open Loader PortableStatsSnapshot

/-- A component of a path, in the order in which components compare. -/
inductive Component
  | rootDir
  | curDir
  | parentDir
  | normal (name : Bytes)
deriving DecidableEq

namespace PathBuf

/-- The component of what stands between two separators. -/
def bodyComponent (part : Bytes) : Option Component :=
  if part = asBytes "" ∨ part = asBytes "." then
    none
  else if part = asBytes ".." then
    some .parentDir
  else
    some (.normal part)

/-- `Path::components` on Unix. -/
def components (path : PathBuf) : List Component :=
  let separator : UInt8 := 47
  let parts := path.splitOn separator
  let body := parts.filterMap bodyComponent
  if path.head? = some separator then
    .rootDir :: body
  else if parts.head? = some (asBytes ".") then
    .curDir :: body
  else
    body

end PathBuf

/-- Components compare by constructor, and names by their bytes. -/
def Component.key : Component → List Nat
  | .rootDir => [0]
  | .curDir => [1]
  | .parentDir => [2]
  | .normal name => 3 :: name.map UInt8.toNat

/-- Paths compare component by component. -/
def PathBuf.key (path : PathBuf) : List (List Nat) :=
  (PathBuf.components path).map Component.key

structure IcebergSnapshot where
  snapshotId : Int64
  sequenceNumber : Int64

structure StatisticsFile where
  snapshotId : Int64
  statisticsPath : String

/-- The metadata of a table; its statistics are kept by snapshot. -/
structure TableMetadata where
  currentSnapshot : Option IcebergSnapshot
  statistics : List StatisticsFile
  currentSchema : Schema
  distinct : (statistics.map StatisticsFile.snapshotId).Nodup

/-- `sort` and `dedup`: of neighbours with equal keys the first is kept. -/
def sortDedup
    {α κ : Type}
    [LinearOrder κ]
    (key : α → κ)
    (xs : List α) : List α :=
  (xs.mergeSort fun a b => key a ≤ key b).destutter
    fun a b => key a ≠ key b

/-- A blob's metadata; only the reader looks at the rest. -/
structure IcebergBlobMetadata (β : Type) where
  blobType : String
  fields : List Int32
  snapshotId : Int64
  sequenceNumber : Int64
  properties : Properties
  rest : β

structure IcebergFileMetadata (β : Type) where
  blobs : List (IcebergBlobMetadata β)
  properties : Properties

/-- The Iceberg crate's reader over a table's storage; errors are texts. -/
structure IcebergFileIo (β : Type) where
  fileMetadata : String → Except String (IcebergFileMetadata β)
  blob : String → IcebergBlobMetadata β → Except String Bytes

namespace TableMetadata

/-- Paths of the statistics files of the current snapshot. -/
def currentPaths (table : TableMetadata) : List PathBuf :=
  match table.currentSnapshot with
  | none => []
  | some current =>
      (table.statistics.filter
          (fun statistics =>
            statistics.snapshotId = current.snapshotId)).map
        (fun statistics => asBytes statistics.statisticsPath)

/-- Discover the sidecars attached to the current snapshot. -/
def discoverPuffinSidecars
    (table : TableMetadata) : SnapshotPuffinPaths :=
  match table.currentSnapshot with
  | none => ⟨none, []⟩
  | some current =>
      ⟨some current.snapshotId,
        sortDedup PathBuf.key table.currentPaths⟩

end TableMetadata

section Loading

variable {β : Type}

def icebergError (e : String) : PortableError :=
  .puffin (.invalidPuffin ("Iceberg Puffin access failed: " ++ e))

def validateSnapshotId
    (expected : Option Int64)
    (actual : Int64)
    (kind : String) : Except PortableError Unit :=
  match expected with
  | none => .ok ()
  | some expected =>
      if actual ≠ -1 ∧ actual ≠ expected then
        .error
          (.puffin
            (.invalidPuffin
              (kind ++ " snapshot-id " ++ toString actual ++
                " does not match current snapshot " ++
                toString expected)))
      else
        .ok ()

def validateSequenceNumber
    (expected : Option Int64)
    (actual : Int64)
    (kind : String) : Except PortableError Unit :=
  match expected with
  | none => .ok ()
  | some expected =>
      if actual ≠ -1 ∧ actual ≠ expected then
        .error
          (.puffin
            (.invalidPuffin
              (kind ++ " sequence-number " ++ toString actual ++
                " does not match current snapshot sequence " ++
                toString expected)))
      else
        .ok ()

/-- One round of the loop over the metadata of a file. -/
def loadTableBlob
    (io : IcebergFileIo β)
    (snapshotId sequenceNumber : Option Int64)
    (location : String)
    (blobs : List PortableSketchBlob)
    (metadata : IcebergBlobMetadata β) :
    Except PortableError (List PortableSketchBlob) :=
  if isSupportedColumnKind metadata.blobType then do
    validateSnapshotId snapshotId metadata.snapshotId metadata.blobType
    validateSequenceNumber sequenceNumber metadata.sequenceNumber
      metadata.blobType
    let data ← (io.blob location metadata).mapError icebergError
    pure
      (blobs ++
        [((PortableSketchBlob.new metadata.blobType metadata.fields
              data).withSnapshotMetadata metadata.snapshotId
            metadata.sequenceNumber).withProperties
          metadata.properties])
  else
    pure blobs

/-- One round of the loop over the sidecars. -/
def loadTableSidecar
    (io : IcebergFileIo β)
    (snapshotId sequenceNumber : Option Int64)
    (blobs : List PortableSketchBlob)
    (sidecar : PathBuf) :
    Except PortableError (List PortableSketchBlob) :=
  match String.fromUTF8? ⟨sidecar.toArray⟩ with
  | none =>
      .error
        (.puffin
          (.invalidPuffin "Iceberg statistics path is not valid UTF-8"))
  | some location => do
      let file ← (io.fileMetadata location).mapError icebergError
      (validateSamkhyaSchemaVersion
        file.properties[samkhyaSchemaVersionProperty]?).mapError
          PortableError.puffin
      file.blobs.foldlM
        (loadTableBlob io snapshotId sequenceNumber location) blobs

/-- Load the supported blobs of the current snapshot. -/
def loadPortableStatsFromTable
    (c : SketchCodecs)
    (io : IcebergFileIo β)
    (table : TableMetadata) :
    Except PortableError PortableStatsSnapshot := do
  let sidecars := table.discoverPuffinSidecars
  let currentSequenceNumber :=
    table.currentSnapshot.map IcebergSnapshot.sequenceNumber
  let blobs ←
    sidecars.paths.foldlM
      (loadTableSidecar io sidecars.snapshotId currentSequenceNumber) []
  let snapshot : PortableStatsSnapshot := ⟨sidecars.snapshotId, blobs⟩
  snapshot.validate c
  pure snapshot

/-- Load and project the statistics of the current table. -/
def loadColumnStats
    (c : SketchCodecs)
    (io : IcebergFileIo β)
    (table : TableMetadata) : Except PortableError ColumnMap := do
  let snapshot ← loadPortableStatsFromTable c io table
  columnStatsFromSnapshot c snapshot table.currentSchema

end Loading

namespace IcebergFileIo

variable {β : Type}

/-- The view of a blob, by the Iceberg crate's reader. -/
def blobView
    (io : IcebergFileIo β)
    (location : String)
    (metadata : IcebergBlobMetadata β) : SidecarBlob where
  kind := metadata.blobType
  fields := metadata.fields
  snapshotId := some metadata.snapshotId
  sequenceNumber := some metadata.sequenceNumber
  properties := metadata.properties
  payload := (io.blob location metadata).toOption

/-- The view of a file, by the Iceberg crate's reader. -/
def view (io : IcebergFileIo β) (path : PathBuf) : Option Sidecar :=
  (String.fromUTF8? ⟨path.toArray⟩).bind fun location =>
    (io.fileMetadata location).toOption.map fun file =>
      { version := file.properties[samkhyaSchemaVersionProperty]?
        blobs := file.blobs.map (io.blobView location) }

end IcebergFileIo

/-- A sequence number that a table load accepts. -/
def OfSequence
    (expected : Option Int64)
    (blob : PortableSketchBlob) : Prop :=
  ∀ number, expected = some number →
    blob.sequenceNumber = some (-1) ∨
      blob.sequenceNumber = some number

section Views

variable
  {β : Type}
  {io : IcebergFileIo β}
  {snapshotId sequenceNumber : Option Int64}
  {location : String}
  {blobs blobs' : List PortableSketchBlob}

theorem mapError_eq_ok_iff
    {ε ε' γ : Type}
    {x : Except ε γ}
    {f : ε → ε'}
    {a : γ} :
    x.mapError f = .ok a ↔ x.toOption = some a := by
  cases x <;> simp [Except.mapError, Except.toOption]

/-- The table's check is the local one on metadata that is all there. -/
theorem validateSnapshotId_eq_ok_iff
    (actual number : Int64)
    (kind : String) :
    validateSnapshotId snapshotId actual kind = .ok () ↔
      validateSnapshotMetadata snapshotId (some actual) (some number)
          kind =
        .ok () := by
  cases snapshotId with
  | none => simp [validateSnapshotId, validateSnapshotMetadata]
  | some expected =>
      simp only [validateSnapshotId, validateSnapshotMetadata,
        Option.isSome_some, ne_eq, not_true, if_false]
      split_ifs <;> simp

theorem validateSequenceNumber_eq_ok_iff
    (actual : Int64)
    (kind : String) :
    validateSequenceNumber sequenceNumber actual kind = .ok () ↔
      ∀ number, sequenceNumber = some number →
        actual = -1 ∨ actual = number := by
  cases sequenceNumber with
  | none => simp [validateSequenceNumber]
  | some expected =>
      simp only [validateSequenceNumber, Option.some.injEq,
        forall_eq']
      split_ifs with h
      · simp only [false_iff, not_or]
        exact h
      · simp only [true_iff]
        tauto

/-- A round appends the blob of the view, if its sequence is current. -/
theorem loadTableBlob_eq_ok_iff
    {metadata : IcebergBlobMetadata β}
    (hknown : isSupportedColumnKind metadata.blobType = true) :
    loadTableBlob io snapshotId sequenceNumber location blobs
        metadata =
      .ok blobs' ↔
      ∃ blob,
        (io.blobView location metadata).load snapshotId = some blob ∧
        OfSequence sequenceNumber blob ∧
        blobs' = blobs ++ [blob] := by
  have hload :
      ∀ blob,
        (io.blobView location metadata).load snapshotId = some blob ↔
          validateSnapshotId snapshotId metadata.snapshotId
              metadata.blobType =
            .ok () ∧
          ∃ data,
            (io.blob location metadata).toOption = some data ∧
            ((PortableSketchBlob.new metadata.blobType
                  metadata.fields data).withSnapshotMetadata
                metadata.snapshotId
                metadata.sequenceNumber).withProperties
              metadata.properties =
            blob := by
    intro blob
    rw [validateSnapshotId_eq_ok_iff _ metadata.sequenceNumber]
    simp only [SidecarBlob.load, IcebergFileIo.blobView]
    cases validateSnapshotMetadata snapshotId
        (some metadata.snapshotId) (some metadata.sequenceNumber)
        metadata.blobType with
    | error e => simp
    | ok u =>
        simp only [Option.map_eq_some_iff, true_and]
        rfl
  have hsequence :
      ∀ data : Bytes,
        validateSequenceNumber sequenceNumber metadata.sequenceNumber
            metadata.blobType =
          .ok () ↔
        OfSequence sequenceNumber
          (((PortableSketchBlob.new metadata.blobType
                metadata.fields data).withSnapshotMetadata
              metadata.snapshotId
              metadata.sequenceNumber).withProperties
            metadata.properties) := by
    intro data
    rw [validateSequenceNumber_eq_ok_iff]
    simp [OfSequence, PortableSketchBlob.withProperties,
      PortableSketchBlob.withSnapshotMetadata]
  unfold loadTableBlob
  rw [if_pos hknown]
  simp only [except_bind_eq_ok_iff, mapError_eq_ok_iff, hload]
  constructor
  · rintro ⟨⟨⟩, hid, ⟨⟩, hnumber, data, hdata, hpure⟩
    exact
      ⟨_, ⟨hid, data, hdata, rfl⟩, (hsequence data).mp hnumber,
        (Except.ok.inj hpure).symm⟩
  · rintro ⟨blob, ⟨hid, data, hdata, rfl⟩, hnumber, rfl⟩
    exact
      ⟨⟨⟩, hid, ⟨⟩, (hsequence data).mpr hnumber, data, hdata, rfl⟩

/-- The loop over the metadata collects what the view loads. -/
theorem foldlM_loadTableBlob_eq_ok_iff
    (metadatas : List (IcebergBlobMetadata β)) :
    metadatas.foldlM
        (loadTableBlob io snapshotId sequenceNumber location) blobs =
      .ok blobs' ↔
      ∃ loaded,
        ((metadatas.map (io.blobView location)).filter
            SidecarBlob.known).mapM (SidecarBlob.load snapshotId) =
          some loaded ∧
        (∀ blob ∈ loaded, OfSequence sequenceNumber blob) ∧
        blobs' = blobs ++ loaded := by
  induction metadatas generalizing blobs with
  | nil =>
      simp only [List.foldlM_nil, List.map_nil, List.filter_nil,
        List.mapM_nil]
      constructor
      · intro h
        exact ⟨[], rfl, by simp, by simpa using (Except.ok.inj h).symm⟩
      · rintro ⟨loaded, hloaded, _, rfl⟩
        rw [← Option.some.inj hloaded, List.append_nil]
        rfl
  | cons metadata metadatas ih =>
      rw [List.foldlM_cons, List.map_cons, except_bind_eq_ok_iff]
      by_cases hknown : isSupportedColumnKind metadata.blobType = true
      · have hview :
            (io.blobView location metadata).known = true :=
          hknown
        rw [List.filter_cons_of_pos hview, List.mapM_cons]
        simp only [loadTableBlob_eq_ok_iff hknown, ih]
        constructor
        · rintro ⟨_, ⟨blob, hload, hnumber, rfl⟩, loaded, hall,
            hnumbers, rfl⟩
          refine ⟨blob :: loaded, ?_, ?_, by simp⟩
          · rw [hload, hall]
            rfl
          · exact List.forall_mem_cons.mpr ⟨hnumber, hnumbers⟩
        · rintro ⟨all, hall, hnumbers, rfl⟩
          simp only [Option.bind_eq_bind, Option.bind_eq_some_iff,
            Option.pure_def, Option.some.injEq] at hall
          obtain ⟨blob, hload, loaded, hrest, rfl⟩ := hall
          rw [List.forall_mem_cons] at hnumbers
          exact
            ⟨_, ⟨blob, hload, hnumbers.1, rfl⟩, loaded, hrest,
              hnumbers.2, by simp⟩
      · have hview :
            ¬ (io.blobView location metadata).known = true :=
          hknown
        rw [List.filter_cons_of_neg hview, ← ih]
        simp only [loadTableBlob, if_neg hknown]
        constructor
        · rintro ⟨_, hpure, hrest⟩
          rw [Except.ok.inj hpure]
          exact hrest
        · intro hrest
          exact ⟨blobs, rfl, hrest⟩

/-- A file is loaded exactly as its view says. -/
theorem loadTableSidecar_eq_ok_iff
    (path : PathBuf) :
    loadTableSidecar io snapshotId sequenceNumber blobs path =
      .ok blobs' ↔
      ∃ loaded,
        (io.view path).bind (Sidecar.load snapshotId) = some loaded ∧
        (∀ blob ∈ loaded, OfSequence sequenceNumber blob) ∧
        blobs' = blobs ++ loaded := by
  unfold loadTableSidecar IcebergFileIo.view
  cases String.fromUTF8? ⟨path.toArray⟩ with
  | none => simp
  | some location =>
      simp only [except_bind_eq_ok_iff, mapError_eq_ok_iff,
        Option.bind_some]
      cases (io.fileMetadata location).toOption with
      | none => simp
      | some file =>
          simp only [Option.some.injEq, exists_eq_left',
            Option.map_some, Option.bind_some, Sidecar.load]
          cases validateSamkhyaSchemaVersion
              file.properties[samkhyaSchemaVersionProperty]? with
          | error e => simp [Except.toOption]
          | ok u =>
              rw [← foldlM_loadTableBlob_eq_ok_iff]
              simp [Except.toOption]

/-- The loop over the paths collects what the views load. -/
theorem foldlM_loadTableSidecar_eq_ok_iff
    (paths : List PathBuf) :
    paths.foldlM (loadTableSidecar io snapshotId sequenceNumber)
        blobs =
      .ok blobs' ↔
      ∃ lists,
        paths.mapM
            (fun path => (io.view path).bind (Sidecar.load snapshotId)) =
          some lists ∧
        (∀ blob ∈ lists.flatten, OfSequence sequenceNumber blob) ∧
        blobs' = blobs ++ lists.flatten := by
  induction paths generalizing blobs with
  | nil =>
      simp only [List.foldlM_nil, List.mapM_nil]
      constructor
      · intro h
        exact ⟨[], rfl, by simp, by simpa using (Except.ok.inj h).symm⟩
      · rintro ⟨lists, hlists, _, rfl⟩
        rw [← Option.some.inj hlists, List.flatten_nil,
          List.append_nil]
        rfl
  | cons path paths ih =>
      rw [List.foldlM_cons, List.mapM_cons, except_bind_eq_ok_iff]
      simp only [loadTableSidecar_eq_ok_iff, ih]
      constructor
      · rintro ⟨_, ⟨loaded, hload, hnumber, rfl⟩, lists, hall,
          hnumbers, rfl⟩
        refine ⟨loaded :: lists, ?_, ?_, by simp⟩
        · rw [hload, hall]
          rfl
        · rw [List.flatten_cons, List.forall_mem_append]
          exact ⟨hnumber, hnumbers⟩
      · rintro ⟨all, hall, hnumbers, rfl⟩
        simp only [Option.bind_eq_bind, Option.bind_eq_some_iff,
          Option.pure_def, Option.some.injEq] at hall
        obtain ⟨loaded, hload, lists, hrest, rfl⟩ := hall
        rw [List.flatten_cons, List.forall_mem_append] at hnumbers
        exact
          ⟨_, ⟨loaded, Option.bind_eq_some_iff.mpr hload, hnumbers.1,
              rfl⟩,
            lists, hrest, hnumbers.2, by simp⟩

/-- What a table load returns. -/
theorem loadPortableStatsFromTable_eq_ok_iff
    (c : SketchCodecs)
    (io : IcebergFileIo β)
    (table : TableMetadata)
    (snapshot : PortableStatsSnapshot) :
    loadPortableStatsFromTable c io table = .ok snapshot ↔
      ∃ lists,
        table.discoverPuffinSidecars.paths.mapM
            (fun path =>
              (io.view path).bind
                (Sidecar.load
                  table.discoverPuffinSidecars.snapshotId)) =
          some lists ∧
        (∀ blob ∈ lists.flatten,
          OfSequence
            (table.currentSnapshot.map IcebergSnapshot.sequenceNumber)
            blob) ∧
        Clean known (blobKey c) lists.flatten ∧
        snapshot =
          ⟨table.discoverPuffinSidecars.snapshotId, lists.flatten⟩ := by
  unfold loadPortableStatsFromTable
  simp only [except_bind_eq_ok_iff, foldlM_loadTableSidecar_eq_ok_iff,
    List.nil_append]
  constructor
  · rintro ⟨_, ⟨lists, hlists, hnumbers, rfl⟩, ⟨⟩, hvalid, hpure⟩
    exact
      ⟨lists, hlists, hnumbers, (validate_isOk_iff _).mp hvalid,
        (Except.ok.inj hpure).symm⟩
  · rintro ⟨lists, hlists, hnumbers, hclean, rfl⟩
    exact
      ⟨_, ⟨lists, hlists, hnumbers, rfl⟩, ⟨⟩,
        (validate_isOk_iff _).mpr hclean, rfl⟩

/-- Where the readers show the same, the same is collected. -/
theorem mapM_view_eq_collected
    {json : FooterJson}
    {files : Files}
    {paths : List PathBuf}
    (hviews :
      ∀ path ∈ paths, io.view path = sidecarAt json files path)
    (snapshotId : Option Int64) :
    paths.mapM
        (fun path => (io.view path).bind (Sidecar.load snapshotId)) =
      collected json files snapshotId paths := by
  induction paths with
  | nil => rfl
  | cons path paths ih =>
      rw [List.forall_mem_cons] at hviews
      rw [collected, List.mapM_cons, List.mapM_cons, hviews.1,
        ih hviews.2]
      rfl

/--
**A table load refines the local one.**  Where the two readers show the same of
the discovered files, a table load returns a snapshot exactly when the local
load of the discovered paths returns it and none of its blobs is of another
sequence than that of the current snapshot.
-/
theorem loadPortableStatsFromTable_refines
    (c : SketchCodecs)
    (io : IcebergFileIo β)
    (json : FooterJson)
    (files : Files)
    (table : TableMetadata)
    (hviews :
      ∀ path ∈ table.discoverPuffinSidecars.paths,
        io.view path = sidecarAt json files path)
    (snapshot : PortableStatsSnapshot) :
    loadPortableStatsFromTable c io table = .ok snapshot ↔
      loadPortableStats c json files table.discoverPuffinSidecars =
          .ok snapshot ∧
        ∀ blob ∈ snapshot.blobs,
          OfSequence
            (table.currentSnapshot.map IcebergSnapshot.sequenceNumber)
            blob := by
  rw [loadPortableStatsFromTable_eq_ok_iff,
    mapM_view_eq_collected hviews]
  constructor
  · rintro ⟨lists, hlists, hnumbers, hclean, rfl⟩
    exact
      ⟨loadPortableStats_eq_ok_iff.mpr ⟨lists, hlists, hclean, rfl⟩,
        hnumbers⟩
  · rintro ⟨hlocal, hnumbers⟩
    obtain ⟨lists, hlists, hclean, rfl⟩ :=
      loadPortableStats_eq_ok_iff.mp hlocal
    exact ⟨lists, hlists, hnumbers, hclean, rfl⟩

end Views

section Discovery

/-- A snapshot has at most one statistics file. -/
theorem length_currentPaths_le
    (table : TableMetadata) :
    table.currentPaths.length ≤ 1 := by
  unfold TableMetadata.currentPaths
  cases table.currentSnapshot with
  | none => simp
  | some current =>
      simp only [List.length_map]
      have hids := table.distinct
      generalize table.statistics = statistics at hids
      induction statistics with
      | nil => simp
      | cons file statistics ih =>
          rw [List.map_cons, List.nodup_cons] at hids
          rw [List.filter_cons]
          split_ifs with hfile
          · have hrest :
                statistics.filter (fun file =>
                    file.snapshotId = current.snapshotId) = [] := by
              rw [List.filter_eq_nil_iff]
              intro other hother hid
              simp only [decide_eq_true_eq] at hfile hid
              refine hids.1 (List.mem_map.mpr ⟨other, hother, ?_⟩)
              rw [hid, hfile]
            rw [hrest]
            exact le_rfl
          · exact ih hids.2

/-- It is what is discovered. -/
theorem discoverPuffinSidecars_eq
    {table : TableMetadata}
    {current : IcebergSnapshot}
    (hcurrent : table.currentSnapshot = some current) :
    table.discoverPuffinSidecars =
      ⟨some current.snapshotId, table.currentPaths⟩ := by
  have hlength := length_currentPaths_le table
  simp only [TableMetadata.discoverPuffinSidecars, hcurrent]
  congr 1
  generalize table.currentPaths = paths at hlength
  -- with a path or none there is nothing to sort
  match paths, hlength with
  | [], _ => simp [sortDedup]
  | [path], _ => simp [sortDedup]

end Discovery

section Delivery

variable
  {β : Type}
  {display : F64 → String}
  {files : Files}
  {plan : SidecarPlan}
  {plans : List SidecarPlan}

theorem sequenceNumber_of_load
    {b : StoredBlob}
    {call : WriterCall}
    {snapshotId : Option Int64}
    {id sequence : Int64}
    {blob : PortableSketchBlob}
    (hcall : b.call (some (id, sequence)) = .ok call)
    (hload : (callView call).load snapshotId = some blob) :
    blob.sequenceNumber = some sequence := by
  obtain ⟨stored, _, rfl⟩ := exists_of_map_eq_ok hcall
  unfold SidecarBlob.load at hload
  split at hload
  · cases hload
  · obtain rfl := Option.some.inj hload
    rfl

/-- What is collected of a published sidecar is of the plan's sequence. -/
theorem Published.sequenceNumber_of_load
    {snapshotId : Option Int64}
    {id sequence : Int64}
    {loaded : List PortableSketchBlob}
    (h : Published files plan)
    (hsnapshot : plan.snapshot = some (id, sequence))
    (hload :
      (sidecarAt serdeJson files plan.path).bind
          (Sidecar.load snapshotId) =
        some loaded) :
    ∀ blob ∈ loaded, blob.sequenceNumber = some sequence := by
  obtain ⟨calls, hcalls, hview⟩ := h.exists_view
  rw [hview, Option.bind_some] at hload
  unfold Sidecar.load at hload
  split at hload
  · cases hload
  · rw [mapM_eq_ite] at hload
    split_ifs at hload
    obtain rfl := Option.some.inj hload
    intro blob hblob
    obtain ⟨view, hmem, hblob⟩ := List.mem_filterMap.mp hblob
    obtain ⟨call, hcall, rfl⟩ :=
      List.mem_map.mp (List.mem_of_mem_filter hmem)
    obtain ⟨b, _, hb⟩ :=
      exists_of_mem_right (forall₂_of_mapM_ok hcalls) hcall
    rw [hsnapshot] at hb
    exact Samkhya.sequenceNumber_of_load hb hblob

/-- What the publisher of a table's current snapshot sees to. -/
structure Attached
    (table : TableMetadata)
    (current : IcebergSnapshot)
    (plans : List SidecarPlan) : Prop where
  snapshot : table.currentSnapshot = some current
  -- the statistics file of the snapshot, if it has one, is the sidecar
  paths : table.currentPaths = plans.map SidecarPlan.path
  sequence :
    ∀ plan ∈ plans, ∃ id sequence,
      plan.snapshot = some (id, sequence) ∧
        (sequence = -1 ∨ sequence = current.sequenceNumber)

/-- The sidecar of a snapshot is discovered. -/
theorem Attached.discovered
    {table : TableMetadata}
    {current : IcebergSnapshot}
    (h : Attached table current plans) :
    table.discoverPuffinSidecars =
      ⟨some current.snapshotId, plans.map SidecarPlan.path⟩ := by
  rw [discoverPuffinSidecars_eq h.snapshot, h.paths]

/-- Every collected blob is of the sequence of the current snapshot. -/
theorem Attached.ofSequence
    {table : TableMetadata}
    {current : IcebergSnapshot}
    {snapshotId : Option Int64}
    {lists : List (List PortableSketchBlob)}
    (h : Attached table current plans)
    (hpublished : ∀ plan ∈ plans, Published files plan)
    (hcollected :
      collected serdeJson files snapshotId
          (plans.map SidecarPlan.path) =
        some lists) :
    ∀ blob ∈ lists.flatten,
      OfSequence
        (table.currentSnapshot.map IcebergSnapshot.sequenceNumber)
        blob := by
  intro blob hmem
  obtain ⟨loaded, hloaded, hblob⟩ := List.mem_flatten.mp hmem
  rw [collected, mapM_eq_ite] at hcollected
  split_ifs at hcollected
  obtain rfl := Option.some.inj hcollected
  obtain ⟨path, hpath, hload⟩ := List.mem_filterMap.mp hloaded
  obtain ⟨plan, hplan, rfl⟩ := List.mem_map.mp hpath
  obtain ⟨id, sequence, hsnapshot, hsequence⟩ := h.sequence plan hplan
  have hnumber :=
    (hpublished plan hplan).sequenceNumber_of_load hsnapshot hload blob
      hblob
  intro number hcurrent
  rw [h.snapshot, Option.map_some, Option.some.injEq] at hcurrent
  subst hcurrent
  rcases hsequence with rfl | rfl
  · exact Or.inl hnumber
  · exact Or.inr hnumber

end Delivery

section RaisedTable

/-- A reader that has the metadata of one file, and the payloads in it. -/
def raisedIo : IcebergFileIo Bytes where
  fileMetadata location :=
    if location = "file:///s" then
      .ok
        { blobs :=
            raisedCalls.map fun call =>
              { blobType := call.blob.kind
                fields := call.blob.fields
                snapshotId := 7
                sequenceNumber := 1
                properties := call.blob.properties
                rest := call.blob.payload }
          properties := PuffinWriter.initialProperties }
    else
      .error "not found"
  blob _ metadata := .ok metadata.rest

/-- A table with statistics of two snapshots. -/
def raisedTable : TableMetadata where
  currentSnapshot := some ⟨7, 1⟩
  statistics := [⟨6, "file:///old"⟩, ⟨7, "file:///s"⟩]
  currentSchema := ⟨[⟨1, "value"⟩]⟩
  distinct := by decide

theorem view_raisedIo :
    raisedIo.view raisedPlan.path =
      sidecarAt serdeJson raisedFiles raisedPlan.path := by
  obtain ⟨calls, hcalls, hview⟩ := published_raisedPlan.exists_view
  have hraised : raisedPlan.calls = .ok raisedCalls := rfl
  obtain rfl := Except.ok.inj (hraised.symm.trans hcalls)
  have hlocation :
      String.fromUTF8? ⟨raisedPlan.path.toArray⟩ =
        some "file:///s" := by
    decide +kernel
  rw [hview, IcebergFileIo.view, hlocation]
  rfl

theorem attached_raisedTable :
    Attached raisedTable ⟨7, 1⟩ [raisedPlan] where
  snapshot := rfl
  paths := rfl
  sequence := by simp [raisedPlan]

theorem loadPortableStatsFromTable_refines_raised :
    ∃ snapshot,
      loadPortableStats (sketchCodecs (fun _ => "") plainCodecs.math)
          serdeJson raisedFiles raisedTable.discoverPuffinSidecars =
        .ok snapshot ∧
      loadPortableStatsFromTable
          (sketchCodecs (fun _ => "") plainCodecs.math) raisedIo
          raisedTable =
        .ok snapshot := by
  have hdiscovered := attached_raisedTable.discovered
  have hpublished :=
    List.forall_mem_singleton.mpr published_raisedPlan
  obtain ⟨snapshot, hlocal, _⟩ :=
    exists_delivered plainCodecs.math hpublished wellStored_raisedPlan
  have hviews :
      ∀ path ∈ raisedTable.discoverPuffinSidecars.paths,
        raisedIo.view path = sidecarAt serdeJson raisedFiles path := by
    rw [hdiscovered]
    exact List.forall_mem_singleton.mpr view_raisedIo
  rw [← hdiscovered] at hlocal
  refine
    ⟨snapshot, hlocal,
      (loadPortableStatsFromTable_refines _ raisedIo serdeJson
        raisedFiles raisedTable hviews snapshot).mpr ⟨hlocal, ?_⟩⟩
  rw [hdiscovered] at hlocal
  obtain ⟨lists, hlists, _, rfl⟩ := loadPortableStats_eq_ok_iff.mp hlocal
  exact
    attached_raisedTable.ofSequence hpublished hlists

end RaisedTable

end Samkhya
