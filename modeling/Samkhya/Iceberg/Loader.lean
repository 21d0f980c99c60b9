import Mathlib
import Samkhya.Core.Portable
import Samkhya.Core.PuffinFooter

/-!
# Loading portable statistics from local sidecars

Every sidecar is opened in turn, its known blobs are read, and the statistics
of the schema's fields are decoded from what was collected.

A sidecar is seen through what its reader gives back: its version marker, and
its blobs with the payload that reading each one returns (`sidecar`).  Loading
depends on nothing else (`loadSidecar_spec`), and on this view neither on the
order of the sidecars nor on that of their blobs (`SameSidecars.perm`).
-/

namespace Samkhya

open FieldCodec ByteDevice KeyedRecords PortableStatsSnapshot

/-- A path, as the bytes of the operating system. -/
abbrev PathBuf := Bytes

/-- Sidecar paths attached to one snapshot. -/
structure SnapshotPuffinPaths where
  snapshotId : Option Int64
  paths : List PathBuf

/-- One column of a schema. -/
structure SchemaField where
  fieldId : Int32
  name : String

/-- The columns of a table, in declaration order. -/
structure Schema where
  fields : List SchemaField

/-- Statistics by field id. -/
abbrev ColumnMap := Std.ExtTreeMap UInt64 ColumnStats

namespace Loader

/-- `File::open` and what the file holds, while the loader runs. -/
abbrev Files := PathBuf → Option Bytes

/-- A path without its `file://` scheme. -/
def localPath (path : PathBuf) : Except PortableError PathBuf :=
  match String.fromUTF8? ⟨path.toArray⟩ with
  | none =>
      .error
        (.puffin
          (.invalidPuffin "sidecar path is not valid UTF-8"))
  | some _ =>
      let scheme := asBytes "file://"
      .ok
        (if scheme.isPrefixOf path then
          path.drop scheme.length
        else
          path)

def validateSnapshotMetadata
    (expected actual sequence : Option Int64)
    (kind : String) : Except PuffinError Unit :=
  if actual.isSome ≠ sequence.isSome then
    .error
      (.invalidPuffin
        (kind ++ " must carry both snapshot-id and " ++
          "sequence-number or neither"))
  else
    match expected, actual with
    | some expected, some actual =>
        if actual ≠ -1 ∧ actual ≠ expected then
          .error
            (.invalidPuffin
              (kind ++ " snapshot-id " ++ toString actual ++
                " does not match discovered snapshot " ++
                toString expected))
        else
          .ok ()
    | _, _ => .ok ()

/-- `?` on a check that does not touch the source. -/
def orFail : Except PuffinError Unit → ReadM PuffinError Unit
  | .ok () => pure ()
  | .error e => fail e

/-- The portable blob made of a metadata entry and its payload. -/
def portableBlob
    (kind : String)
    (fields : List Int32)
    (snapshotId sequenceNumber : Option Int64)
    (properties : Properties)
    (payload : Bytes) : PortableSketchBlob :=
  let blob :=
    (PortableSketchBlob.new kind fields payload).withProperties
      properties
  match snapshotId, sequenceNumber with
  | some snapshotId, some sequenceNumber =>
      blob.withSnapshotMetadata snapshotId sequenceNumber
  | _, _ => blob

/-- One round of the loop over the metadata of a sidecar. -/
def loadBlob
    (snapshotId : Option Int64)
    (reader : PuffinReader)
    (blobs : List PortableSketchBlob)
    (entry : BlobMetadata × Nat) :
    ReadM PuffinError (List PortableSketchBlob) :=
  let (metadata, index) := entry
  if isSupportedColumnKind metadata.kind then do
    orFail
      (validateSnapshotMetadata snapshotId metadata.snapshotId
        metadata.sequenceNumber metadata.kind)
    let payload ← reader.readBlobDecompressed index
    pure
      (blobs ++
        [portableBlob metadata.kind metadata.fields
          metadata.snapshotId metadata.sequenceNumber
          metadata.properties payload])
  else
    pure blobs

/-- Open a sidecar and append its known blobs to those found so far. -/
def loadSidecar
    (json : FooterJson)
    (snapshotId : Option Int64)
    (blobs : List PortableSketchBlob) :
    ReadM PuffinError (List PortableSketchBlob) := do
  let reader ← PuffinReader.open json
  orFail
    (validateSamkhyaSchemaVersion
      reader.footer.properties[samkhyaSchemaVersionProperty]?)
  reader.footer.blobs.zipIdx.foldlM (loadBlob snapshotId reader) blobs

/-- Run a reader over a file that was just opened. -/
def runFile
    {α : Type}
    (bytes : Bytes)
    (m : ReadM PuffinError α) : Except PortableError α :=
  match m ⟨bytes, 0, []⟩ with
  | .ok a _ => .ok a
  | .error (.error e) _ => .error (.puffin e)
  | .error .io _ => .error (.puffin .io)
  | .error .underflow _ => .error .underflow

/-- One round of the loop over the sidecars. -/
def loadPath
    (json : FooterJson)
    (files : Files)
    (snapshotId : Option Int64)
    (blobs : List PortableSketchBlob)
    (path : PathBuf) :
    Except PortableError (List PortableSketchBlob) := do
  let path ← localPath path
  match files path with
  | none => .error (.puffin .io)
  | some bytes => runFile bytes (loadSidecar json snapshotId blobs)

/-- Load all supported blobs; nothing partial is published. -/
def loadPortableStats
    (c : SketchCodecs)
    (json : FooterJson)
    (files : Files)
    (paths : SnapshotPuffinPaths) :
    Except PortableError PortableStatsSnapshot := do
  let blobs ←
    paths.paths.foldlM (loadPath json files paths.snapshotId) []
  let snapshot : PortableStatsSnapshot := ⟨paths.snapshotId, blobs⟩
  snapshot.validate c
  pure snapshot

/-- One round of the schema check over the blobs. -/
def validateSchemaBlob
    (declared : List Int32)
    (blob : PortableSketchBlob) : Except PortableError Unit :=
  if isSupportedColumnKind blob.kind then
    match blob.fields with
    | [fieldId] =>
        if fieldId ∈ declared then
          .ok ()
        else
          .error
            (.puffin
              (.invalidPuffin
                (blob.kind ++ " references field " ++
                  toString fieldId ++
                  ", which is absent from the current schema")))
    | _ =>
        .error
          (.puffin
            (.invalidPuffin
              (blob.kind ++ " requires exactly one schema field")))
  else
    .ok ()

/-- Field ids are positive, and known blobs refer to declared ones. -/
def validateSchema
    (snapshot : PortableStatsSnapshot)
    (schema : Schema) : Except PortableError Unit :=
  let declared := schema.fields.map SchemaField.fieldId
  -- which of several bad ids is named is up to the set
  match declared.find? (fun fieldId => fieldId ≤ 0) with
  | some invalid =>
      .error
        (.puffin
          (.invalidPuffin
            ("Iceberg schema field ids must be positive; got " ++
              toString invalid)))
  | none => snapshot.blobs.forM (validateSchemaBlob declared)

/-- `field_id as usize`. -/
def SchemaField.key (field : SchemaField) : UInt64 :=
  field.fieldId.toInt64.toUInt64

/-- One round of the projection to scalar statistics. -/
def projectField
    (c : SketchCodecs)
    (snapshot : PortableStatsSnapshot)
    (out : ColumnMap)
    (field : SchemaField) : Except PortableError ColumnMap := do
  let decoded ← snapshot.decodeColumn c field.fieldId
  let stats :=
    match decoded with
    | none => ColumnStats.new
    | some decoded => decoded.stats
  pure (out.insert (SchemaField.key field) stats)

/-- Project a decoded snapshot to statistics keyed by field id. -/
def columnStatsFromSnapshot
    (c : SketchCodecs)
    (snapshot : PortableStatsSnapshot)
    (schema : Schema) : Except PortableError ColumnMap := do
  validateSchema snapshot schema
  schema.fields.foldlM (projectField c snapshot) ∅

/-- Load and project local sidecars. -/
def tryColumnStatsFromPaths
    (c : SketchCodecs)
    (json : FooterJson)
    (files : Files)
    (paths : SnapshotPuffinPaths)
    (schema : Schema) : Except PortableError ColumnMap := do
  let snapshot ← loadPortableStats c json files paths
  columnStatsFromSnapshot c snapshot schema

/-- A blob of a sidecar, with what reading its payload returns. -/
structure SidecarBlob where
  kind : String
  fields : List Int32
  snapshotId : Option Int64
  sequenceNumber : Option Int64
  properties : Properties
  payload : Option Bytes

/-- What a reader gives back of a file. -/
structure Sidecar where
  version : Option String
  blobs : List SidecarBlob

def SidecarBlob.known (blob : SidecarBlob) : Bool :=
  isSupportedColumnKind blob.kind

def sidecarBlob
    (bytes : Bytes)
    (reader : PuffinReader)
    (entry : BlobMetadata × Nat) : SidecarBlob where
  kind := entry.1.kind
  fields := entry.1.fields
  snapshotId := entry.1.snapshotId
  sequenceNumber := entry.1.sequenceNumber
  properties := entry.1.properties
  payload :=
    match reader.readBlobDecompressed entry.2 ⟨bytes, 0, []⟩ with
    | .ok payload _ => some payload
    | .error _ _ => none

/-- The view of a file, if it can be opened as a sidecar. -/
def sidecar (json : FooterJson) (bytes : Bytes) : Option Sidecar :=
  match PuffinReader.open json ⟨bytes, 0, []⟩ with
  | .ok reader _ =>
      some
        { version :=
            reader.footer.properties[samkhyaSchemaVersionProperty]?
          blobs :=
            reader.footer.blobs.zipIdx.map
              (sidecarBlob bytes reader) }
  | .error _ _ => none

/-- The portable blob of a view, if its metadata and payload are good. -/
def SidecarBlob.load
    (snapshotId : Option Int64)
    (blob : SidecarBlob) : Option PortableSketchBlob :=
  match
    validateSnapshotMetadata snapshotId blob.snapshotId
      blob.sequenceNumber blob.kind
  with
  | .error _ => none
  | .ok () =>
      blob.payload.map
        (portableBlob blob.kind blob.fields blob.snapshotId
          blob.sequenceNumber blob.properties)

/-- The known blobs of a view, all of them or none. -/
def Sidecar.load
    (snapshotId : Option Int64)
    (s : Sidecar) : Option (List PortableSketchBlob) :=
  match validateSamkhyaSchemaVersion s.version with
  | .error _ => none
  | .ok () =>
      (s.blobs.filter SidecarBlob.known).mapM
        (SidecarBlob.load snapshotId)

section Sidecars

variable
  {json : FooterJson}
  {bytes : Bytes}
  {r : PuffinReader}
  {snapshotId : Option Int64}
  {blobs : List PortableSketchBlob}
  {s : Source}

/-- The payload of a view is what the reader delivers. -/
theorem payload_sidecarBlob
    (hend : r.blobDataEnd ≤ bytes.length)
    (entry : BlobMetadata × Nat)
    (payload : Bytes) :
    (sidecarBlob bytes r entry).payload = some payload ↔
      ∃ blob, PuffinReader.Delivers bytes r entry.2 blob payload := by
  have hspec :=
    PuffinReader.stays_readBlobDecompressed hend
      (Stays.fresh bytes 0 maxBlobLen) entry.2
  simp only [sidecarBlob]
  cases hrun : r.readBlobDecompressed entry.2 ⟨bytes, 0, []⟩ with
  | ok payload' t =>
      rw [ends_of_ok hrun] at hspec
      obtain ⟨_, blob, hdelivers⟩ := hspec
      simp only [Option.some.injEq]
      constructor
      · rintro rfl
        exact ⟨blob, hdelivers⟩
      · rintro ⟨blob', hdelivers'⟩
        exact hdelivers.unique hdelivers'
  | error e t =>
      rw [ends_of_error hrun] at hspec
      simp only [reduceCtorEq, false_iff]
      rintro ⟨blob, hdelivers⟩
      exact hspec.2.2 blob payload hdelivers

/-- A check in a program over a source. -/
theorem Ends.orFail
    {β : Type}
    {Q : β → Source → Prop}
    {E : Failure PuffinError → Source → Prop}
    {check : Except PuffinError Unit}
    {f : Unit → ReadM PuffinError β}
    (hrefused : ∀ e, check = .error e → E (.error e) s)
    (hpassed : check = .ok () → Ends (f ()) s Q E) :
    Ends (orFail check >>= f) s Q E := by
  cases hcheck : check with
  | error e => exact hrefused e hcheck
  | ok u => exact hpassed hcheck

/-- One round appends the portable blob of an entry, or fails with it. -/
theorem loadBlob_spec
    (hend : r.blobDataEnd ≤ bytes.length)
    (hs : Stays bytes maxBlobLen s)
    (entry : BlobMetadata × Nat)
    (hknown : (sidecarBlob bytes r entry).known = true) :
    Ends (loadBlob snapshotId r blobs entry) s
      (fun blobs' t =>
        Stays bytes maxBlobLen t ∧
          ∃ blob,
            (sidecarBlob bytes r entry).load snapshotId = some blob ∧
            blobs' = blobs ++ [blob])
      (fun e _ =>
        (∃ message, e = .error (.invalidPuffin message)) ∧
          (sidecarBlob bytes r entry).load snapshotId = none) := by
  have hkind : isSupportedColumnKind entry.1.kind = true := hknown
  unfold loadBlob
  simp only [if_pos hkind]
  refine Ends.orFail ?_ fun hvalid => ?_
  · intro e he
    refine ⟨?_, ?_⟩
    · unfold validateSnapshotMetadata at he
      split_ifs at he
      · exact ⟨_, congrArg _ (Except.error.inj he).symm⟩
      · split at he
        · split_ifs at he
          exact ⟨_, congrArg _ (Except.error.inj he).symm⟩
        · cases he
    · simp only [SidecarBlob.load, sidecarBlob, he]
  · refine
      Ends.bind
        ((PuffinReader.stays_readBlobDecompressed hend hs entry.2).mono
          (fun _ _ h => h) ?_) ?_
    · rintro e t ⟨_, hinvalid, hnone⟩
      refine ⟨hinvalid, ?_⟩
      have hpayload : (sidecarBlob bytes r entry).payload = none := by
        rw [Option.eq_none_iff_forall_ne_some]
        intro payload hsome
        obtain ⟨blob, hdelivers⟩ :=
          (payload_sidecarBlob hend entry payload).mp hsome
        exact hnone blob payload hdelivers
      rw [SidecarBlob.load, hpayload]
      split <;> rfl
    · rintro payload t ⟨ht, hdelivers⟩
      have hpayload :=
        (payload_sidecarBlob hend entry payload).mpr hdelivers
      apply Ends.pure
      refine ⟨ht, _, ?_, rfl⟩
      simp only [SidecarBlob.load, hpayload]
      simp only [sidecarBlob, hvalid]
      rfl

/-- The loop over the metadata collects the known blobs. -/
theorem foldlM_loadBlob_spec
    (hend : r.blobDataEnd ≤ bytes.length)
    (hs : Stays bytes maxBlobLen s)
    (entries : List (BlobMetadata × Nat)) :
    Ends (entries.foldlM (loadBlob snapshotId r) blobs) s
      (fun blobs' _ =>
        ∃ loaded,
          ((entries.map (sidecarBlob bytes r)).filter
              SidecarBlob.known).mapM
            (SidecarBlob.load snapshotId) = some loaded ∧
          blobs' = blobs ++ loaded)
      (fun e _ =>
        (∃ message, e = .error (.invalidPuffin message)) ∧
          ((entries.map (sidecarBlob bytes r)).filter
              SidecarBlob.known).mapM
            (SidecarBlob.load snapshotId) = none) := by
  induction entries generalizing blobs s with
  | nil =>
      apply Ends.pure
      exact ⟨[], rfl, (List.append_nil _).symm⟩
  | cons entry entries ih =>
      rw [List.foldlM_cons, List.map_cons]
      by_cases hknown : (sidecarBlob bytes r entry).known = true
      · rw [List.filter_cons_of_pos hknown, List.mapM_cons]
        refine
          Ends.bind
            ((loadBlob_spec hend hs entry hknown).mono
              (fun _ _ h => h) ?_) ?_
        · rintro e t ⟨hinvalid, hnone⟩
          refine ⟨hinvalid, ?_⟩
          rw [hnone]
          rfl
        · rintro blobs' t ⟨ht, blob, hload, rfl⟩
          rw [hload]
          refine (ih ht).mono ?_ ?_
          · rintro blobs' t ⟨loaded, hall, rfl⟩
            refine ⟨blob :: loaded, ?_, by simp⟩
            rw [hall]
            rfl
          · rintro e t ⟨hinvalid, hnone⟩
            refine ⟨hinvalid, ?_⟩
            rw [hnone]
            rfl
      · rw [List.filter_cons_of_neg hknown]
        have hkind : ¬ isSupportedColumnKind entry.1.kind = true :=
          hknown
        have hskip :
            loadBlob snapshotId r blobs entry = pure blobs := by
          simp only [loadBlob, if_neg hkind]
        rw [hskip]
        exact ih hs

/-- A sidecar is loaded exactly as its view says. -/
theorem loadSidecar_spec
    (json : FooterJson)
    (bytes : Bytes)
    (snapshotId : Option Int64)
    (blobs : List PortableSketchBlob) :
    Ends (loadSidecar json snapshotId blobs) ⟨bytes, 0, []⟩
      (fun blobs' _ =>
        ∃ loaded,
          (sidecar json bytes).bind (Sidecar.load snapshotId) =
            some loaded ∧
          blobs' = blobs ++ loaded)
      (fun e _ =>
        (∃ message, e = .error (.invalidPuffin message)) ∧
          (sidecar json bytes).bind (Sidecar.load snapshotId) =
            none) := by
  have hspec := PuffinReader.open_spec json bytes 0
  unfold loadSidecar sidecar
  cases hrun : PuffinReader.open json ⟨bytes, 0, []⟩ with
  | error e t =>
      rw [ends_of_error hrun] at hspec
      have hfails :
          Ends (PuffinReader.open json) ⟨bytes, 0, []⟩
            (fun _ _ => False)
            (fun e' _ => ∃ message,
              e' = .error (.invalidPuffin message)) :=
        (ends_of_error hrun).mpr hspec.invalid
      refine Ends.bind (hfails.mono (fun _ _ h => h) ?_) ?_
      · intro e' t' hinvalid
        exact ⟨hinvalid, rfl⟩
      · intro r t' h
        exact h.elim
  | ok r t =>
      rw [ends_of_ok hrun] at hspec
      obtain ⟨ht, haccepts⟩ := hspec
      have hend : r.blobDataEnd ≤ bytes.length :=
        (Nat.le_add_right _ 16).trans haccepts.dataEnd_le
      have hopens :
          Ends (PuffinReader.open json) ⟨bytes, 0, []⟩
            (fun r' t' => r' = r ∧ Stays bytes maxBlobLen t')
            (fun _ _ => False) := by
        refine (ends_of_ok hrun).mpr ⟨rfl, ht.bytes_eq, ?_⟩
        intro a ha
        have hwithin := ht.within a ha
        cases a with
        | seek position => exact hwithin
        | read start length => exact hwithin
        | buffer length =>
            exact
              Nat.le_trans hwithin
                (by decide : maxFooterLen ≤ maxBlobLen)
      refine Ends.bind (hopens.mono (fun _ _ h => h) ?_) ?_
      · intro e t' h
        exact h.elim
      · rintro _ t' ⟨rfl, ht'⟩
        simp only [Option.bind_some, Sidecar.load]
        refine Ends.orFail ?_ fun hversion => ?_
        · intro e he
          refine ⟨?_, by rw [he]⟩
          unfold validateSamkhyaSchemaVersion at he
          split at he
          · cases he
          · split_ifs at he
            exact ⟨_, congrArg _ (Except.error.inj he).symm⟩
        · rw [hversion]
          exact foldlM_loadBlob_spec hend ht' _

/-- The view of the file at a path. -/
def sidecarAt
    (json : FooterJson)
    (files : Files)
    (path : PathBuf) : Option Sidecar :=
  match localPath path with
  | .error _ => none
  | .ok path => (files path).bind (sidecar json)

/-- The known blobs of all sidecars, one list for each. -/
def collected
    (json : FooterJson)
    (files : Files)
    (snapshotId : Option Int64)
    (paths : List PathBuf) :
    Option (List (List PortableSketchBlob)) :=
  paths.mapM fun path =>
    (sidecarAt json files path).bind (Sidecar.load snapshotId)

theorem collected_cons
    (json : FooterJson)
    (files : Files)
    (snapshotId : Option Int64)
    (path : PathBuf)
    (paths : List PathBuf) :
    collected json files snapshotId (path :: paths) =
      ((sidecarAt json files path).bind
        (Sidecar.load snapshotId)).bind fun loaded =>
          (collected json files snapshotId paths).map
            (loaded :: ·) := by
  unfold collected
  rw [List.mapM_cons]
  cases (sidecarAt json files path).bind (Sidecar.load snapshotId) with
  | none =>
      rfl
  | some loaded =>
      cases
        paths.mapM fun path =>
          (sidecarAt json files path).bind
            (Sidecar.load snapshotId) with
      | none => rfl
      | some lists => rfl

/-- A path is loaded exactly as its view says, and never panics. -/
theorem loadPath_spec
    (json : FooterJson)
    (files : Files)
    (snapshotId : Option Int64)
    (blobs : List PortableSketchBlob)
    (path : PathBuf) :
    match loadPath json files snapshotId blobs path with
    | .ok blobs' =>
        ∃ loaded,
          (sidecarAt json files path).bind (Sidecar.load snapshotId) =
            some loaded ∧
          blobs' = blobs ++ loaded
    | .error e =>
        e ≠ .underflow ∧
          (sidecarAt json files path).bind
            (Sidecar.load snapshotId) = none := by
  unfold loadPath sidecarAt
  cases hlocal : localPath path with
  | error e =>
      refine ⟨?_, rfl⟩
      unfold localPath at hlocal
      split at hlocal
      · rw [← Except.error.inj hlocal]
        simp
      · cases hlocal
  | ok target =>
      -- past the path check, only the file decides
      have hrest :
          (Except.ok target >>= fun path =>
              match files path with
              | none => .error (.puffin .io)
              | some bytes =>
                  runFile bytes (loadSidecar json snapshotId blobs)) =
            match files target with
            | none => .error (.puffin .io)
            | some bytes =>
                runFile bytes (loadSidecar json snapshotId blobs) :=
        rfl
      rw [hrest]
      cases hfile : files target with
      | none =>
          exact ⟨by simp, by simp [hfile]⟩
      | some bytes =>
          have hspec := loadSidecar_spec json bytes snapshotId blobs
          simp only [runFile, hfile, Option.bind_some]
          cases hrun :
              loadSidecar json snapshotId blobs ⟨bytes, 0, []⟩ with
          | ok blobs' t =>
              rw [ends_of_ok hrun] at hspec
              exact hspec
          | error e t =>
              rw [ends_of_error hrun] at hspec
              obtain ⟨⟨message, rfl⟩, hnone⟩ := hspec
              exact ⟨by simp, hnone⟩

/-- The loop over the paths collects what the views load. -/
theorem foldlM_loadPath_spec
    (json : FooterJson)
    (files : Files)
    (snapshotId : Option Int64)
    (blobs : List PortableSketchBlob)
    (paths : List PathBuf) :
    match paths.foldlM (loadPath json files snapshotId) blobs with
    | .ok blobs' =>
        ∃ loaded,
          collected json files snapshotId paths = some loaded ∧
          blobs' = blobs ++ loaded.flatten
    | .error e =>
        e ≠ .underflow ∧
          collected json files snapshotId paths = none := by
  induction paths generalizing blobs with
  | nil =>
      exact ⟨[], rfl, (List.append_nil _).symm⟩
  | cons path paths ih =>
      have hspec := loadPath_spec json files snapshotId blobs path
      rw [List.foldlM_cons, collected_cons]
      cases hrun : loadPath json files snapshotId blobs path with
      | error e =>
          simp only [hrun] at hspec
          refine ⟨hspec.1, ?_⟩
          rw [hspec.2]
          rfl
      | ok blobs' =>
          simp only [hrun] at hspec
          obtain ⟨loaded, hload, rfl⟩ := hspec
          have hrest := ih (blobs ++ loaded)
          have hbind :
              (Except.ok (blobs ++ loaded) >>= fun blobs =>
                  paths.foldlM (loadPath json files snapshotId) blobs) =
                paths.foldlM (loadPath json files snapshotId)
                  (blobs ++ loaded) :=
            rfl
          rw [hload, hbind]
          cases hall :
              paths.foldlM (loadPath json files snapshotId)
                (blobs ++ loaded) with
          | error e =>
              simp only [hall] at hrest
              exact ⟨hrest.1, by simp [hrest.2]⟩
          | ok blobs'' =>
              simp only [hall] at hrest
              obtain ⟨lists, hlists, rfl⟩ := hrest
              exact ⟨loaded :: lists, by simp [hlists], by simp⟩

end Sidecars

/-- Equal views, up to the order of the blobs and the unknown ones. -/
def SameSidecar : Option Sidecar → Option Sidecar → Prop :=
  Option.Rel fun s s' =>
    s.version = s'.version ∧
      (s.blobs.filter SidecarBlob.known).Perm
        (s'.blobs.filter SidecarBlob.known)

/-- The same sidecars in another order, each up to `SameSidecar`. -/
def SameSidecars
    (json : FooterJson)
    (files files' : Files)
    (paths paths' : List PathBuf) : Prop :=
  ∃ reordered,
    paths.Perm reordered ∧
      List.Forall₂
        (fun path path' =>
          SameSidecar (sidecarAt json files path)
            (sidecarAt json files' path'))
        reordered paths'

section Order

variable
  {json : FooterJson}
  {files files' : Files}
  {paths paths' : List PathBuf}

theorem SameSidecar.refl
    (s : Option Sidecar) :
    SameSidecar s s := by
  cases s with
  | none => exact Option.Rel.none
  | some s => exact Option.Rel.some ⟨rfl, List.Perm.refl _⟩

/-- Paths may be listed in any order. -/
theorem SameSidecars.of_perm
    (h : paths.Perm paths') :
    SameSidecars json files files paths paths' :=
  ⟨paths', h,
    List.forall₂_same.mpr fun path _ =>
      SameSidecar.refl (sidecarAt json files path)⟩

theorem SameSidecar.load
    {s s' : Option Sidecar}
    (h : SameSidecar s s')
    (snapshotId : Option Int64) :
    Option.Rel List.Perm (s.bind (Sidecar.load snapshotId))
      (s'.bind (Sidecar.load snapshotId)) := by
  cases h with
  | none =>
      exact Option.Rel.none
  | some hsame =>
      obtain ⟨hversion, hperm⟩ := hsame
      simp only [Option.bind_some, Sidecar.load, hversion]
      split
      · exact Option.Rel.none
      · exact mapM_perm hperm

/-- What is collected differs in order only. -/
theorem SameSidecars.perm
    (h : SameSidecars json files files' paths paths')
    (snapshotId : Option Int64) :
    Option.Rel (fun lists lists' => lists.flatten.Perm lists'.flatten)
      (collected json files snapshotId paths)
      (collected json files' snapshotId paths') := by
  obtain ⟨reordered, hperm, hsame⟩ := h
  have hfirst :
      Option.Rel List.Perm (collected json files snapshotId paths)
        (collected json files snapshotId reordered) :=
    mapM_perm hperm
  have hsecond :
      Option.Rel
        (fun lists lists' => lists.flatten.Perm lists'.flatten)
        (collected json files snapshotId reordered)
        (collected json files' snapshotId paths') := by
    clear hperm hfirst
    induction hsame with
    | nil =>
        exact Option.Rel.some (List.Perm.refl _)
    | @cons path path' rest rest' hpath _ ih =>
        rw [collected_cons, collected_cons]
        have hone := hpath.load snapshotId
        generalize (sidecarAt json files path).bind _ = a at hone ⊢
        generalize (sidecarAt json files' path').bind _ = b at hone ⊢
        generalize collected json files snapshotId rest = as
          at ih ⊢
        generalize collected json files' snapshotId rest' = bs
          at ih ⊢
        cases hone with
        | none =>
            exact Option.Rel.none
        | some hblobs =>
            cases ih with
            | none => exact Option.Rel.none
            | some hrest =>
                exact Option.Rel.some (hblobs.append hrest)
  generalize collected json files snapshotId paths = as
    at hfirst ⊢
  generalize collected json files snapshotId reordered = bs
    at hfirst hsecond
  generalize collected json files' snapshotId paths' = cs
    at hsecond ⊢
  cases hfirst with
  | none =>
      cases hsecond
      exact Option.Rel.none
  | some hblobs =>
      cases hsecond with
      | some hrest =>
          exact Option.Rel.some (hblobs.flatten.trans hrest)

end Order

section Schema

variable
  {c : SketchCodecs}
  {blobs blobs' : List PortableSketchBlob}

theorem validateSchemaBlob_isOk_iff
    (declared : List Int32)
    (blob : PortableSketchBlob) :
    validateSchemaBlob declared blob = .ok () ↔
      (known blob = true →
        ∃ fieldId,
          blob.fields = [fieldId] ∧ fieldId ∈ declared) := by
  unfold validateSchemaBlob known
  by_cases hkind : isSupportedColumnKind blob.kind = true
  · simp only [hkind, if_true, true_implies]
    split
    case h_1 fieldId hfields =>
      simp [hfields]
    case h_2 hmany =>
      simp only [reduceCtorEq, false_iff]
      rintro ⟨fieldId, hfields, _⟩
      exact hmany fieldId hfields
  · simp [hkind]

/-- The check passes when it does on every blob. -/
theorem forM_validateSchemaBlob_isOk_iff
    (declared : List Int32)
    (blobs : List PortableSketchBlob) :
    blobs.forM (validateSchemaBlob declared) = .ok () ↔
      ∀ blob ∈ blobs, known blob = true →
        ∃ fieldId,
          blob.fields = [fieldId] ∧ fieldId ∈ declared := by
  induction blobs with
  | nil =>
      simp only [List.not_mem_nil, false_implies, implies_true,
        iff_true]
      rfl
  | cons blob rest ih =>
      rw [List.forall_mem_cons, ← ih, ← validateSchemaBlob_isOk_iff]
      change
        (validateSchemaBlob declared blob >>= fun _ =>
          rest.forM (validateSchemaBlob declared)) = _ ↔ _
      cases validateSchemaBlob declared blob with
      | error e =>
          constructor
          · intro h
            cases h
          · rintro ⟨h, _⟩
            cases h
      | ok u =>
          exact ⟨fun h => ⟨rfl, h⟩, fun h => h.2⟩

/-- What the schema check establishes. -/
theorem validateSchema_isOk_iff
    (snapshot : PortableStatsSnapshot)
    (schema : Schema) :
    validateSchema snapshot schema = .ok () ↔
      (∀ field ∈ schema.fields, 0 < field.fieldId) ∧
        ∀ blob ∈ snapshot.blobs, known blob = true →
          ∃ fieldId,
            blob.fields = [fieldId] ∧
            fieldId ∈ schema.fields.map SchemaField.fieldId := by
  unfold validateSchema
  simp only []
  cases hfind :
      (schema.fields.map SchemaField.fieldId).find?
        (fun fieldId => fieldId ≤ 0) with
  | some invalid =>
      simp only [reduceCtorEq, false_iff, not_and]
      intro hpositive
      obtain ⟨field, hfield, rfl⟩ :=
        List.mem_map.mp (List.mem_of_find?_eq_some hfind)
      have hle := List.find?_some hfind
      rw [decide_eq_true_eq] at hle
      exact
        absurd (hpositive field hfield) (Int32.not_lt.mpr hle)
  | none =>
      simp only []
      rw [forM_validateSchemaBlob_isOk_iff]
      refine ⟨fun h => ⟨?_, h⟩, fun h => h.2⟩
      intro field hfield
      have hnone :=
        List.find?_eq_none.mp hfind field.fieldId
          (List.mem_map_of_mem hfield)
      rw [decide_eq_true_eq, Int32.not_le] at hnone
      exact hnone

/-- A projection has exactly the declared fields. -/
theorem foldlM_projectField
    {snapshot : PortableStatsSnapshot}
    {fields : List SchemaField}
    {out out' : ColumnMap}
    (h : fields.foldlM (projectField c snapshot) out = .ok out')
    (key : UInt64) :
    key ∈ out' ↔
      key ∈ out ∨ ∃ field ∈ fields, SchemaField.key field = key := by
  induction fields generalizing out with
  | nil =>
      cases h
      simp
  | cons field fields ih =>
      rw [List.foldlM_cons] at h
      cases hdecode : snapshot.decodeColumn c field.fieldId with
      | error e =>
          simp only [projectField, hdecode] at h
          cases h
      | ok decoded =>
          simp only [projectField, hdecode] at h
          rw [ih h, Std.ExtTreeMap.mem_insert]
          simp only [List.mem_cons, exists_eq_or_imp,
            Std.LawfulEqCmp.compare_eq_iff_eq]
          tauto

/-- Projection depends on the known blobs only. -/
theorem foldlM_projectField_congr
    (h : SameKnown blobs blobs')
    (snapshotId snapshotId' : Option Int64)
    (fields : List SchemaField)
    (out : ColumnMap) :
    (fields.foldlM (projectField c ⟨snapshotId, blobs⟩)
        out).toOption =
      (fields.foldlM (projectField c ⟨snapshotId', blobs'⟩)
        out).toOption := by
  induction fields generalizing out with
  | nil =>
      rfl
  | cons field fields ih =>
      have hdecode :=
        h.decodeColumn_eq (c := c) snapshotId snapshotId'
          field.fieldId
      rw [List.foldlM_cons, List.foldlM_cons]
      unfold projectField
      cases hleft :
          decodeColumn c ⟨snapshotId, blobs⟩ field.fieldId with
      | error e =>
          rw [hleft] at hdecode
          cases hright :
              decodeColumn c ⟨snapshotId', blobs'⟩
                field.fieldId with
          | error e' => rfl
          | ok decoded' =>
              rw [hright] at hdecode
              cases hdecode
      | ok decoded =>
          rw [hleft] at hdecode
          cases hright :
              decodeColumn c ⟨snapshotId', blobs'⟩
                field.fieldId with
          | error e' =>
              rw [hright] at hdecode
              cases hdecode
          | ok decoded' =>
              rw [hright] at hdecode
              obtain rfl : decoded = decoded' :=
                Option.some.inj hdecode
              exact ih _

/-- The schema check depends on the known blobs only. -/
theorem validateSchema_congr
    (h : SameKnown blobs blobs')
    (snapshotId snapshotId' : Option Int64)
    (schema : Schema) :
    validateSchema ⟨snapshotId, blobs⟩ schema = .ok () ↔
      validateSchema ⟨snapshotId', blobs'⟩ schema = .ok () := by
  rw [validateSchema_isOk_iff, validateSchema_isOk_iff]
  apply and_congr_right'
  constructor
  · intro hall blob hmem hknown
    exact hall blob ((h.mem_iff hknown).mpr hmem) hknown
  · intro hall blob hmem hknown
    exact hall blob ((h.mem_iff hknown).mp hmem) hknown

/-- So does the whole projection. -/
theorem columnStatsFromSnapshot_congr
    (h : SameKnown blobs blobs')
    (snapshotId snapshotId' : Option Int64)
    (schema : Schema) :
    (columnStatsFromSnapshot c ⟨snapshotId, blobs⟩ schema).toOption =
      (columnStatsFromSnapshot c ⟨snapshotId', blobs'⟩
        schema).toOption := by
  have hcheck := validateSchema_congr h snapshotId snapshotId' schema
  unfold columnStatsFromSnapshot
  cases hleft : validateSchema ⟨snapshotId, blobs⟩ schema with
  | error e =>
      cases hright : validateSchema ⟨snapshotId', blobs'⟩ schema with
      | error e' => rfl
      | ok u =>
          rw [hleft, hright] at hcheck
          cases hcheck.mpr rfl
  | ok u =>
      rw [hcheck.mp hleft]
      exact
        foldlM_projectField_congr h snapshotId snapshotId'
          schema.fields ∅

theorem not_panics_columnStatsFromSnapshot
    (snapshot : PortableStatsSnapshot)
    (schema : Schema) :
    ¬ Panics (columnStatsFromSnapshot c snapshot schema) := by
  refine not_panics_bind ?_ fun _ _ => not_panics_foldlM ?_ _ _
  · unfold validateSchema
    simp only []
    split
    · simp [Panics]
    · generalize snapshot.blobs = l
      induction l with
      | nil =>
          intro h
          cases h
      | cons blob rest ih =>
          refine not_panics_bind ?_ fun _ _ => ih
          unfold validateSchemaBlob
          split_ifs
          · split
            · split_ifs
              · simp [Panics]
              · simp [Panics]
            · simp [Panics]
          · simp [Panics]
  · intro out field
    refine
      not_panics_bind (not_panics_decodeColumn c snapshot _)
        fun _ _ => ?_
    intro h
    cases h

end Schema

section Written

variable
  {json : FooterJson}
  {bytes bytes' : Bytes}
  {r r' : PuffinReader}
  {t t' : Source}
  {properties : List (String × String)}
  {calls calls' : List WriterCall}

/-- The view of a blob that a call has written. -/
def callView (call : WriterCall) : SidecarBlob where
  kind := call.blob.kind
  fields := call.blob.fields
  snapshotId := (call.metadata 0).snapshotId
  sequenceNumber := (call.metadata 0).sequenceNumber
  properties := call.blob.properties
  payload := some call.blob.payload

/-- A file that was written faithfully shows its calls. -/
theorem sidecar_of_faithful
    (hopen : PuffinReader.open json ⟨bytes, 0, []⟩ = .ok r t)
    (h : PuffinWriter.Faithful properties calls bytes r) :
    sidecar json bytes =
      some
        { version :=
            (properties.foldl
              (fun table property =>
                table.insert property.1 property.2)
              PuffinWriter.initialProperties)[
                samkhyaSchemaVersionProperty]?
          blobs := calls.map callView } := by
  have hblobs :
      r.footer.blobs.zipIdx.map (sidecarBlob bytes r) =
        calls.map callView := by
    apply List.ext_getElem?
    intro i
    rw [List.getElem?_map, List.getElem?_map, List.getElem?_zipIdx,
      Nat.zero_add]
    cases hcall : calls[i]? with
    | none =>
        have hnone : r.footer.blobs[i]? = none := by
          rw [List.getElem?_eq_none_iff] at hcall ⊢
          rw [h.blobs.length_eq]
          exact hcall
        rw [hnone]
        rfl
    | some call =>
        obtain ⟨blob, hblob, offset, rfl⟩ :=
          PuffinWriter.exists_getElem?_of_forall₂ h.blobs hcall
        obtain ⟨_, u, hread⟩ := h.payload i call hcall 0
        rw [hblob]
        simp only [Option.map_some, sidecarBlob, hread, callView]
        cases call <;> rfl
  unfold sidecar
  rw [hopen]
  simp only [hblobs, h.properties]

/-- Writing the blobs in another order gives the same sidecar. -/
theorem sameSidecar_of_faithful
    (hopen : PuffinReader.open json ⟨bytes, 0, []⟩ = .ok r t)
    (hopen' : PuffinReader.open json ⟨bytes', 0, []⟩ = .ok r' t')
    (h : PuffinWriter.Faithful properties calls bytes r)
    (h' : PuffinWriter.Faithful properties calls' bytes' r')
    (hperm : calls.Perm calls') :
    SameSidecar (sidecar json bytes) (sidecar json bytes') := by
  rw [sidecar_of_faithful hopen h, sidecar_of_faithful hopen' h']
  exact
    Option.Rel.some ⟨rfl, (hperm.map callView).filter _⟩

end Written

section Loading

variable
  {c : SketchCodecs}
  {json : FooterJson}
  {files files' : Files}
  {paths paths' : List PathBuf}

/-- Loading never panics, and loads what was collected if it is clean. -/
theorem loadPortableStats_spec
    (c : SketchCodecs)
    (json : FooterJson)
    (files : Files)
    (paths : SnapshotPuffinPaths) :
    match loadPortableStats c json files paths with
    | .ok snapshot =>
        ∃ loaded,
          collected json files paths.snapshotId paths.paths =
            some loaded ∧
          snapshot = ⟨paths.snapshotId, loaded.flatten⟩ ∧
          Clean known (blobKey c) loaded.flatten
    | .error e =>
        e ≠ .underflow ∧
          ∀ loaded,
            collected json files paths.snapshotId paths.paths =
              some loaded →
            ¬ Clean known (blobKey c) loaded.flatten := by
  have hspec :=
    foldlM_loadPath_spec json files paths.snapshotId [] paths.paths
  unfold loadPortableStats
  cases hrun :
      paths.paths.foldlM (loadPath json files paths.snapshotId) []
    with
  | error e =>
      simp only [hrun] at hspec
      refine ⟨hspec.1, fun loaded hloaded => ?_⟩
      rw [hspec.2] at hloaded
      cases hloaded
  | ok blobs =>
      simp only [hrun] at hspec
      obtain ⟨loaded, hloaded, rfl⟩ := hspec
      have hvalid :=
        validate_isOk_iff (c := c)
          ⟨paths.snapshotId, [] ++ loaded.flatten⟩
      have hbind :
          (Except.ok ([] ++ loaded.flatten) >>= fun blobs => do
              let snapshot : PortableStatsSnapshot :=
                ⟨paths.snapshotId, blobs⟩
              snapshot.validate c
              pure snapshot) =
            (validate c ⟨paths.snapshotId, [] ++ loaded.flatten⟩ >>=
              fun _ =>
                pure
                  (⟨paths.snapshotId, [] ++ loaded.flatten⟩ :
                    PortableStatsSnapshot)) :=
        rfl
      rw [hbind]
      have hpanics :=
        not_panics_validate c
          ⟨paths.snapshotId, [] ++ loaded.flatten⟩
      cases hcheck :
          validate c ⟨paths.snapshotId, [] ++ loaded.flatten⟩ with
      | error e =>
          rw [hcheck] at hvalid hpanics
          refine ⟨?_, fun loaded' hloaded' hclean => ?_⟩
          · rintro rfl
            exact hpanics rfl
          · rw [hloaded] at hloaded'
            rw [← Option.some.inj hloaded'] at hclean
            cases hvalid.mpr hclean
      | ok u =>
          rw [hcheck] at hvalid
          exact ⟨loaded, hloaded, rfl, hvalid.mp rfl⟩

/-- What a load goes through with, and that it does with nothing else. -/
theorem loadPortableStats_eq_ok_iff
    {snapshotId : Option Int64}
    {snapshot : PortableStatsSnapshot} :
    loadPortableStats c json files ⟨snapshotId, paths⟩ =
        .ok snapshot ↔
      ∃ loaded,
        collected json files snapshotId paths = some loaded ∧
          Clean known (blobKey c) loaded.flatten ∧
          snapshot = ⟨snapshotId, loaded.flatten⟩ := by
  have hspec := loadPortableStats_spec c json files ⟨snapshotId, paths⟩
  cases hrun : loadPortableStats c json files ⟨snapshotId, paths⟩ with
  | error e =>
      simp only [hrun] at hspec
      constructor
      · intro h
        cases h
      · rintro ⟨loaded, hloaded, hclean, _⟩
        exact absurd hclean (hspec.2 loaded hloaded)
  | ok found =>
      simp only [hrun] at hspec
      obtain ⟨loaded, hloaded, rfl, hclean⟩ := hspec
      constructor
      · intro h
        exact ⟨loaded, hloaded, hclean, (Except.ok.inj h).symm⟩
      · rintro ⟨loaded', hloaded', _, rfl⟩
        rw [hloaded] at hloaded'
        rw [Option.some.inj hloaded']

/-- A load goes through when one of the same collected blobs does. -/
theorem exists_loadPortableStats
    {snapshotId : Option Int64}
    {s : PortableStatsSnapshot}
    (hcollected :
      Option.Rel
        (fun lists lists' => lists.flatten.Perm lists'.flatten)
        (collected json files snapshotId paths)
        (collected json files' snapshotId paths'))
    (hrun :
      loadPortableStats c json files ⟨snapshotId, paths⟩ = .ok s) :
    ∃ s',
      loadPortableStats c json files' ⟨snapshotId, paths'⟩ = .ok s' ∧
        s.snapshotId = s'.snapshotId ∧ SameKnown s.blobs s'.blobs := by
  have hleft :=
    loadPortableStats_spec c json files ⟨snapshotId, paths⟩
  have hright :=
    loadPortableStats_spec c json files' ⟨snapshotId, paths'⟩
  simp only [hrun] at hleft
  obtain ⟨loaded, hloaded, rfl, hclean⟩ := hleft
  rw [hloaded] at hcollected
  generalize hloaded' : collected json files' snapshotId paths' = other
    at hcollected
  cases hcollected with
  | some hflat =>
      have hsame := SameKnown.of_perm hflat
      cases hrun' :
          loadPortableStats c json files' ⟨snapshotId, paths'⟩ with
      | error e =>
          simp only [hrun'] at hright
          exact
            absurd (hclean.of_perm hsame) (hright.2 _ hloaded')
      | ok s' =>
          simp only [hrun'] at hright
          obtain ⟨lists, hlists, rfl, _⟩ := hright
          rw [hloaded'] at hlists
          rw [← Option.some.inj hlists]
          exact ⟨_, rfl, rfl, hsame⟩

/-- Two loads of the same sidecars succeed or fail together. -/
theorem SameSidecars.loadPortableStats
    (h : SameSidecars json files files' paths paths')
    (snapshotId : Option Int64) :
    Option.Rel
      (fun s s' : PortableStatsSnapshot =>
        s.snapshotId = s'.snapshotId ∧ SameKnown s.blobs s'.blobs)
      (loadPortableStats c json files ⟨snapshotId, paths⟩).toOption
      (loadPortableStats c json files'
        ⟨snapshotId, paths'⟩).toOption := by
  have hperm := h.perm snapshotId
  have hback :
      Option.Rel
        (fun lists lists' => lists.flatten.Perm lists'.flatten)
        (collected json files' snapshotId paths')
        (collected json files snapshotId paths) := by
    revert hperm
    generalize collected json files snapshotId paths = a
    generalize collected json files' snapshotId paths' = b
    intro hperm
    cases hperm with
    | none => exact Option.Rel.none
    | some hflat => exact Option.Rel.some hflat.symm
  cases hrun :
      Loader.loadPortableStats c json files ⟨snapshotId, paths⟩ with
  | ok s =>
      obtain ⟨s', hrun', hsame⟩ := exists_loadPortableStats hperm hrun
      rw [hrun']
      exact Option.Rel.some hsame
  | error e =>
      cases hrun' :
          Loader.loadPortableStats c json files'
            ⟨snapshotId, paths'⟩ with
      | error e' =>
          exact Option.Rel.none
      | ok s' =>
          obtain ⟨s, hs, _⟩ := exists_loadPortableStats hback hrun'
          rw [hrun] at hs
          cases hs

/-- The outcome does not depend on the order of sidecars or blobs. -/
theorem SameSidecars.tryColumnStatsFromPaths
    (h : SameSidecars json files files' paths paths')
    (snapshotId : Option Int64)
    (schema : Schema) :
    (tryColumnStatsFromPaths c json files ⟨snapshotId, paths⟩
        schema).toOption =
      (tryColumnStatsFromPaths c json files' ⟨snapshotId, paths'⟩
        schema).toOption := by
  have hload := h.loadPortableStats (c := c) snapshotId
  unfold Loader.tryColumnStatsFromPaths
  cases hleft :
      Loader.loadPortableStats c json files ⟨snapshotId, paths⟩ with
  | error e =>
      cases hright :
          Loader.loadPortableStats c json files'
            ⟨snapshotId, paths'⟩ with
      | error e' => rfl
      | ok s' =>
          rw [hleft, hright] at hload
          cases hload
  | ok s =>
      cases hright :
          Loader.loadPortableStats c json files'
            ⟨snapshotId, paths'⟩ with
      | error e' =>
          rw [hleft, hright] at hload
          cases hload
      | ok s' =>
          rw [hleft, hright] at hload
          cases hload with
          | some hsame =>
              exact
                columnStatsFromSnapshot_congr hsame.2 s.snapshotId
                  s'.snapshotId schema

/-- A map with exactly the declared fields, or an error. -/
theorem tryColumnStatsFromPaths_complete
    (c : SketchCodecs)
    (json : FooterJson)
    (files : Files)
    (paths : SnapshotPuffinPaths)
    (schema : Schema) :
    match
      Loader.tryColumnStatsFromPaths c json files paths schema
    with
    | .ok out =>
        ∀ key,
          key ∈ out ↔
            ∃ field ∈ schema.fields, SchemaField.key field = key
    | .error e => e ≠ .underflow := by
  have hspec := loadPortableStats_spec c json files paths
  unfold Loader.tryColumnStatsFromPaths
  cases hload : Loader.loadPortableStats c json files paths with
  | error e =>
      simp only [hload] at hspec
      exact hspec.1
  | ok snapshot =>
      have hbind :
          (Except.ok snapshot >>= fun snapshot =>
              columnStatsFromSnapshot c snapshot schema) =
            columnStatsFromSnapshot c snapshot schema :=
        rfl
      rw [hbind]
      have hpanics :=
        not_panics_columnStatsFromSnapshot (c := c) snapshot schema
      cases hproject : columnStatsFromSnapshot c snapshot schema with
      | error e =>
          rw [hproject] at hpanics
          rintro rfl
          exact hpanics rfl
      | ok out =>
          intro key
          obtain ⟨_, _, hfold⟩ := except_bind_eq_ok hproject
          rw [foldlM_projectField hfold key]
          simp

end Loading

/--
**Portable statistics are order free and fail closed.**  Decoding a column has
one outcome for all orders of the blobs and whatever unknown ones are among
them, and fails exactly for malformed lists.  Loading has one outcome for all
orders of the sidecars and of the blobs in them, and ends in a map with exactly
the declared fields or in an error.
-/
theorem portableStats_orderFree_failClosed
    (c : SketchCodecs)
    (json : FooterJson) :
    (∀ snapshotId snapshotId' blobs blobs' fieldId, 0 ≤ fieldId →
        SameKnown blobs blobs' →
        (decodeColumn c ⟨snapshotId, blobs⟩ fieldId).toOption =
          (decodeColumn c ⟨snapshotId', blobs'⟩ fieldId).toOption) ∧
    (∀ snapshotId blobs fieldId, 0 ≤ fieldId →
        ((∃ e,
            decodeColumn c ⟨snapshotId, blobs⟩ fieldId =
              .error e) ↔
          Malformed c blobs)) ∧
    (∀ files files' snapshotId paths paths' schema,
        SameSidecars json files files' paths paths' →
        (tryColumnStatsFromPaths c json files ⟨snapshotId, paths⟩
            schema).toOption =
          (tryColumnStatsFromPaths c json files'
            ⟨snapshotId, paths'⟩ schema).toOption) ∧
    ∀ files paths schema,
      match tryColumnStatsFromPaths c json files paths schema with
      | .ok out =>
          ∀ key,
            key ∈ out ↔
              ∃ field ∈ schema.fields, SchemaField.key field = key
      | .error e => e ≠ .underflow := by
  refine ⟨?_, ?_, ?_, ?_⟩
  · intro snapshotId snapshotId' blobs blobs' fieldId _ hsame
    exact hsame.decodeColumn_eq snapshotId snapshotId' fieldId
  · intro snapshotId blobs fieldId hfield
    exact decodeColumn_error_iff ⟨snapshotId, blobs⟩ hfield
  · intro files files' snapshotId paths paths' schema hsame
    exact hsame.tryColumnStatsFromPaths snapshotId schema
  · exact tryColumnStatsFromPaths_complete c json

/-- Codecs of the fixed-width encoding; floats play no part. -/
def plainCodecs : SketchCodecs where
  hll := .ofCodec HllFields.codec
  histogram := .ofCodec EquiDepthHistogram.codec
  display _ := ""
  math :=
    { add := fun a _ => a
      mul := fun a _ => a
      div := fun a _ => a
      ln := id }

def corruptBlob : PortableSketchBlob :=
  .new HllSketch.kind [17] (asBytes "corrupt")

def futureBlob : PortableSketchBlob :=
  .new "samkhya.hll-v2" [17] (asBytes "future")

/-- A sketch of sixteen registers, the first of them raised. -/
def sixteenRegisters (first : UInt8) : Bytes :=
  HllFields.codec.encode ⟨4, first :: List.replicate 15 0⟩

/-- A sidecar with one sketch. -/
def oneSketchFile (fieldId : Int32) (payload : Bytes) : Bytes :=
  PuffinReader.withFooter (magic ++ payload)
    (Json.encode
      (FooterText.footerValue
        { blobs :=
            [{ kind := HllSketch.kind
               fields := [fieldId]
               snapshotId := none
               sequenceNumber := none
               offset := 4
               length := UInt64.ofNat payload.length
               compressionCodec := none
               properties := ∅ }]
          properties := ∅ }))

/-- Two sidecars with a sketch of another field each. -/
def twoFiles : Files := fun path =>
  if path = asBytes "a" then
    some (oneSketchFile 1 (sixteenRegisters 3))
  else if path = asBytes "b" then
    some (oneSketchFile 2 (sixteenRegisters 5))
  else
    none

/--
A corrupt payload fails closed, behind a blob of a later kind too, and two
sidecars that load may be listed either way.
-/
theorem corruptBlob_failsClosed :
    (decodeColumn plainCodecs ⟨none, [corruptBlob]⟩ 17).toOption =
        (decodeColumn plainCodecs
          ⟨none, [futureBlob, corruptBlob]⟩ 17).toOption ∧
      (∃ e,
        decodeColumn plainCodecs ⟨none, [corruptBlob]⟩ 17 =
          .error e) ∧
      (loadPortableStats plainCodecs serdeJson twoFiles
          ⟨none, [asBytes "a", asBytes "b"]⟩).isOk = true ∧
      (tryColumnStatsFromPaths plainCodecs serdeJson twoFiles
          ⟨none, [asBytes "a", asBytes "b"]⟩
          ⟨[⟨1, "x"⟩, ⟨2, "y"⟩]⟩).toOption =
        (tryColumnStatsFromPaths plainCodecs serdeJson twoFiles
          ⟨none, [asBytes "b", asBytes "a"]⟩
          ⟨[⟨1, "x"⟩, ⟨2, "y"⟩]⟩).toOption := by
  have hunknown : known futureBlob = false := by
    decide +kernel
  have hrejected :
      (decodeKnown plainCodecs corruptBlob).isOk = false := by
    decide +kernel
  obtain ⟨horder, hfails, hpaths, _⟩ :=
    portableStats_orderFree_failClosed plainCodecs serdeJson
  refine
    ⟨?_, (hfails none [corruptBlob] 17 (by decide)).mpr ?_,
      by decide +kernel, ?_⟩
  · exact
      horder none none _ _ 17 (by decide)
        (SameKnown.insert hunknown [] [corruptBlob])
  · refine ⟨0, corruptBlob, rfl, by decide +kernel, Or.inl ?_⟩
    cases hdecode : decodeKnown plainCodecs corruptBlob with
    | error e =>
        exact ⟨e, rfl⟩
    | ok u =>
        rw [hdecode] at hrejected
        cases hrejected
  · exact
      hpaths _ _ none _ _ _
        (SameSidecars.of_perm (List.Perm.swap _ _ _))

end Loader

end Samkhya
