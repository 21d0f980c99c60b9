import Mathlib
import Samkhya.Core.PuffinFooter
import Samkhya.Iceberg.Loader

/-!
# From stored sketches to column statistics

A sketch goes through its own serializer, a blob of a sidecar, the JSON of the
footer, the reader, the loader and the decoder before it is a statistic of a
column again.  The layers are put together here: each known blob that the loader
collects still decodes to what was stored in it (`Decodes`), and lists of such
blobs hold for every field exactly the sketches stored for it (`holds_stored`).
-/

namespace Samkhya

open FieldCodec Binary64 ByteDevice KeyedRecords
open Loader PortableStatsSnapshot PuffinReader PuffinWriter

/-- A blob with empty properties. -/
def Blob.new
    (kind : String)
    (fields : List Int32)
    (payload : Bytes) : Blob where
  kind := kind
  fields := fields
  payload := payload
  properties := ∅

/-- What goes into one blob: a sketch of a field, or bytes of another kind. -/
inductive StoredBlob
  | hll (fieldId : Int32) (sketch : HllSketch)
  | histogram (fieldId : Int32) (histogram : EquiDepthHistogram)
  | other (blob : Blob)

namespace StoredBlob

def blob : StoredBlob → Except Error Blob
  | hll fieldId sketch =>
      (sketch.toBytes (.ofCodec HllFields.codec)).map
        (Blob.new HllSketch.kind [fieldId])
  | histogram fieldId h =>
      (h.toBytes (.ofCodec EquiDepthHistogram.codec)).map
        (Blob.new EquiDepthHistogram.kind [fieldId])
  | other blob => .ok blob

/-- The writer call, with the snapshot and sequence number if there are any. -/
def call
    (snapshot : Option (Int64 × Int64))
    (b : StoredBlob) : Except Error WriterCall :=
  b.blob.map fun blob =>
    match snapshot with
    | none => .addBlob blob
    | some (snapshotId, sequenceNumber) =>
        .addBlobForSnapshot blob snapshotId sequenceNumber

def isSketch : StoredBlob → Bool
  | hll _ _ => true
  | histogram _ _ => true
  | other _ => false

/-- Field and kind of a sketch. -/
def key : StoredBlob → Option (Int32 × String)
  | hll fieldId _ => some (fieldId, HllSketch.kind)
  | histogram fieldId _ => some (fieldId, EquiDepthHistogram.kind)
  | other _ => none

def hllOf (fieldId : Int32) : StoredBlob → Option HllSketch
  | hll fieldId' sketch => if fieldId' = fieldId then some sketch else none
  | _ => none

def histogramOf (fieldId : Int32) : StoredBlob → Option EquiDepthHistogram
  | histogram fieldId' h => if fieldId' = fieldId then some h else none
  | _ => none

end StoredBlob

/-- The first HLL sketch stored for a field. -/
def storedHll
    (stored : List StoredBlob)
    (fieldId : Int32) : Option HllSketch :=
  stored.findSome? (StoredBlob.hllOf fieldId)

/-- The first histogram stored for a field. -/
def storedHistogram
    (stored : List StoredBlob)
    (fieldId : Int32) : Option EquiDepthHistogram :=
  stored.findSome? (StoredBlob.histogramOf fieldId)

/-- One sidecar: where it goes, and what is stored in it. -/
structure SidecarPlan where
  path : PathBuf
  properties : List (String × String)
  snapshot : Option (Int64 × Int64)
  stored : List StoredBlob

def SidecarPlan.calls (plan : SidecarPlan) :
    Except Error (List WriterCall) :=
  plan.stored.mapM (StoredBlob.call plan.snapshot)

/-- The file at the plan's path is what the writer made of the plan. -/
def Published
    (files : Files)
    (plan : SidecarPlan) : Prop :=
  ∃ target calls steps sink,
    localPath plan.path = .ok target ∧
    plan.calls = .ok calls ∧
    writeFile serdeJson Sink.fresh plan.properties calls =
      (steps, .ok sink) ∧
    files target = some sink.written ∧
    -- within the caps of the reader
    calls.length ≤ maxBlobCount ∧
    (∀ call ∈ calls, call.blob.payload.length ≤ maxBlobLen) ∧
    (Json.encode
        (FooterText.footerValue
          (fileFooter plan.properties calls))).length ≤
      maxFooterLen

/-- What publishers see to. -/
structure WellStored
    (display : F64 → String)
    (snapshotId : Option Int64)
    (plans : List SidecarPlan) : Prop where
  version :
    ∀ plan ∈ plans, ∀ property ∈ plan.properties,
      property.1 = samkhyaSchemaVersionProperty →
        property.2 = samkhyaSchemaVersion
  snapshot :
    ∀ plan ∈ plans, ∀ id sequence,
      plan.snapshot = some (id, sequence) →
        id = -1 ∨ ∀ expected, snapshotId = some expected → id = expected
  unknown :
    ∀ plan ∈ plans, ∀ blob, .other blob ∈ plan.stored →
      isSupportedColumnKind blob.kind = false
  nonneg :
    ∀ plan ∈ plans, ∀ b ∈ plan.stored, ∀ fieldId kind,
      b.key = some (fieldId, kind) → 0 ≤ fieldId
  survives :
    ∀ plan ∈ plans, ∀ fieldId histogram,
      .histogram fieldId histogram ∈ plan.stored →
        histogram.Survives display
  distinct :
    ((plans.flatMap SidecarPlan.stored).filterMap StoredBlob.key).Nodup

/-- The serializers of the loader. -/
def sketchCodecs
    (display : F64 → String)
    (math : EstimateMath) : SketchCodecs where
  hll := .ofCodec HllFields.codec
  histogram := .ofCodec EquiDepthHistogram.codec
  display := display
  math := math

/-- A collected blob still decodes to the sketch that was stored in it. -/
def Decodes
    (display : F64 → String) : StoredBlob → PortableSketchBlob → Prop
  | .hll fieldId sketch, blob =>
      blob.kind = HllSketch.kind ∧ blob.fields = [fieldId] ∧
        HllSketch.fromBytes (.ofCodec HllFields.codec) blob.payload =
          .ok sketch
  | .histogram fieldId histogram, blob =>
      blob.kind = EquiDepthHistogram.kind ∧ blob.fields = [fieldId] ∧
        EquiDepthHistogram.fromBytes display
            (.ofCodec EquiDepthHistogram.codec) blob.payload =
          .ok histogram
  | .other _, _ => False

/-- Each entry on the right of a relation of lists has one on its left. -/
theorem exists_of_mem_right
    {α β : Type}
    {relation : α → β → Prop}
    {left : List α}
    {right : List β}
    (h : List.Forall₂ relation left right)
    {b : β}
    (hb : b ∈ right) :
    ∃ a ∈ left, relation a b := by
  induction h with
  | nil => cases hb
  | @cons a b' left right hrelated _ ih =>
      rcases List.mem_cons.mp hb with rfl | hb
      · exact ⟨a, by simp, hrelated⟩
      · obtain ⟨a', ha', hrelated'⟩ := ih hb
        exact ⟨a', by simp [ha'], hrelated'⟩

theorem forall₂_of_mapM_ok
    {α β : Type}
    {f : α → Except Error β}
    {l : List α}
    {l' : List β}
    (h : l.mapM f = .ok l') :
    List.Forall₂ (fun a b => f a = .ok b) l l' := by
  induction l generalizing l' with
  | nil =>
      cases h
      exact .nil
  | cons a l ih =>
      rw [List.mapM_cons] at h
      cases ha : f a with
      | error e =>
          rw [ha] at h
          cases h
      | ok b =>
          cases hl : l.mapM f with
          | error e =>
              rw [ha, hl] at h
              cases h
          | ok bs =>
              rw [ha, hl] at h
              cases h
              exact .cons ha (ih hl)

section Holding

variable
  {display : F64 → String}
  {math : EstimateMath}
  {b : StoredBlob}
  {blob : PortableSketchBlob}
  {stored : List StoredBlob}
  {blobs : List PortableSketchBlob}

theorem Decodes.known
    (h : Decodes display b blob) :
    known blob = true := by
  cases b with
  | hll fieldId sketch =>
      simp [PortableStatsSnapshot.known, isSupportedColumnKind, h.1]
  | histogram fieldId histogram =>
      simp [PortableStatsSnapshot.known, isSupportedColumnKind, h.1]
  | other other => exact h.elim

/-- The loader's key of a collected blob is the key it was stored under. -/
theorem Decodes.blobKey_eq
    (h : Decodes display b blob)
    (hnonneg : ∀ fieldId kind, b.key = some (fieldId, kind) → 0 ≤ fieldId) :
    blobKey (sketchCodecs display math) blob = b.key := by
  cases b with
  | hll fieldId sketch =>
      obtain ⟨hkind, hfields, hread⟩ := h
      have hfield := Int32.not_lt.mpr (hnonneg fieldId _ rfl)
      refine blobKey_eq_some.mpr ⟨hfields, hfield, ?_, hkind⟩
      simp [decodeKnown, hkind, sketchCodecs, hread]
  | histogram fieldId histogram =>
      obtain ⟨hkind, hfields, hread⟩ := h
      have hfield := Int32.not_lt.mpr (hnonneg fieldId _ rfl)
      refine blobKey_eq_some.mpr ⟨hfields, hfield, ?_, hkind⟩
      simp [decodeKnown, hkind, kinds_ne.symm, sketchCodecs, hread]
  | other other => exact h.elim

/-- Distinct sketches make a clean list of blobs. -/
theorem clean_of_decodes
    (h : List.Forall₂ (Decodes display) stored blobs)
    (hnonneg :
      ∀ b ∈ stored, ∀ fieldId kind,
        b.key = some (fieldId, kind) → 0 ≤ fieldId)
    (hdistinct : (stored.filterMap StoredBlob.key).Nodup) :
    Clean known (blobKey (sketchCodecs display math)) blobs := by
  induction h with
  | nil => exact clean_nil
  | @cons b blob stored blobs hdecodes hrest ih =>
      rw [List.forall_mem_cons] at hnonneg
      have hkey :
          blobKey (sketchCodecs display math) blob = b.key :=
        hdecodes.blobKey_eq hnonneg.1
      obtain ⟨k, hk⟩ : ∃ k, b.key = some k := by
        cases b with
        | hll fieldId sketch => exact ⟨_, rfl⟩
        | histogram fieldId histogram => exact ⟨_, rfl⟩
        | other other => exact hdecodes.elim
      rw [List.filterMap_cons, hk, List.nodup_cons] at hdistinct
      rw [clean_cons_of_read hdecodes.known]
      refine ⟨by simp [hkey, hk], ?_, ih hnonneg.2 hdistinct.2⟩
      intro other hother _ hsame
      obtain ⟨b', hb', hdecodes'⟩ := exists_of_mem_right hrest hother
      rw [hdecodes'.blobKey_eq (hnonneg.2 b' hb'), hkey, hk] at hsame
      exact
        hdistinct.1 (List.mem_filterMap.mpr ⟨b', hb', hsame⟩)

/-- A slot is filled by what was picked for its field and kind. -/
theorem slot_findSome?
    {β : Type}
    {kind : String}
    {decode : Bytes → Except Error β}
    {pick : StoredBlob → Option β}
    {fieldId : Int32}
    (h : List.Forall₂ (Decodes display) stored blobs)
    (hpick :
      ∀ b blob, Decodes display b blob → ∀ s,
        pick b = some s ↔
          blob.fields = [fieldId] ∧ blob.kind = kind ∧
            decode blob.payload = .ok s)
    (honly :
      ∀ blob ∈ blobs, ∀ blob' ∈ blobs,
        blob.fields = [fieldId] → blob.kind = kind →
        blob'.fields = [fieldId] → blob'.kind = kind → blob = blob') :
    Slot kind decode
      (blobs.filter (fun blob => blob.fields = [fieldId]))
      (stored.findSome? pick) := by
  intro s
  constructor
  · intro hfound
    obtain ⟨b, hb, hs⟩ := List.exists_of_findSome?_eq_some hfound
    obtain ⟨blob, hblob, hdecodes⟩ := exists_of_mem_right h.flip hb
    obtain ⟨hfields, hkind, hread⟩ := (hpick b blob hdecodes s).mp hs
    exact ⟨blob, by simp [hblob, hfields], hkind, hread⟩
  · rintro ⟨blob, hmem, hkind, hread⟩
    rw [List.mem_filter, decide_eq_true_eq] at hmem
    obtain ⟨b, hb, hdecodes⟩ := exists_of_mem_right h hmem.1
    have hs := (hpick b blob hdecodes s).mpr ⟨hmem.2, hkind, hread⟩
    cases hfound : stored.findSome? pick with
    | none =>
        have hnone := List.findSome?_eq_none_iff.mp hfound b hb
        rw [hs] at hnone
        cases hnone
    | some s' =>
        obtain ⟨b', hb', hs'⟩ := List.exists_of_findSome?_eq_some hfound
        obtain ⟨blob', hblob', hdecodes'⟩ :=
          exists_of_mem_right h.flip hb'
        obtain ⟨hfields', hkind', hread'⟩ :=
          (hpick b' blob' hdecodes' s').mp hs'
        have hsame :=
          honly blob hmem.1 blob' hblob' hmem.2 hkind hfields' hkind'
        rw [← hsame, hread] at hread'
        rw [Except.ok.inj hread']

/-- Collected blobs hold for a field the sketches stored for it. -/
theorem holds_stored
    (h : List.Forall₂ (Decodes display) stored blobs)
    (hclean : Clean known (blobKey (sketchCodecs display math)) blobs)
    (fieldId : Int32) :
    Holds (sketchCodecs display math)
      (blobs.filter (fun blob => blob.fields = [fieldId]))
      (storedHll stored fieldId, storedHistogram stored fieldId) := by
  have honly :
      ∀ blob ∈ blobs, ∀ blob' ∈ blobs,
        blob.fields = [fieldId] → blob'.fields = [fieldId] →
        blob.kind = blob'.kind → blob = blob' := by
    intro blob hblob blob' hblob' hfields hfields' hkind
    obtain ⟨b, _, hdecodes⟩ := exists_of_mem_right h hblob
    obtain ⟨b', _, hdecodes'⟩ := exists_of_mem_right h hblob'
    have hkey :
        ∀ other ∈ blobs, known other = true →
          other.fields = [fieldId] →
          blobKey (sketchCodecs display math) other =
            some (fieldId, other.kind) := by
      intro other hother hknown hfields
      cases hkey : blobKey (sketchCodecs display math) other with
      | none => exact absurd hkey (hclean.keyed other hother hknown)
      | some k =>
          obtain ⟨hone, _, _, hkind⟩ := blobKey_eq_some.mp hkey
          rw [hfields, List.singleton_inj] at hone
          rw [hone, hkind]
    apply
      hclean.eq_of_key hblob hblob' hdecodes.known hdecodes'.known
    rw [hkey blob hblob hdecodes.known hfields,
      hkey blob' hblob' hdecodes'.known hfields', hkind]
  constructor
  · refine slot_findSome? h ?_ ?_
    · intro b blob hdecodes s
      cases b with
      | hll fieldId' sketch =>
          obtain ⟨hkind, hfields, hread⟩ := hdecodes
          simp [hkind, hfields, hread, sketchCodecs, StoredBlob.hllOf]
      | histogram fieldId' histogram =>
          simp [hdecodes.1, kinds_ne.symm, StoredBlob.hllOf]
      | other other => exact hdecodes.elim
    · intro blob hblob blob' hblob' hfields hkind hfields' hkind'
      exact
        honly blob hblob blob' hblob' hfields hfields'
          (hkind.trans hkind'.symm)
  · refine slot_findSome? h ?_ ?_
    · intro b blob hdecodes s
      cases b with
      | hll fieldId' sketch =>
          simp [hdecodes.1, kinds_ne, StoredBlob.histogramOf]
      | histogram fieldId' histogram =>
          obtain ⟨hkind, hfields, hread⟩ := hdecodes
          simp [hkind, hfields, hread, sketchCodecs,
            StoredBlob.histogramOf]
      | other other => exact hdecodes.elim
    · intro blob hblob blob' hblob' hfields hkind hfields' hkind'
      exact
        honly blob hblob blob' hblob' hfields hfields'
          (hkind.trans hkind'.symm)

end Holding

/-- The portable blob that the loader makes of a call's blob. -/
def WriterCall.portable (call : WriterCall) : PortableSketchBlob :=
  portableBlob call.blob.kind call.blob.fields
    (call.metadata 0).snapshotId (call.metadata 0).sequenceNumber
    call.blob.properties call.blob.payload

section Collecting

variable
  {display : F64 → String}
  {snapshotId : Option Int64}
  {snapshot : Option (Int64 × Int64)}
  {b : StoredBlob}
  {call : WriterCall}
  {stored : List StoredBlob}
  {calls : List WriterCall}

@[simp] theorem kind_portable :
    call.portable.kind = call.blob.kind := by
  cases call <;> rfl

@[simp] theorem fields_portable :
    call.portable.fields = call.blob.fields := by
  cases call <;> rfl

@[simp] theorem payload_portable :
    call.portable.payload = call.blob.payload := by
  cases call <;> rfl

/-- The snapshot of a call passes the loader's check. -/
def Admitted
    (snapshotId : Option Int64)
    (snapshot : Option (Int64 × Int64)) : Prop :=
  ∀ id sequence, snapshot = some (id, sequence) →
    id = -1 ∨ ∀ expected, snapshotId = some expected → id = expected

theorem validateSnapshotMetadata_ok
    (hcall : b.call snapshot = .ok call)
    (hadmitted : Admitted snapshotId snapshot)
    (kind : String) :
    validateSnapshotMetadata snapshotId
        (call.metadata 0).snapshotId (call.metadata 0).sequenceNumber
        kind =
      .ok () := by
  unfold StoredBlob.call at hcall
  cases hblob : b.blob with
  | error e =>
      rw [hblob] at hcall
      cases hcall
  | ok blob =>
      rw [hblob] at hcall
      obtain rfl := Except.ok.inj hcall
      rcases snapshot with _ | ⟨id, sequence⟩
      · cases snapshotId <;> rfl
      · rcases hadmitted id sequence rfl with rfl | hexpected
        · cases snapshotId <;> rfl
        · cases snapshotId with
          | none => rfl
          | some expected =>
              obtain rfl := hexpected expected rfl
              simp [validateSnapshotMetadata,
                WriterCall.metadata, PuffinWriter.metadata]

theorem load_callView
    (hcall : b.call snapshot = .ok call)
    (hadmitted : Admitted snapshotId snapshot) :
    (callView call).load snapshotId = some call.portable := by
  have hvalid :=
    validateSnapshotMetadata_ok hcall hadmitted call.blob.kind
  simp only [SidecarBlob.load, callView, hvalid]
  rfl

/-- A payload written by `to_bytes` decodes to what was written. -/
theorem fromBytes_of_toBytes
    {α : Type}
    {written : Except Error Bytes}
    {read : Bytes → Except Error α}
    {payload : Bytes}
    {a : α}
    (hhop : (written >>= read) = .ok a)
    (hwritten : written = .ok payload) :
    read payload = .ok a := by
  rw [hwritten] at hhop
  exact hhop

/-- A call is about the blob it was made for. -/
theorem blob_of_call
    (hcall : b.call snapshot = .ok call) :
    b.blob = .ok call.blob := by
  unfold StoredBlob.call at hcall
  cases hblob : b.blob with
  | error e =>
      rw [hblob] at hcall
      cases hcall
  | ok blob =>
      rw [hblob] at hcall
      obtain rfl := Except.ok.inj hcall
      rcases snapshot with _ | ⟨_, _⟩ <;> rfl

theorem exists_of_map_eq_ok
    {α β : Type}
    {x : Except Error α}
    {f : α → β}
    {b : β}
    (h : x.map f = .ok b) :
    ∃ a, x = .ok a ∧ f a = b := by
  cases x with
  | error e => cases h
  | ok a => exact ⟨a, rfl, Except.ok.inj h⟩

/-- The blob of a call decodes to the sketch that the call stores. -/
theorem decodes_of_call
    (hcall : b.call snapshot = .ok call)
    (hsketch : b.isSketch = true)
    (hsurvives :
      ∀ fieldId h, b = .histogram fieldId h → h.Survives display) :
    Decodes display b call.portable := by
  have hblob := blob_of_call hcall
  cases b with
  | hll fieldId sketch =>
      obtain ⟨payload, hwritten, hnew⟩ := exists_of_map_eq_ok hblob
      have hread :=
        fromBytes_of_toBytes (HllSketch.hop_self sketch) hwritten
      simp [Decodes, ← hnew, Blob.new, hread]
  | histogram fieldId h =>
      obtain ⟨payload, hwritten, hnew⟩ := exists_of_map_eq_ok hblob
      have hread :=
        fromBytes_of_toBytes (hsurvives fieldId h rfl) hwritten
      simp [Decodes, ← hnew, Blob.new, hread]
  | other other => cases hsketch

/-- Exactly the sketches are of kinds that are decoded. -/
theorem known_callView
    (hcall : b.call snapshot = .ok call)
    (hunknown :
      ∀ blob, b = .other blob → isSupportedColumnKind blob.kind = false) :
    (callView call).known = b.isSketch := by
  have hblob := blob_of_call hcall
  cases b with
  | hll fieldId sketch =>
      obtain ⟨payload, _, hnew⟩ := exists_of_map_eq_ok hblob
      simp [SidecarBlob.known, callView, ← hnew, Blob.new,
        isSupportedColumnKind, StoredBlob.isSketch]
  | histogram fieldId h =>
      obtain ⟨payload, _, hnew⟩ := exists_of_map_eq_ok hblob
      simp [SidecarBlob.known, callView, ← hnew, Blob.new,
        isSupportedColumnKind, StoredBlob.isSketch]
  | other other =>
      have hsame := Except.ok.inj hblob
      simp [SidecarBlob.known, callView, ← hsame,
        hunknown other rfl, StoredBlob.isSketch]

/-- The loader collects one blob for each sketch of a sidecar. -/
theorem exists_load_calls
    (h :
      List.Forall₂ (fun b call => b.call snapshot = .ok call)
        stored calls)
    (hadmitted : Admitted snapshotId snapshot)
    (hunknown :
      ∀ blob, .other blob ∈ stored →
        isSupportedColumnKind blob.kind = false)
    (hsurvives :
      ∀ fieldId h, .histogram fieldId h ∈ stored → h.Survives display) :
    ∃ blobs,
      ((calls.map callView).filter
          SidecarBlob.known).mapM
        (SidecarBlob.load snapshotId) = some blobs ∧
      List.Forall₂ (Decodes display)
        (stored.filter StoredBlob.isSketch) blobs := by
  induction h with
  | nil => exact ⟨[], rfl, .nil⟩
  | @cons b call stored calls hcall _ ih =>
      obtain ⟨blobs, hblobs, hdecodes⟩ :=
        ih (fun blob hmem => hunknown blob (by simp [hmem]))
          (fun fieldId h hmem => hsurvives fieldId h (by simp [hmem]))
      have hknown :=
        known_callView hcall fun blob hb =>
          hunknown blob (by simp [hb])
      rw [List.map_cons, List.filter_cons, List.filter_cons, hknown]
      cases hsketch : b.isSketch with
      | false => exact ⟨blobs, hblobs, hdecodes⟩
      | true =>
          simp only [if_true]
          refine ⟨call.portable :: blobs, ?_, .cons ?_ hdecodes⟩
          · rw [List.mapM_cons, load_callView hcall hadmitted, hblobs]
            rfl
          · exact
              decodes_of_call hcall hsketch fun fieldId h hb =>
                hsurvives fieldId h (by simp [hb])

/-- File properties that keep the schema version are accepted. -/
theorem version_kept
    {properties : List (String × String)}
    (hversion :
      ∀ property ∈ properties,
        property.1 = samkhyaSchemaVersionProperty →
          property.2 = samkhyaSchemaVersion) :
    (properties.foldl
        (fun table property => table.insert property.1 property.2)
        initialProperties)[samkhyaSchemaVersionProperty]? =
      some samkhyaSchemaVersion := by
  induction properties using List.reverseRecOn with
  | nil => simp [initialProperties]
  | append_singleton properties property ih =>
      rw [List.foldl_append, List.foldl_cons, List.foldl_nil,
        Std.ExtTreeMap.getElem?_insert]
      split_ifs with hkey
      · rw [Std.LawfulEqCmp.compare_eq_iff_eq] at hkey
        rw [hversion property (by simp) hkey]
      · exact ih fun property hmem => hversion property (by simp [hmem])

variable {files : Files} {plan : SidecarPlan}

/-- A published sidecar opens, and shows the blobs of its calls. -/
theorem Published.exists_view
    (h : Published files plan) :
    ∃ calls,
      plan.calls = .ok calls ∧
      sidecarAt serdeJson files plan.path =
        some
          { version :=
              (plan.properties.foldl
                (fun table property =>
                  table.insert property.1 property.2)
                initialProperties)[samkhyaSchemaVersionProperty]?
            blobs := calls.map callView } := by
  obtain ⟨target, calls, steps, sink, hpath, hcalls, hwrite, hfile,
    hcount, hsmall, hlength⟩ := h
  obtain ⟨steps', sink', hwrite', hwritten⟩ :=
    exists_written hcount hsmall hlength
  rw [hwrite, Prod.mk.injEq] at hwrite'
  obtain rfl := Except.ok.inj hwrite'.2
  obtain ⟨r, t, hopen, hfaithful⟩ :=
    open_of_deserialize hcount hsmall (spells_footerValue _).deserialize
      hlength 0
  rw [← hwritten] at hopen hfaithful
  refine ⟨calls, hcalls, ?_⟩
  simp only [sidecarAt, hpath, hfile, Option.bind_some]
  exact sidecar_of_faithful hopen hfaithful

/-- Each of the sketches of a published sidecar is collected. -/
theorem Published.exists_load
    (h : Published files plan)
    (hversion :
      ∀ property ∈ plan.properties,
        property.1 = samkhyaSchemaVersionProperty →
          property.2 = samkhyaSchemaVersion)
    (hadmitted : Admitted snapshotId plan.snapshot)
    (hunknown :
      ∀ blob, .other blob ∈ plan.stored →
        isSupportedColumnKind blob.kind = false)
    (hsurvives :
      ∀ fieldId h, .histogram fieldId h ∈ plan.stored →
        h.Survives display) :
    ∃ blobs,
      (sidecarAt serdeJson files plan.path).bind
          (Sidecar.load snapshotId) =
        some blobs ∧
      List.Forall₂ (Decodes display)
        (plan.stored.filter StoredBlob.isSketch) blobs := by
  obtain ⟨calls, hcalls, hview⟩ := h.exists_view
  obtain ⟨blobs, hload, hdecodes⟩ :=
    exists_load_calls (forall₂_of_mapM_ok hcalls) hadmitted hunknown
      hsurvives
  refine ⟨blobs, ?_, hdecodes⟩
  rw [hview]
  simp only [Option.bind_some, Sidecar.load, version_kept hversion]
  exact hload

/-- All sketches of all sidecars are collected, and nothing else. -/
theorem exists_collected
    {plans : List SidecarPlan}
    (hpublished : ∀ plan ∈ plans, Published files plan)
    (h : WellStored display snapshotId plans) :
    ∃ lists,
      collected serdeJson files snapshotId
          (plans.map SidecarPlan.path) =
        some lists ∧
      List.Forall₂ (Decodes display)
        ((plans.flatMap SidecarPlan.stored).filter StoredBlob.isSketch)
        lists.flatten := by
  have hload :
      ∀ plan ∈ plans, ∃ blobs,
        (sidecarAt serdeJson files plan.path).bind
            (Sidecar.load snapshotId) =
          some blobs ∧
        List.Forall₂ (Decodes display)
          (plan.stored.filter StoredBlob.isSketch) blobs := by
    intro plan hplan
    exact
      (hpublished plan hplan).exists_load (h.version plan hplan)
        (h.snapshot plan hplan) (h.unknown plan hplan)
        (h.survives plan hplan)
  clear hpublished h
  induction plans with
  | nil => exact ⟨[], rfl, .nil⟩
  | cons plan plans ih =>
      rw [List.forall_mem_cons] at hload
      obtain ⟨⟨blobs, hblobs, hdecodes⟩, hrest⟩ := hload
      obtain ⟨lists, hlists, hall⟩ := ih hrest
      refine ⟨blobs :: lists, ?_, ?_⟩
      · rw [List.map_cons, collected_cons, hblobs, hlists]
        rfl
      · rw [List.flatMap_cons, List.filter_append, List.flatten_cons]
        exact List.rel_append hdecodes hall

end Collecting

section Selecting

variable (stored : List StoredBlob)

/-- Blobs of other kinds have no part in what is picked of the sketches. -/
theorem findSome?_sketches
    {β : Type}
    {pick : StoredBlob → Option β}
    (hother : ∀ blob, pick (.other blob) = none) :
    (stored.filter StoredBlob.isSketch).findSome? pick =
      stored.findSome? pick := by
  induction stored with
  | nil => rfl
  | cons b stored ih =>
      cases b with
      | hll fieldId sketch =>
          simp [List.filter_cons, StoredBlob.isSketch,
            List.findSome?_cons, ih]
      | histogram fieldId h =>
          simp [List.filter_cons, StoredBlob.isSketch,
            List.findSome?_cons, ih]
      | other blob =>
          simp [StoredBlob.isSketch, hother blob, ih]

theorem filterMap_key_filter :
    (stored.filter StoredBlob.isSketch).filterMap StoredBlob.key =
      stored.filterMap StoredBlob.key := by
  induction stored with
  | nil => rfl
  | cons b stored ih =>
      cases b <;>
        simp [List.filter_cons, List.filterMap_cons,
          StoredBlob.isSketch, StoredBlob.key, ih]

end Selecting

section Delivering

variable
  {display : F64 → String}
  {snapshotId : Option Int64}
  {files : Files}
  {plans : List SidecarPlan}

/-- Everything that is stored in a list of sidecars. -/
def storedIn (plans : List SidecarPlan) : List StoredBlob :=
  plans.flatMap SidecarPlan.stored

/-- The statistics that follow from what is stored for a field. -/
def storedStats
    (math : EstimateMath)
    (stored : List StoredBlob)
    (fieldId : Int32) : ColumnStats :=
  match storedHll stored fieldId with
  | none => .new
  | some sketch => ColumnStats.new.withDistinctCount (sketch.estimate math)

/-- The statistics of a decoded column, or empty ones. -/
def statsOf (decoded : Option DecodedColumnStats) : ColumnStats :=
  match decoded with
  | none => .new
  | some decoded => decoded.stats

theorem statsOf_assemble
    (math : EstimateMath)
    (stored : List StoredBlob)
    (fieldId : Int32) :
    statsOf
        (assemble (sketchCodecs display math) fieldId
          (storedHll stored fieldId, storedHistogram stored fieldId)) =
      storedStats math stored fieldId := by
  unfold assemble storedStats
  cases storedHll stored fieldId with
  | none => cases storedHistogram stored fieldId <;> rfl
  | some sketch => rfl

/-- Distinct field ids have distinct keys. -/
theorem eq_of_key_eq
    {field field' : SchemaField}
    (h : SchemaField.key field = SchemaField.key field') :
    field.fieldId = field'.fieldId := by
  have hwide : field.fieldId.toInt64 = field'.fieldId.toInt64 :=
    Int64.toBitVec_inj.mp (congrArg UInt64.toBitVec h)
  have hint := congrArg Int64.toInt hwide
  rw [Int32.toInt_toInt64, Int32.toInt_toInt64] at hint
  exact Int32.toInt_inj.mp hint

/-- A projection gives each field what its column decodes to. -/
theorem exists_foldlM_projectField
    {c : SketchCodecs}
    {snapshot : PortableStatsSnapshot}
    {view : Int32 → Option DecodedColumnStats}
    (fields : List SchemaField)
    (hview :
      ∀ field ∈ fields,
        snapshot.decodeColumn c field.fieldId =
          .ok (view field.fieldId)) :
    ∃ out,
      fields.foldlM (projectField c snapshot) ∅ = .ok out ∧
      ∀ field ∈ fields,
        out[SchemaField.key field]? =
          some (statsOf (view field.fieldId)) := by
  induction fields using List.reverseRecOn with
  | nil => exact ⟨∅, rfl, by simp⟩
  | append_singleton fields last ih =>
      obtain ⟨out, hout, hfields⟩ :=
        ih fun field hmem => hview field (by simp [hmem])
      refine
        ⟨out.insert (SchemaField.key last) (statsOf (view last.fieldId)),
          ?_, ?_⟩
      · rw [List.foldlM_append, hout]
        change (projectField c snapshot out last >>= pure) = _
        rw [projectField, hview last (by simp)]
        rfl
      · intro field hmem
        rw [Std.ExtTreeMap.getElem?_insert]
        split_ifs with hkey
        · rw [Std.LawfulEqCmp.compare_eq_iff_eq] at hkey
          rw [eq_of_key_eq hkey]
        · rcases List.mem_append.mp hmem with hmem | hlast
          · exact hfields field hmem
          · rw [List.mem_singleton] at hlast
            exact absurd (hlast ▸ Std.ReflCmp.compare_self) hkey

/-- A schema that declares the stored fields is given their statistics. -/
theorem exists_columnStatsFromSnapshot
    {math : EstimateMath}
    {stored : List StoredBlob}
    {snapshot : PortableStatsSnapshot}
    (hdecodes :
      List.Forall₂ (Decodes display)
        (stored.filter StoredBlob.isSketch) snapshot.blobs)
    (hcolumns :
      ∀ fieldId, 0 ≤ fieldId →
        snapshot.decodeColumn (sketchCodecs display math) fieldId =
          .ok
            (assemble (sketchCodecs display math) fieldId
              (storedHll stored fieldId,
                storedHistogram stored fieldId)))
    {schema : Schema}
    (hpositive : ∀ field ∈ schema.fields, 0 < field.fieldId)
    (hdeclared :
      ∀ b ∈ stored, ∀ fieldId kind,
        b.key = some (fieldId, kind) →
          fieldId ∈ schema.fields.map SchemaField.fieldId) :
    ∃ out,
      columnStatsFromSnapshot (sketchCodecs display math) snapshot
          schema =
        .ok out ∧
      ∀ field ∈ schema.fields,
        out[SchemaField.key field]? =
          some (storedStats math stored field.fieldId) := by
  obtain ⟨out, hout, hstats⟩ :=
    @exists_foldlM_projectField (sketchCodecs display math) snapshot
      (fun fieldId =>
        assemble (sketchCodecs display math) fieldId
          (storedHll stored fieldId, storedHistogram stored fieldId))
      schema.fields fun field hfield =>
        hcolumns field.fieldId (Int32.le_of_lt (hpositive field hfield))
  have hvalid : validateSchema snapshot schema = .ok () := by
    refine (validateSchema_isOk_iff snapshot schema).mpr
      ⟨hpositive, fun blob hblob _ => ?_⟩
    obtain ⟨b, hb, hread⟩ := exists_of_mem_right hdecodes hblob
    have hb := List.mem_of_mem_filter hb
    cases b with
    | hll fieldId sketch =>
        exact ⟨fieldId, hread.2.1, hdeclared _ hb fieldId _ rfl⟩
    | histogram fieldId histogram =>
        exact ⟨fieldId, hread.2.1, hdeclared _ hb fieldId _ rfl⟩
    | other other => exact hread.elim
  refine ⟨out, ?_, fun field hfield => ?_⟩
  · change
      (validateSchema snapshot schema >>= fun _ =>
        schema.fields.foldlM (projectField _ snapshot) ∅) = _
    rw [hvalid]
    exact hout
  · rw [hstats field hfield, statsOf_assemble]

/-- The loader's snapshot of published sidecars, and its columns. -/
theorem exists_delivered
    (math : EstimateMath)
    (hpublished : ∀ plan ∈ plans, Published files plan)
    (h : WellStored display snapshotId plans) :
    ∃ snapshot,
      loadPortableStats (sketchCodecs display math) serdeJson
          files ⟨snapshotId, plans.map SidecarPlan.path⟩ =
        .ok snapshot ∧
      List.Forall₂ (Decodes display)
        ((storedIn plans).filter StoredBlob.isSketch) snapshot.blobs ∧
      ∀ fieldId, 0 ≤ fieldId →
        snapshot.decodeColumn (sketchCodecs display math) fieldId =
          .ok
            (assemble (sketchCodecs display math) fieldId
              (storedHll (storedIn plans) fieldId,
                storedHistogram (storedIn plans) fieldId)) := by
  obtain ⟨lists, hlists, hdecodes⟩ := exists_collected hpublished h
  have hclean :
      Clean known (blobKey (sketchCodecs display math))
        lists.flatten := by
    refine clean_of_decodes hdecodes ?_ ?_
    · intro b hb
      obtain ⟨plan, hplan, hstored⟩ :=
        List.mem_flatMap.mp (List.mem_of_mem_filter hb)
      exact h.nonneg plan hplan b hstored
    · rw [filterMap_key_filter]
      exact h.distinct
  have hspec :=
    loadPortableStats_spec (sketchCodecs display math) serdeJson
      files ⟨snapshotId, plans.map SidecarPlan.path⟩
  cases hload :
      loadPortableStats (sketchCodecs display math) serdeJson
        files ⟨snapshotId, plans.map SidecarPlan.path⟩ with
  | error e =>
      simp only [hload] at hspec
      exact absurd hclean (hspec.2 lists hlists)
  | ok snapshot =>
      simp only [hload] at hspec
      obtain ⟨lists', hlists', rfl, _⟩ := hspec
      rw [hlists] at hlists'
      obtain rfl := Option.some.inj hlists'
      refine ⟨_, rfl, hdecodes, fun fieldId hfield => ?_⟩
      obtain ⟨found, hdecode, hfound⟩ :=
        decodeColumn_of_clean (s := ⟨snapshotId, lists.flatten⟩) hfield
          hclean
      have hstored := holds_stored hdecodes hclean fieldId
      rw [storedHll, storedHistogram, findSome?_sketches _ fun _ => rfl,
        findSome?_sketches _ fun _ => rfl] at hstored
      rw [hdecode, hfound.unique hstored fun _ _ => Iff.rfl]
      rfl

end Delivering

section SmallSidecar

/-- Sixteen registers, one of them raised. -/
def raisedSketch : HllSketch where
  precision := 4
  registers := 3 :: List.replicate 15 0
  wellFormed :=
    { le_precision := by decide
      precision_le := by decide
      length_eq := by decide }

/-- Two buckets with three rows. -/
def raisedHistogram : EquiDepthHistogram where
  boundaries := [.zero, .one, .one]
  counts := [2, 1]
  total := 3

/-- Both sketches of one field beside a blob that no reader knows. -/
def raisedPlan : SidecarPlan where
  path := asBytes "file:///s"
  properties := []
  snapshot := some (7, 1)
  stored :=
    [.hll 1 raisedSketch, .histogram 1 raisedHistogram,
      .other ⟨"later", [], [1], ∅⟩]

def raisedCalls : List WriterCall :=
  [.addBlobForSnapshot
      ⟨HllSketch.kind, [1], HllFields.codec.encode raisedSketch.toHllFields,
        ∅⟩
      7 1,
    .addBlobForSnapshot
      ⟨EquiDepthHistogram.kind, [1],
        EquiDepthHistogram.codec.encode raisedHistogram, ∅⟩
      7 1,
    .addBlobForSnapshot ⟨"later", [], [1], ∅⟩ 7 1]

def raisedFiles : Files := fun path =>
  if path = asBytes "/s" then
    some
      (withFooter (magic ++ payloads raisedCalls)
        (Json.encode
          (FooterText.footerValue (fileFooter [] raisedCalls))))
  else
    none

theorem published_raisedPlan :
    Published raisedFiles raisedPlan := by
  have hcount : raisedCalls.length ≤ maxBlobCount := by decide
  have hsmall :
      ∀ call ∈ raisedCalls, call.blob.payload.length ≤ maxBlobLen := by
    decide +kernel
  have hlength :
      (Json.encode
          (FooterText.footerValue (fileFooter [] raisedCalls))).length ≤
        maxFooterLen := by
    decide +kernel
  obtain ⟨steps, sink, hwrite, hwritten⟩ :=
    exists_written hcount hsmall hlength
  refine
    ⟨asBytes "/s", raisedCalls, steps, sink, ?_, ?_, hwrite, ?_, hcount,
      hsmall, hlength⟩
  · decide +kernel
  · rfl
  · rw [hwritten]
    exact if_pos rfl

theorem wellStored_raisedPlan :
    WellStored (fun _ => "") (some 7) [raisedPlan] where
  version := by simp [raisedPlan]
  snapshot := by simp [raisedPlan]
  unknown := by
    simp [raisedPlan]
    decide
  nonneg := by simp [raisedPlan, StoredBlob.key]
  survives := by
    have hsurvives : raisedHistogram.Survives fun _ => "" := by
      unfold EquiDepthHistogram.Survives
      decide +kernel
    simpa [raisedPlan] using hsurvives
  distinct := by
    simp [raisedPlan, List.filterMap_cons, StoredBlob.key, kinds_ne]

end SmallSidecar

end Samkhya
