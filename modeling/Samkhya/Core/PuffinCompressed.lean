import Mathlib
import Samkhya.Core.PuffinFooter

/-!
# Compressed blobs

What a build with the `zstd` feature adds to the writer and the reader.  A
compressed blob is a plain one of the compressed bytes whose metadata name the
codec (`stored`), so a file with both kinds is a plain file with some of its
metadata marked.  `compressed_round_trip` reads it back in builds with and
without the feature.

The compressor and the streaming decoder are parameters.
-/

namespace Samkhya

open FieldCodec ByteDevice Saturating PuffinReader PuffinWriter

/-- What a decoder produces of a frame, and how it fails behind that. -/
structure Decoding where
  produced : Bytes
  failure : Option String

/-- `zstd::encode_all` and `zstd::stream::Decoder`. -/
structure Zstd where
  encodeAll : Bytes → Except String Bytes
  decoder : Bytes → Except String Decoding

/-- What was compressed decodes to itself. -/
def Zstd.RoundTrips (z : Zstd) : Prop :=
  ∀ payload raw,
    z.encodeAll payload = .ok raw → z.decoder raw = .ok ⟨payload, none⟩

/-- Read up to a sentinel behind the cap. -/
def decompressBounded
    (reader : Decoding)
    (maxBytes : Nat)
    (codecLabel : String) : Except PuffinError Bytes :=
  let out := reader.produced.take (maxBytes + 1)
  -- `take` stops before it sees how the decoder goes on
  match if out.length ≤ maxBytes then reader.failure else none with
  | some e => .error (.invalidPuffin (codecLabel ++ " decode: " ++ e))
  | none =>
      if maxBytes < out.length then
        .error
          (.invalidPuffin
            (codecLabel ++ " decompressed size exceeds " ++
              toString maxBytes))
      else
        .ok out

/-- `CompressionCodec::as_str`. -/
def CompressionCodec.asStr : CompressionCodec → String
  | .none => "none"
  | .zstd => "zstd"

namespace Zstd

variable (z : Zstd)

/-- `decode_zstd` of a build with the feature. -/
def decode (raw : Bytes) : Except PuffinError Bytes :=
  match z.decoder raw with
  | .error e => .error (.invalidPuffin ("zstd decoder init: " ++ e))
  | .ok reader => decompressBounded reader maxBlobLen "zstd"

/-- `add_blob_zstd` of a build with the feature. -/
def addBlobZstd
    (blob : Blob)
    (snapshotId sequenceNumber : Int64) : WriteM Unit := do
  ensureHead
  match z.encodeAll blob.payload with
  | .error e => throw (.invalidPuffin ("zstd encode: " ++ e))
  | .ok compressed =>
      let w ← get
      let offset := w.pos
      writeAll compressed
      modify
        (fun w =>
          { w with
            pos := w.pos + UInt64.ofNat compressed.length
            blobs :=
              w.blobs ++
                [{ kind := blob.kind
                   fields := blob.fields
                   snapshotId := some snapshotId
                   sequenceNumber := some sequenceNumber
                   offset := offset
                   length := UInt64.ofNat compressed.length
                   compressionCodec := some CompressionCodec.zstd.asStr
                   properties := blob.properties }] })

def addBlobCompressedForSnapshot
    (blob : Blob)
    (codec : CompressionCodec)
    (snapshotId sequenceNumber : Int64) : WriteM Unit :=
  match codec with
  | .none => addBlobForSnapshot blob snapshotId sequenceNumber
  | .zstd => z.addBlobZstd blob snapshotId sequenceNumber

def addBlobCompressed
    (blob : Blob)
    (codec : CompressionCodec) : WriteM Unit :=
  z.addBlobCompressedForSnapshot blob codec (-1) (-1)

end Zstd

/-- `read_blob_decompressed`, with the `decode_zstd` of a build. -/
def PuffinReader.readBlobDecompressedBy
    (decode : Bytes → Except PuffinError Bytes)
    (r : PuffinReader)
    (idx : Nat) : ReadM PuffinError Bytes :=
  match r.footer.blobs[idx]? with
  | none =>
      fail
        (.invalidPuffin
          ("blob index " ++ toString idx ++ " out of range"))
  | some blob =>
      match CompressionCodec.fromMeta blob.compressionCodec with
      | .error e => fail e
      | .ok codec => do
          let raw ← r.readBlob idx
          match codec with
          | .none => pure raw
          | .zstd =>
              match decode raw with
              | .error e => fail e
              | .ok bytes => pure bytes

/-- The build without the feature. -/
theorem readBlobDecompressedBy_decodeZstd :
    PuffinReader.readBlobDecompressedBy decodeZstd =
      PuffinReader.readBlobDecompressed :=
  rfl

/-- The four ways of adding a blob to a writer. -/
inductive BlobCall
  | plain (call : WriterCall)
  | addBlobCompressed (blob : Blob) (codec : CompressionCodec)
  | addBlobCompressedForSnapshot
      (blob : Blob)
      (codec : CompressionCodec)
      (snapshotId sequenceNumber : Int64)

namespace BlobCall

def blob : BlobCall → Blob
  | plain call => call.blob
  | addBlobCompressed blob _ => blob
  | addBlobCompressedForSnapshot blob _ _ _ => blob

def codec : BlobCall → CompressionCodec
  | plain _ => .none
  | addBlobCompressed _ codec => codec
  | addBlobCompressedForSnapshot _ codec _ _ => codec

def run (z : Zstd) : BlobCall → WriteM Unit
  | plain call => call.run
  | addBlobCompressed blob codec => z.addBlobCompressed blob codec
  | addBlobCompressedForSnapshot blob codec snapshotId sequenceNumber =>
      z.addBlobCompressedForSnapshot blob codec snapshotId sequenceNumber

/-- The snapshot and the sequence number that a call records. -/
def ids : BlobCall → Int64 × Int64
  | plain (.addBlob _) => (-1, -1)
  | plain (.addBlobForSnapshot _ snapshotId sequenceNumber) =>
      (snapshotId, sequenceNumber)
  | addBlobCompressed _ _ => (-1, -1)
  | addBlobCompressedForSnapshot _ _ snapshotId sequenceNumber =>
      (snapshotId, sequenceNumber)

/-- All of them come down to one method. -/
theorem run_eq
    (z : Zstd)
    (c : BlobCall) :
    c.run z =
      z.addBlobCompressedForSnapshot c.blob c.codec c.ids.1 c.ids.2 := by
  cases c with
  | plain call => cases call <;> rfl
  | addBlobCompressed blob codec => rfl
  | addBlobCompressedForSnapshot blob codec snapshotId sequenceNumber =>
      rfl

/-- The plain call that writes the same bytes, unless they do not compress. -/
def stored (z : Zstd) (c : BlobCall) :
    Option (WriterCall × CompressionCodec) :=
  match c.codec with
  | .none => some (.addBlobForSnapshot c.blob c.ids.1 c.ids.2, .none)
  | .zstd =>
      match z.encodeAll c.blob.payload with
      | .error _ => none
      | .ok raw =>
          some
            (.addBlobForSnapshot { c.blob with payload := raw } c.ids.1
              c.ids.2, .zstd)

end BlobCall

/-- Metadata that name the codec. -/
def mark : CompressionCodec → BlobMetadata → BlobMetadata
  | .none, blob => blob
  | .zstd, blob =>
      { blob with compressionCodec := some CompressionCodec.zstd.asStr }

@[simp] theorem mark_offset
    (codec : CompressionCodec)
    (blob : BlobMetadata) :
    (mark codec blob).offset = blob.offset := by
  cases codec <;> rfl

@[simp] theorem mark_length
    (codec : CompressionCodec)
    (blob : BlobMetadata) :
    (mark codec blob).length = blob.length := by
  cases codec <;> rfl

/-- Marked metadata of consecutive payloads from an offset on. -/
def layOutStored :
    Nat → List (WriterCall × CompressionCodec) → List BlobMetadata
  | _, [] => []
  | offset, (call, codec) :: rest =>
      mark codec (call.metadata (UInt64.ofNat offset)) ::
        layOutStored (offset + call.blob.payload.length) rest

/-- The bytes between the head and the footer. -/
def storedPayloads (stored : List (WriterCall × CompressionCodec)) : Bytes :=
  payloads (stored.map Prod.fst)

/-- Make the calls; whether each returned `Ok`. -/
def runBlobCalls (z : Zstd) :
    PuffinWriter → List BlobCall → List Bool × PuffinWriter
  | w, [] => ([], w)
  | w, c :: calls =>
      match c.run z w with
      | .ok _ t =>
          let (oks, final) := runBlobCalls z t calls
          (true :: oks, final)
      | .error _ t =>
          let (oks, final) := runBlobCalls z t calls
          (false :: oks, final)

/-- A whole file: the calls, then `finish`. -/
def writeBlobs
    (z : Zstd)
    (json : FooterJson)
    (inner : Sink)
    (properties : List (String × String))
    (calls : List BlobCall) : List Bool × Except PuffinError Sink :=
  let (oks, w) := runBlobCalls z (start inner properties) calls
  match finish json w with
  | .ok sink _ => (oks, .ok sink)
  | .error e _ => (oks, .error e)

namespace PuffinWriter

section Writing

variable {z : Zstd} {w : PuffinWriter} {front : Bytes}

theorem Unhindered.headed
    (h : w.Unhindered front) :
    w.headed.Unhindered front where
  synced := by
    obtain ⟨hwritten, hpos⟩ := h.synced.headed h.headReady
    exact Or.inl ⟨w.headed_wroteHead, hwritten, hpos⟩
  faults := headed_faults h.faults
  bounded := h.bounded

/-- With room for them, bytes are taken, and the counter moves along. -/
theorem Unhindered.append
    (h : w.Unhindered front)
    {bytes : Bytes}
    (hroom : (front ++ bytes).length ≤ capacity)
    (entry : UInt64 → BlobMetadata) :
    w.headed.inner.accepts bytes.length = true ∧
      entry w.headed.pos = entry (UInt64.ofNat front.length) ∧
      ({ w.headed.wrote bytes with
          pos := w.headed.pos + UInt64.ofNat bytes.length
          blobs := w.blobs ++ [entry w.headed.pos] }).Unhindered
        (front ++ bytes) := by
  obtain ⟨hwritten, hpos⟩ := h.synced.headed h.headReady
  have hfaults := headed_faults h.faults
  have hfits :
      w.headed.inner.written.length + bytes.length ≤ capacity := by
    rw [hwritten, ← List.length_append]
    exact hroom
  have haccepts := Sink.accepts_of_fits hfaults hfits
  have hmove :
      (w.headed.pos + UInt64.ofNat bytes.length).toNat =
        w.headed.pos.toNat + bytes.length := by
    apply toNat_pos_add
    rw [hpos, ← hwritten]
    exact hfits
  refine
    ⟨haccepts, ?_,
      ⟨Or.inl ⟨w.headed_wroteHead, ?_, ?_⟩, ?_, hroom⟩⟩
  · rw [← hpos, UInt64.ofNat_toNat]
  · simp only [wrote, Sink.append_written haccepts, hwritten]
  · simp only [hmove, hpos, List.length_append]
  · simp [wrote, Sink.append, hfaults]

/-- A plain call with room for its payload. -/
theorem Unhindered.run_plain
    (h : w.Unhindered front)
    {call : WriterCall}
    (hroom : (front ++ call.blob.payload).length ≤ capacity) :
    ∃ t, call.run w = .ok () t ∧
      t.Unhindered (front ++ call.blob.payload) ∧
      t.blobs =
        w.blobs ++ [call.metadata (UInt64.ofNat front.length)] ∧
      t.properties = w.properties := by
  obtain ⟨haccepts, hentry, ht⟩ :=
    h.append hroom fun offset => call.metadata offset
  have hspec := run_spec w call
  cases hrun : call.run w with
  | ok _ t =>
      rw [ends_of_ok hrun] at hspec
      obtain rfl := hspec.eq
      refine ⟨_, rfl, ht, ?_, w.headed_properties⟩
      rw [← hentry]
  | error e t =>
      rw [ends_of_error hrun] at hspec
      rcases hspec with ⟨hnot, _⟩ | ⟨_, hrefused, _⟩
      · exact absurd h.headReady hnot
      · rw [haccepts] at hrefused
        cases hrefused

/-- A compressed blob with room for its bytes. -/
theorem Unhindered.run_zstd
    (h : w.Unhindered front)
    {blob : Blob}
    {raw : Bytes}
    (hraw : z.encodeAll blob.payload = .ok raw)
    (snapshotId sequenceNumber : Int64)
    (hroom : (front ++ raw).length ≤ capacity) :
    ∃ t, z.addBlobZstd blob snapshotId sequenceNumber w = .ok () t ∧
      t.Unhindered (front ++ raw) ∧
      t.blobs =
        w.blobs ++
          [mark .zstd
            (metadata { blob with payload := raw } snapshotId
              sequenceNumber (UInt64.ofNat front.length))] ∧
      t.properties = w.properties := by
  obtain ⟨haccepts, hentry, ht⟩ :=
    h.append hroom fun offset =>
      mark .zstd
        (metadata { blob with payload := raw } snapshotId sequenceNumber
          offset)
  have hspec :
      Ends (z.addBlobZstd blob snapshotId sequenceNumber) w
        (fun _ t =>
          t =
            { w.headed.wrote raw with
              pos := w.headed.pos + UInt64.ofNat raw.length
              blobs :=
                w.blobs ++
                  [mark .zstd
                    (metadata { blob with payload := raw } snapshotId
                      sequenceNumber w.headed.pos)] })
        (fun _ _ => False) := by
    unfold Zstd.addBlobZstd
    refine
      Ends.bind
        ((ensureHead_spec w).mono (fun _ _ h => h)
          (fun _ _ hnot => hnot.1 h.headReady)) ?_
    rintro _ _ ⟨_, rfl⟩
    rw [hraw]
    refine Ends.get ?_
    refine
      Ends.bind
        ((writeAll_spec w.headed raw).mono (fun _ _ h => h) ?_) ?_
    · rintro _ _ ⟨hrefused, _⟩
      rw [haccepts] at hrefused
      cases hrefused
    rintro _ _ ⟨_, rfl⟩
    change _ = _
    simp [wrote, mark, metadata]
  cases hrun : z.addBlobZstd blob snapshotId sequenceNumber w with
  | ok _ t =>
      rw [ends_of_ok hrun] at hspec
      subst hspec
      refine ⟨_, rfl, ht, ?_, w.headed_properties⟩
      rw [← hentry]
  | error e t =>
      rw [ends_of_error hrun] at hspec
      exact hspec.elim

/-- A blob that does not compress leaves the head at most. -/
theorem Unhindered.run_refused
    (h : w.Unhindered front)
    {blob : Blob}
    {message : String}
    (hraw : z.encodeAll blob.payload = .error message)
    (snapshotId sequenceNumber : Int64) :
    z.addBlobZstd blob snapshotId sequenceNumber w =
      .error (.invalidPuffin ("zstd encode: " ++ message)) w.headed := by
  have hhead : ensureHead w = .ok () w.headed := by
    have hspec := ensureHead_spec w
    cases hrun : ensureHead w with
    | ok _ t =>
        rw [ends_of_ok hrun] at hspec
        rw [hspec.2]
    | error e t =>
        rw [ends_of_error hrun] at hspec
        exact absurd h.headReady hspec.1
  unfold Zstd.addBlobZstd
  change EStateM.bind _ _ _ = _
  simp only [EStateM.bind, hhead, hraw]
  rfl

/-- One call: what can be stored is, anything else changes nothing. -/
theorem Unhindered.run_call
    (h : w.Unhindered front)
    (c : BlobCall)
    (hroom :
      (front ++ storedPayloads (c.stored z).toList).length ≤ capacity) :
    ∃ t,
      (if (c.stored z).isSome then c.run z w = .ok () t
        else ∃ e, c.run z w = .error e t) ∧
      t.Unhindered (front ++ storedPayloads (c.stored z).toList) ∧
      t.blobs =
        w.blobs ++ layOutStored front.length (c.stored z).toList ∧
      t.properties = w.properties := by
  rw [BlobCall.run_eq]
  cases hcodec : c.codec with
  | none =>
      have hstored :
          c.stored z =
            some (.addBlobForSnapshot c.blob c.ids.1 c.ids.2, .none) := by
        simp [BlobCall.stored, hcodec]
      rw [hstored] at hroom ⊢
      simp only [Option.toList_some, storedPayloads, payloads,
        List.map_cons, List.map_nil, List.flatMap_cons, List.flatMap_nil,
        List.append_nil] at hroom ⊢
      exact h.run_plain hroom
  | zstd =>
      cases hraw : z.encodeAll c.blob.payload with
      | error message =>
          have hstored : c.stored z = none := by
            simp [BlobCall.stored, hcodec, hraw]
          rw [hstored]
          refine ⟨w.headed, ⟨_, h.run_refused hraw _ _⟩, ?_, ?_, ?_⟩
          · simpa [storedPayloads, payloads] using h.headed
          · simp [layOutStored]
          · exact w.headed_properties
      | ok raw =>
          have hstored :
              c.stored z =
                some
                  (.addBlobForSnapshot { c.blob with payload := raw }
                    c.ids.1 c.ids.2, .zstd) := by
            simp [BlobCall.stored, hcodec, hraw]
          rw [hstored] at hroom ⊢
          simp only [Option.toList_some, storedPayloads, payloads,
            List.map_cons, List.map_nil, List.flatMap_cons,
            List.flatMap_nil, List.append_nil] at hroom ⊢
          exact h.run_zstd hraw _ _ hroom

theorem layOutStored_append
    (offset : Nat)
    (stored rest : List (WriterCall × CompressionCodec)) :
    layOutStored offset (stored ++ rest) =
      layOutStored offset stored ++
        layOutStored (offset + (storedPayloads stored).length) rest := by
  induction stored generalizing offset with
  | nil => simp [layOutStored, storedPayloads, payloads]
  | cons entry stored ih =>
      obtain ⟨call, codec⟩ := entry
      rw [List.cons_append, layOutStored, ih, layOutStored]
      simp [storedPayloads, payloads, Nat.add_assoc]

theorem storedPayloads_append
    (stored rest : List (WriterCall × CompressionCodec)) :
    storedPayloads (stored ++ rest) =
      storedPayloads stored ++ storedPayloads rest := by
  simp [storedPayloads, payloads]

/-- The stored calls of a run, in order. -/
def storedCalls (z : Zstd) (calls : List BlobCall) :
    List (WriterCall × CompressionCodec) :=
  calls.flatMap fun c => (c.stored z).toList

/-- A whole run. -/
theorem Unhindered.run_calls
    (h : w.Unhindered front)
    (calls : List BlobCall)
    (hroom :
      (front ++ storedPayloads (storedCalls z calls)).length ≤
        capacity) :
    ∃ t,
      runBlobCalls z w calls =
        (calls.map fun c => (c.stored z).isSome, t) ∧
      t.Unhindered (front ++ storedPayloads (storedCalls z calls)) ∧
      t.blobs =
        w.blobs ++ layOutStored front.length (storedCalls z calls) ∧
      t.properties = w.properties := by
  induction calls generalizing w front with
  | nil =>
      refine ⟨w, rfl, ?_, ?_, rfl⟩
      · simpa [storedCalls, storedPayloads, payloads] using h
      · simp [storedCalls, layOutStored]
  | cons c calls ih =>
      have hcons :
          storedCalls z (c :: calls) =
            (c.stored z).toList ++ storedCalls z calls := by
        simp [storedCalls]
      rw [hcons, storedPayloads_append, ← List.append_assoc] at hroom
      have hfirst :
          (front ++ storedPayloads (c.stored z).toList).length ≤
            capacity := by
        rw [List.length_append] at hroom
        omega
      obtain ⟨u, hrun, hu, hblobs, hproperties⟩ := h.run_call c hfirst
      obtain ⟨t, hrest, ht, hmore, hkept⟩ := ih hu hroom
      refine ⟨t, ?_, ?_, ?_, hkept.trans hproperties⟩
      · cases hstored : c.stored z with
        | none =>
            rw [hstored] at hrun
            obtain ⟨e, hrun⟩ := hrun
            rw [runBlobCalls, hrun]
            simp [hrest, hstored]
        | some entry =>
            rw [hstored] at hrun
            simp only [Option.isSome_some, if_true] at hrun
            rw [runBlobCalls, hrun]
            simp [hrest, hstored]
      · rw [hcons, storedPayloads_append, ← List.append_assoc]
        exact ht
      · rw [hmore, hblobs, hcons, layOutStored_append, List.append_assoc,
          List.length_append]

end Writing

section Reading

variable {z : Zstd} {decode : Bytes → Except PuffinError Bytes}

/-- Where and how long a blob is decides what is read of it. -/
theorem readBlob_congr
    {r r' : PuffinReader}
    {idx : Nat}
    {blob blob' : BlobMetadata}
    (h : r.footer.blobs[idx]? = some blob)
    (h' : r'.footer.blobs[idx]? = some blob')
    (hoffset : blob'.offset = blob.offset)
    (hlength : blob'.length = blob.length)
    (hend : r'.blobDataEnd = r.blobDataEnd) :
    r'.readBlob idx = r.readBlob idx := by
  cases r
  cases r'
  cases blob
  cases blob'
  subst hoffset hlength hend
  simp only [PuffinReader.readBlob, h, h']

/-- A read that ends in a value or an error of the format. -/
def ends {α : Type} (x : Except PuffinError α) (t : Source) :
    EStateM.Result (Failure PuffinError) Source α :=
  match x with
  | .ok a => .ok a t
  | .error e => .error (.error e) t

theorem readBlobDecompressedBy_run
    {r : PuffinReader}
    {idx : Nat}
    {s t : Source}
    {blob : BlobMetadata}
    {codec : CompressionCodec}
    {raw : Bytes}
    (hlisted : r.footer.blobs[idx]? = some blob)
    (hcodec :
      CompressionCodec.fromMeta blob.compressionCodec = .ok codec)
    (h : r.readBlob idx s = .ok raw t) :
    r.readBlobDecompressedBy decode idx s =
      ends
        (match codec with
          | .none => .ok raw
          | .zstd => decode raw)
        t := by
  unfold PuffinReader.readBlobDecompressedBy
  rw [hlisted]
  simp only [hcodec]
  change EStateM.bind _ _ _ = _
  simp only [EStateM.bind, h]
  cases codec with
  | none => rfl
  | zstd => cases hdecode : decode raw <;> rfl

/-- A frame that decodes to its end is cut off at the cap only. -/
theorem decompressBounded_whole
    (payload : Bytes)
    (maxBytes : Nat)
    (codecLabel : String) :
    decompressBounded ⟨payload, none⟩ maxBytes codecLabel =
      if maxBytes < payload.length then
        .error
          (.invalidPuffin
            (codecLabel ++ " decompressed size exceeds " ++
              toString maxBytes))
      else
        .ok payload := by
  have hlength :
      maxBytes < (payload.take (maxBytes + 1)).length ↔
        maxBytes < payload.length := by
    rw [List.length_take]
    omega
  simp only [decompressBounded, ite_self, hlength]
  split_ifs with hlarge
  · rfl
  · rw [List.take_of_length_le (by omega)]

/-- Whatever a decoder does, no more than the cap comes out of it. -/
theorem length_of_decompressBounded
    {reader : Decoding}
    {maxBytes : Nat}
    {codecLabel : String}
    {out : Bytes}
    (h : decompressBounded reader maxBytes codecLabel = .ok out) :
    out.length ≤ maxBytes ∧ out = reader.produced ∧
      reader.failure = none := by
  unfold decompressBounded at h
  simp only at h
  split at h
  · cases h
  · rename_i hfailure
    split_ifs at h with hlarge
    obtain rfl := Except.ok.inj h
    rw [if_pos (by omega)] at hfailure
    have hlength := hlarge
    rw [List.length_take] at hlength
    exact
      ⟨not_lt.mp hlarge, List.take_of_length_le (by omega), hfailure⟩

theorem getElem?_layOutStored
    {stored : List (WriterCall × CompressionCodec)}
    {i : Nat}
    {call : WriterCall}
    {codec : CompressionCodec}
    (offset : Nat)
    (h : stored[i]? = some (call, codec)) :
    ∃ blob,
      (layOut offset (stored.map Prod.fst))[i]? = some blob ∧
        (layOutStored offset stored)[i]? = some (mark codec blob) ∧
        ∃ position, blob = call.metadata position := by
  induction stored generalizing offset i with
  | nil => cases h
  | cons entry stored ih =>
      cases i with
      | zero =>
          obtain rfl : entry = (call, codec) := by simpa using h
          exact ⟨_, rfl, rfl, _, rfl⟩
      | succ i => exact ih _ (by simpa using h)

theorem length_layOutStored
    (offset : Nat)
    (stored : List (WriterCall × CompressionCodec)) :
    (layOutStored offset stored).length = stored.length := by
  induction stored generalizing offset with
  | nil => rfl
  | cons entry stored ih =>
      rw [layOutStored, List.length_cons, List.length_cons, ih]

/-- The calls that end up in the file. -/
def keptCalls (z : Zstd) (calls : List BlobCall) : List BlobCall :=
  calls.filter fun c => (c.stored z).isSome

theorem getElem?_storedCalls
    {calls : List BlobCall}
    {i : Nat}
    {c : BlobCall}
    (h : (keptCalls z calls)[i]? = some c) :
    (storedCalls z calls)[i]? = c.stored z := by
  induction calls generalizing i with
  | nil => cases h
  | cons first calls ih =>
      cases hstored : first.stored z with
      | none =>
          rw [keptCalls, List.filter_cons_of_neg (by simp [hstored])] at h
          simpa [storedCalls, hstored] using ih h
      | some entry =>
          rw [keptCalls, List.filter_cons_of_pos (by simp [hstored])] at h
          cases i with
          | zero =>
              obtain rfl : first = c := by simpa using h
              simp [storedCalls, hstored]
          | succ i =>
              rw [List.getElem?_cons_succ] at h
              simpa [storedCalls, hstored] using ih h

theorem length_storedCalls
    (z : Zstd)
    (calls : List BlobCall) :
    (storedCalls z calls).length = (keptCalls z calls).length := by
  simp only [keptCalls]
  induction calls with
  | nil => rfl
  | cons c calls ih =>
      cases hstored : c.stored z with
      | none =>
          rw [List.filter_cons_of_neg (by simp [hstored])]
          simpa [storedCalls, hstored] using ih
      | some entry =>
          rw [List.filter_cons_of_pos (by simp [hstored])]
          simpa [storedCalls, hstored] using ih

/-- What reading the blob of a call gives with the feature. -/
def expected (c : BlobCall) : Except PuffinError Bytes :=
  match c.codec with
  | .none => .ok c.blob.payload
  | .zstd =>
      if maxBlobLen < c.blob.payload.length then
        .error
          (.invalidPuffin
            ("zstd decompressed size exceeds " ++ toString maxBlobLen))
      else
        .ok c.blob.payload

/-- And without it. -/
def expectedPlain (c : BlobCall) : Except PuffinError Bytes :=
  match c.codec with
  | .none => .ok c.blob.payload
  | .zstd =>
      .error
        (.invalidPuffin
          ("blob is zstd-compressed but the `zstd` cargo feature " ++
            "is disabled"))

/-- The footer of a file with compressed blobs. -/
def storedFooter
    (properties : List (String × String))
    (stored : List (WriterCall × CompressionCodec)) : FooterPayload where
  blobs := layOutStored magic.length stored
  properties := (start Sink.fresh properties).properties

/-- Every blob that was stored is read back. -/
theorem read_stored
    (hz : z.RoundTrips)
    {calls : List BlobCall}
    {properties : List (String × String)}
    {text : Bytes}
    (hcapacity :
      4 + (storedPayloads (storedCalls z calls)).length ≤ capacity)
    (hsmall :
      ∀ entry ∈ storedCalls z calls,
        entry.1.blob.payload.length ≤ maxBlobLen)
    {i : Nat}
    {c : BlobCall}
    (hc : (keptCalls z calls)[i]? = some c)
    (position : Nat) :
    let bytes :=
      withFooter (magic ++ storedPayloads (storedCalls z calls)) text
    let r : PuffinReader :=
      ⟨storedFooter properties (storedCalls z calls),
        4 + (storedPayloads (storedCalls z calls)).length⟩
    (∃ t, r.readBlobDecompressedBy z.decode i ⟨bytes, position, []⟩ =
        ends (expected c) t) ∧
      ∃ t, r.readBlobDecompressed i ⟨bytes, position, []⟩ =
        ends (expectedPlain c) t := by
  intro bytes r
  have hentry := getElem?_storedCalls hc
  have hkept : (c.stored z).isSome = true :=
    (List.mem_filter.mp (List.mem_of_getElem? hc)).2
  obtain ⟨⟨call, codec⟩, hstored⟩ := Option.isSome_iff_exists.mp hkept
  rw [hstored] at hentry
  obtain ⟨blob, hplain, hmarked, offset, hblob⟩ :=
    getElem?_layOutStored magic.length hentry
  have hcall :
      ((storedCalls z calls).map Prod.fst)[i]? = some call := by
    simp [hentry]
  have hfaithful :=
    @faithful_withFooter properties ((storedCalls z calls).map Prod.fst)
      text hcapacity
      (by
        intro call hcall
        obtain ⟨entry, hmem, rfl⟩ := List.mem_map.mp hcall
        exact hsmall entry hmem)
  obtain ⟨⟨t, hread⟩, _⟩ := hfaithful.payload i call hcall position
  have hraw :
      r.readBlob i ⟨bytes, position, []⟩ = .ok call.blob.payload t := by
    rw [← hread]
    exact
      congrFun
        (@readBlob_congr
          ⟨fileFooter properties ((storedCalls z calls).map Prod.fst),
            4 + (storedPayloads (storedCalls z calls)).length⟩ r i _ _
          hplain hmarked (mark_offset _ _) (mark_length _ _) rfl) _
  have hnone : blob.compressionCodec = none := by
    rw [hblob]
    cases call <;> rfl
  have hdecode :
      ∀ decode,
        r.readBlobDecompressedBy decode i ⟨bytes, position, []⟩ =
          ends
            (match codec with
              | .none => .ok call.blob.payload
              | .zstd => decode call.blob.payload)
            t := by
    intro decode
    apply readBlobDecompressedBy_run hmarked
    · cases codec with
      | none =>
          rw [mark, hnone]
          rfl
      | zstd => rfl
    · exact hraw
  rw [← readBlobDecompressedBy_decodeZstd, hdecode, hdecode]
  unfold BlobCall.stored at hstored
  cases hcodec : c.codec with
  | none =>
      rw [hcodec] at hstored
      obtain ⟨rfl, rfl⟩ := Prod.mk.inj (Option.some.inj hstored)
      exact
        ⟨⟨t, by simp [expected, hcodec, WriterCall.blob]⟩,
          t, by simp [expectedPlain, hcodec, WriterCall.blob]⟩
  | zstd =>
      rw [hcodec] at hstored
      cases hencode : z.encodeAll c.blob.payload with
      | error e =>
          rw [hencode] at hstored
          cases hstored
      | ok raw =>
          rw [hencode] at hstored
          obtain ⟨rfl, rfl⟩ := Prod.mk.inj (Option.some.inj hstored)
          have hdecoder := hz _ _ hencode
          refine ⟨⟨t, ?_⟩, t, ?_⟩
          · simp only [WriterCall.blob, Zstd.decode, hdecoder,
              decompressBounded_whole, expected, hcodec]
            rfl
          · simp [expectedPlain, hcodec, decodeZstd]

/-- Whatever a file and a decoder do, the cap holds and nothing is cut off. -/
theorem readBlobDecompressedBy_whole
    {r : PuffinReader}
    {idx : Nat}
    {s t u : Source}
    {blob : BlobMetadata}
    {raw bytes : Bytes}
    (hlisted : r.footer.blobs[idx]? = some blob)
    (hcodec : CompressionCodec.fromMeta blob.compressionCodec = .ok .zstd)
    (hraw : r.readBlob idx s = .ok raw t)
    (h : r.readBlobDecompressedBy z.decode idx s = .ok bytes u) :
    bytes.length ≤ maxBlobLen ∧ z.decoder raw = .ok ⟨bytes, none⟩ := by
  rw [readBlobDecompressedBy_run hlisted hcodec hraw, Zstd.decode] at h
  cases hdecoder : z.decoder raw with
  | error e =>
      simp only [hdecoder] at h
      cases h
  | ok reader =>
      simp only [hdecoder] at h
      cases hout : decompressBounded reader maxBlobLen "zstd" with
      | error e =>
          rw [hout] at h
          cases h
      | ok out =>
          rw [hout] at h
          obtain ⟨rfl, rfl⟩ := EStateM.Result.ok.inj h
          obtain ⟨hlength, rfl, hfailure⟩ :=
            length_of_decompressBounded hout
          refine ⟨hlength, ?_⟩
          cases reader
          subst hfailure
          rfl

end Reading

section RoundTrip

variable
  {z : Zstd}
  {properties : List (String × String)}
  {calls : List BlobCall}

/-- A run writes the stored payloads and a footer that lists them. -/
theorem exists_writtenBlobs
    (hroom :
      (withFooter (magic ++ storedPayloads (storedCalls z calls))
        (Json.encode
          (FooterText.footerValue
            (storedFooter properties (storedCalls z calls))))).length ≤
        capacity)
    (hlength :
      (Json.encode
          (FooterText.footerValue
            (storedFooter properties (storedCalls z calls)))).length ≤
        u32Max) :
    ∃ sink,
      writeBlobs z serdeJson Sink.fresh properties calls =
          (calls.map fun c => (c.stored z).isSome, .ok sink) ∧
        sink.written =
          withFooter (magic ++ storedPayloads (storedCalls z calls))
            (Json.encode
              (FooterText.footerValue
                (storedFooter properties (storedCalls z calls)))) := by
  have hfits :
      (magic ++ storedPayloads (storedCalls z calls)).length ≤
        capacity := by
    rw [length_withFooter] at hroom
    omega
  obtain ⟨w, hrun, hw, hblobs, hproperties⟩ :=
    (Unhindered.start properties).run_calls calls hfits
  have hfooter :
      w.footer = storedFooter properties (storedCalls z calls) := by
    rw [footer, hblobs, hproperties, storedFooter, start_eq]
    rfl
  rw [← hfooter] at hroom hlength ⊢
  have hheaded := (hw.synced.headed hw.headReady).1
  rw [← hheaded] at hroom ⊢
  obtain ⟨sink, t, hfinish, hwritten⟩ :=
    @finish_run w serdeJson _ hw.faults hw.headReady rfl hlength hroom
  refine ⟨sink, ?_, hwritten⟩
  rw [writeBlobs, hrun]
  simp only [hfinish]

/--
**Compressed and plain blobs of one file are read back**: each call that was
stored, under the number it has among those, with the payload it was made with,
in a build with the feature.  What decompresses to more than the cap is refused,
and so is anything compressed in a build without the feature.
-/
theorem compressed_round_trip
    (hz : z.RoundTrips)
    (hcount : (keptCalls z calls).length ≤ maxBlobCount)
    (hsmall :
      ∀ entry ∈ storedCalls z calls,
        entry.1.blob.payload.length ≤ maxBlobLen)
    (hlength :
      (Json.encode
          (FooterText.footerValue
            (storedFooter properties (storedCalls z calls)))).length ≤
        maxFooterLen) :
    ∃ sink,
      writeBlobs z serdeJson Sink.fresh properties calls =
          (calls.map fun c => (c.stored z).isSome, .ok sink) ∧
        ∀ position, ∃ r t,
          PuffinReader.open serdeJson ⟨sink.written, position, []⟩ =
              .ok r t ∧
            r.footer = storedFooter properties (storedCalls z calls) ∧
            r.footer.blobs.length = (keptCalls z calls).length ∧
            ∀ i c, (keptCalls z calls)[i]? = some c → ∀ position,
              (∃ t,
                r.readBlobDecompressedBy z.decode i
                    ⟨sink.written, position, []⟩ =
                  ends (expected c) t) ∧
              ∃ t,
                r.readBlobDecompressed i ⟨sink.written, position, []⟩ =
                  ends (expectedPlain c) t := by
  have hlisted :
      (storedFooter properties (storedCalls z calls)).blobs.length =
        (keptCalls z calls).length := by
    rw [storedFooter, length_layOutStored, length_storedCalls]
  have htotal :
      (storedPayloads (storedCalls z calls)).length ≤
        maxBlobCount * maxBlobLen := by
    refine
      (length_payloads_le (by simpa using hsmall)).trans
        (Nat.mul_le_mul_right _ ?_)
    rw [List.length_map, length_storedCalls]
    exact hcount
  have hroom :
      maxBlobCount * maxBlobLen + maxFooterLen + 20 ≤ capacity := by
    decide
  have hfront :
      (magic ++ storedPayloads (storedCalls z calls)).length =
        4 + (storedPayloads (storedCalls z calls)).length :=
    List.length_append
  obtain ⟨sink, hwrite, hwritten⟩ :=
    @exists_writtenBlobs z properties calls
      (by rw [length_withFooter]; omega) (hlength.trans (by decide))
  refine ⟨sink, hwrite, fun position => ?_⟩
  have haccepts :
      Accepts serdeJson sink.written
        ⟨storedFooter properties (storedCalls z calls),
          4 + (storedPayloads (storedCalls z calls)).length⟩ := by
    rw [hwritten, ← hfront]
    apply accepts_withFooter
    · rw [length_withFooter]
      omega
    · exact hlength
    · exact slice_eq (a := []) rfl rfl rfl
    · exact (spells_footerValue _).deserialize
    · rw [hlisted]
      exact hcount
  obtain ⟨t, hopen⟩ := haccepts.run position
  refine ⟨_, t, hopen, rfl, hlisted, fun i c hc position => ?_⟩
  rw [hwritten]
  exact read_stored hz (by omega) hsmall hc position

/-- Frames of a single raw block, as small payloads come out. -/
def rawBlockZstd : Zstd where
  encodeAll payload :=
    if payload.length < 131072 then
      .ok
        ([0x28, 0xb5, 0x2f, 0xfd, 0x00, 0x58] ++
          u24le (payload.length * 8 + 1) ++ payload)
    else
      .error "the payload takes more than a block"
  decoder raw :=
    if raw.take 6 = [0x28, 0xb5, 0x2f, 0xfd, 0x00, 0x58] then
      .ok ⟨raw.drop 9, none⟩
    else
      .ok ⟨[], some "Unknown frame descriptor"⟩
where
  u24le (n : Nat) : Bytes :=
    [UInt8.ofNat n, UInt8.ofNat (n / 256), UInt8.ofNat (n / 65536)]

theorem rawBlockZstd_roundTrips :
    rawBlockZstd.RoundTrips := by
  intro payload raw h
  simp only [rawBlockZstd] at h
  split_ifs at h
  obtain rfl := Except.ok.inj h
  rfl

/-- A compressed blob, a plain one and one that names its snapshot. -/
def mixedCalls : List BlobCall :=
  [.addBlobCompressed ⟨"samkhya.test-v1", [0], [1, 2, 3], ∅⟩ .zstd,
    .plain (.addBlob ⟨"samkhya.test-v1", [1], magic, ∅⟩),
    .addBlobCompressedForSnapshot
      ⟨"samkhya.test-v1", [2], [4, 5], ∅⟩ .zstd 7 9]

theorem compressed_round_trip_mixed :
    ∃ sink,
      writeBlobs rawBlockZstd serdeJson Sink.fresh [] mixedCalls =
          (mixedCalls.map fun c => (c.stored rawBlockZstd).isSome,
            .ok sink) ∧
        ∀ position, ∃ r t,
          PuffinReader.open serdeJson ⟨sink.written, position, []⟩ =
              .ok r t ∧
            r.footer =
              storedFooter [] (storedCalls rawBlockZstd mixedCalls) ∧
            r.footer.blobs.length =
              (keptCalls rawBlockZstd mixedCalls).length ∧
            ∀ i c, (keptCalls rawBlockZstd mixedCalls)[i]? = some c →
              ∀ position,
                (∃ t,
                  r.readBlobDecompressedBy rawBlockZstd.decode i
                      ⟨sink.written, position, []⟩ =
                    ends (expected c) t) ∧
                ∃ t,
                  r.readBlobDecompressed i
                      ⟨sink.written, position, []⟩ =
                    ends (expectedPlain c) t :=
  compressed_round_trip rawBlockZstd_roundTrips (by decide) (by decide)
    (by decide +kernel)

end RoundTrip

end PuffinWriter

end Samkhya
