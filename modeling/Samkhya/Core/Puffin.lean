import Mathlib
import Samkhya.Foundations.ByteDevice
import Samkhya.Foundations.Saturating

/-!
# The Puffin sidecar format: writer and reader

A file is a magic, the payloads one after the other, and a footer: the magic
again, a JSON payload, its length, four flag bytes and the magic once more.

The writer runs over a sink that may stop a write anywhere.  It writes the head
lazily and mirrors the position of the sink in a counter of its own, which
moves only when a write has gone through.  The reader works backwards from the
end of a seekable source.  `serde_json` is a parameter, read through the two
functions that the code calls.
-/

namespace Samkhya

open FieldCodec ByteDevice Saturating

/-- The bytes `PFA1`. -/
def magic : Bytes := [0x50, 0x46, 0x41, 0x31]

def samkhyaSchemaVersionProperty : String := "samkhya.schema-version"

def samkhyaSchemaVersion : String := "1"

/-- Cap on one blob payload. -/
def maxBlobLen : Nat := 2 * 1024 * 1024 * 1024

/-- Cap on the JSON footer payload. -/
def maxFooterLen : Nat := 16 * 1024 * 1024

/-- Cap on the number of blobs in a footer. -/
def maxBlobCount : Nat := 65536

/-- The failures that the writer and the reader report. -/
inductive PuffinError
  | io
  | invalidPuffin (message : String)
deriving DecidableEq

/-- `BTreeMap<String, String>`. -/
abbrev Properties := Std.ExtTreeMap String String

/-- Per-blob metadata stored in the footer. -/
structure BlobMetadata where
  kind : String
  fields : List Int32
  snapshotId : Option Int64
  sequenceNumber : Option Int64
  offset : UInt64
  length : UInt64
  compressionCodec : Option String
  properties : Properties

/-- The footer, JSON-encoded inside the file. -/
structure FooterPayload where
  blobs : List BlobMetadata
  properties : Properties

/-- `serde_json::to_vec` and `serde_json::from_slice` at the footer. -/
structure FooterJson where
  serialize : FooterPayload → Except String Bytes
  deserialize : Bytes → Except String FooterPayload

/-- A footer that was serialized is read back as it was. -/
def FooterJson.RoundTrips (json : FooterJson) : Prop :=
  ∀ footer bytes,
    json.serialize footer = .ok bytes →
      json.deserialize bytes = .ok footer

open Classical in
/-- A codec that knows one footer and its text. -/
noncomputable def FooterJson.single
    (footer : FooterPayload)
    (bytes : Bytes) : FooterJson where
  serialize other :=
    if other = footer then .ok bytes else .error "unknown footer"
  deserialize other :=
    if other = bytes then .ok footer else .error "expected value"

theorem FooterJson.serialize_single
    (footer : FooterPayload)
    (bytes : Bytes) :
    (single footer bytes).serialize footer = .ok bytes :=
  if_pos rfl

theorem FooterJson.single_roundTrips
    (footer : FooterPayload)
    (bytes : Bytes) :
    (single footer bytes).RoundTrips := by
  intro other text h
  simp only [single] at h ⊢
  split_ifs at h with hother
  rw [← Except.ok.inj h, hother]
  exact if_pos rfl

/-- A blob to be written. -/
structure Blob where
  kind : String
  fields : List Int32
  payload : Bytes
  properties : Properties

/-- The sink, the metadata so far, and the writer's view of the position. -/
structure PuffinWriter where
  inner : Sink
  blobs : List BlobMetadata
  properties : Properties
  pos : UInt64
  wroteHead : Bool

/-- Writer methods; a failing one keeps what it did to the writer. -/
abbrev WriteM := EStateM PuffinError PuffinWriter

namespace PuffinWriter

/-- The properties that every writer starts from. -/
def initialProperties : Properties :=
  ((∅ : Properties).insert "created-by"
    "samkhya-core version 1.2.3").insert
      samkhyaSchemaVersionProperty samkhyaSchemaVersion

def new (inner : Sink) : PuffinWriter where
  inner := inner
  blobs := []
  properties := initialProperties
  pos := 0
  wroteHead := false

/-- Set a file-level footer property. -/
def withFileProperty
    (w : PuffinWriter)
    (key value : String) : PuffinWriter :=
  { w with properties := w.properties.insert key value }

/-- `self.inner.write_all(..)`. -/
def writeAll (bytes : Bytes) : WriteM Unit := fun w =>
  if w.inner.accepts bytes.length then
    .ok () { w with inner := w.inner.append bytes }
  else
    .error .io { w with inner := w.inner.append bytes }

/-- Write the head magic unless it is there already. -/
def ensureHead : WriteM Unit := do
  let w ← get
  if w.wroteHead then
    pure ()
  else
    writeAll magic
    modify
      (fun w =>
        { w with
          pos := w.pos + UInt64.ofNat magic.length
          wroteHead := true })

/-- What the footer records about a blob written at an offset. -/
def metadata
    (blob : Blob)
    (snapshotId sequenceNumber : Int64)
    (offset : UInt64) : BlobMetadata where
  kind := blob.kind
  fields := blob.fields
  snapshotId := some snapshotId
  sequenceNumber := some sequenceNumber
  offset := offset
  length := UInt64.ofNat blob.payload.length
  compressionCodec := none
  properties := blob.properties

/-- Append an uncompressed blob with its snapshot metadata. -/
def addBlobForSnapshot
    (blob : Blob)
    (snapshotId sequenceNumber : Int64) : WriteM Unit := do
  ensureHead
  let w ← get
  let offset := w.pos
  writeAll blob.payload
  modify
    (fun w =>
      { w with
        pos := w.pos + UInt64.ofNat blob.payload.length
        blobs :=
          w.blobs ++
            [metadata blob snapshotId sequenceNumber offset] })

/-- Append a blob; `-1` is the format's unassigned sentinel. -/
def addBlob (blob : Blob) : WriteM Unit :=
  addBlobForSnapshot blob (-1) (-1)

/-- The footer that `finish` serializes. -/
def footer (w : PuffinWriter) : FooterPayload where
  blobs := w.blobs
  properties := w.properties

/-- Write the footer and hand back the sink. -/
def finish (json : FooterJson) : WriteM Sink := do
  ensureHead
  let w ← get
  match json.serialize w.footer with
  | .error e => throw (.invalidPuffin ("footer JSON encode: " ++ e))
  | .ok payload =>
      if u32Max < payload.length then
        throw (.invalidPuffin "footer payload exceeds u32")
      else
        writeAll magic
        writeAll payload
        writeAll (encodeLE 4 payload.length)
        writeAll (encodeLE 4 0)
        writeAll magic
        let w ← get
        pure w.inner

end PuffinWriter

/-- The two ways of adding a blob to a writer. -/
inductive WriterCall
  | addBlob (blob : Blob)
  | addBlobForSnapshot
      (blob : Blob)
      (snapshotId sequenceNumber : Int64)

namespace WriterCall

def blob : WriterCall → Blob
  | addBlob blob => blob
  | addBlobForSnapshot blob _ _ => blob

def run : WriterCall → WriteM Unit
  | addBlob blob => PuffinWriter.addBlob blob
  | addBlobForSnapshot blob snapshotId sequenceNumber =>
      PuffinWriter.addBlobForSnapshot blob snapshotId sequenceNumber

/-- What the footer should say about the blob of a call. -/
def metadata (offset : UInt64) : WriterCall → BlobMetadata
  | addBlob blob => PuffinWriter.metadata blob (-1) (-1) offset
  | addBlobForSnapshot blob snapshotId sequenceNumber =>
      PuffinWriter.metadata blob snapshotId sequenceNumber offset

end WriterCall

/-- One call of a run: the writer before it, and whether it returned `Ok`. -/
structure WriterStep where
  before : PuffinWriter
  call : WriterCall
  ok : Bool

namespace PuffinWriter

/-- Make the calls one after the other, whatever each returns. -/
def runCalls :
    PuffinWriter → List WriterCall → List WriterStep × PuffinWriter
  | w, [] => ([], w)
  | w, call :: calls =>
      match call.run w with
      | .ok _ t =>
          let (steps, final) := runCalls t calls
          (⟨w, call, true⟩ :: steps, final)
      | .error _ t =>
          let (steps, final) := runCalls t calls
          (⟨w, call, false⟩ :: steps, final)

/-- A writer over a sink with its file properties set. -/
def start
    (inner : Sink)
    (properties : List (String × String)) : PuffinWriter :=
  properties.foldl
    (fun w property => w.withFileProperty property.1 property.2)
    (new inner)

/-- A whole file: the calls, then `finish`. -/
def writeFile
    (json : FooterJson)
    (inner : Sink)
    (properties : List (String × String))
    (calls : List WriterCall) :
    List WriterStep × Except PuffinError Sink :=
  let (steps, w) := runCalls (start inner properties) calls
  match finish json w with
  | .ok sink _ => (steps, .ok sink)
  | .error e _ => (steps, .error e)

end PuffinWriter

/-- A parsed footer; the source it came from is the state of `ReadM`. -/
structure PuffinReader where
  footer : FooterPayload
  blobDataEnd : Nat

/-- Eight lower-case hexadecimal digits, `08x`. -/
def hex8 (n : UInt32) : String :=
  String.ofList
    ((List.range 8).reverse.map
      (fun i => Nat.digitChar (n.toNat / 16 ^ i % 16)))

/-- `read_u32::<LittleEndian>`. -/
def readU32 : ReadM PuffinError UInt32 := do
  buffer 4
  let bytes ← readExact 4
  pure (UInt32.ofNat (leNat bytes))

/-- `read_exact` into a `[u8; 4]`. -/
def readMagic : ReadM PuffinError Bytes := do
  buffer 4
  readExact 4

/-- Parse the footer of the source, working back from its end. -/
def PuffinReader.open
    (json : FooterJson) : ReadM PuffinError PuffinReader := do
  let fileLen ← seekEnd 0
  refuseIf (fileLen < 20)
    (.invalidPuffin
      ("file too short: " ++ toString fileLen ++ " bytes"))
  let _ ← seekEnd 4
  let trailing ← readMagic
  refuseIf (trailing ≠ magic) (.invalidPuffin "trailing magic missing")
  let _ ← seekEnd 8
  let flags ← readU32
  refuseIf (flags ≠ 0)
    (.invalidPuffin
      ((if flags &&& 1 = 1 then
          "compressed Puffin footers are not supported"
        else
          "Puffin footer contains unsupported reserved flags") ++
        ": 0x" ++ hex8 flags))
  let _ ← seekEnd 12
  let payloadLen ← readU32
  let payloadLen := payloadLen.toNat
  refuseIf (payloadLen > maxFooterLen)
    (.invalidPuffin
      ("footer payload length " ++ toString payloadLen ++
        " exceeds MAX_FOOTER_LEN " ++ toString maxFooterLen))
  let footerTotal := 16 + payloadLen
  refuseIf (fileLen < footerTotal)
    (.invalidPuffin "payload length exceeds file size")
  let beforeLen ← sub fileLen 12
  let payloadStart ← sub beforeLen payloadLen
  let _ ← seekStart payloadStart
  buffer payloadLen
  let payload ← readExact payloadLen
  let footerStart ← sub payloadStart 4
  let _ ← seekStart footerStart
  let footerHead ← readMagic
  refuseIf (footerHead ≠ magic)
    (.invalidPuffin "footer head magic missing")
  let _ ← seekStart 0
  let head ← readMagic
  refuseIf (head ≠ magic) (.invalidPuffin "file head magic missing")
  match json.deserialize payload with
  | .error e => fail (.invalidPuffin ("footer JSON decode: " ++ e))
  | .ok footer =>
      refuseIf (footer.blobs.length > maxBlobCount)
        (.invalidPuffin
          ("footer enumerates " ++ toString footer.blobs.length ++
            " blobs; exceeds MAX_BLOB_COUNT " ++
            toString maxBlobCount))
      let blobDataEnd ← sub payloadStart 4
      pure ⟨footer, blobDataEnd⟩

/-- The codecs that blob metadata may name. -/
inductive CompressionCodec
  | none
  | zstd
deriving DecidableEq

/-- `Debug` of a character of a string, without the Unicode tables. -/
def debugChar (c : Char) : String :=
  if c = '"' then "\\\""
  else if c = '\\' then "\\\\"
  else if c = '\n' then "\\n"
  else if c = '\r' then "\\r"
  else if c = '\t' then "\\t"
  else if c.toNat = 0 then "\\0"
  else if c.toNat < 32 ∨ c.toNat = 127 then
    "\\u\x7b" ++ String.ofList (Nat.toDigits 16 c.toNat) ++ "\x7d"
  else c.toString

def debugStr (s : String) : String :=
  "\"" ++ String.join (s.toList.map debugChar) ++ "\""

/-- The codec a metadata entry names; a missing one means `none`. -/
def CompressionCodec.fromMeta :
    Option String → Except PuffinError CompressionCodec
  | .none => .ok .none
  | some other =>
      if other = "none" then
        .ok .none
      else if other = "zstd" then
        .ok .zstd
      else
        .error
          (.invalidPuffin
            ("unsupported blob compression codec " ++
              debugStr other))

/-- `decode_zstd` of a build without the `zstd` feature. -/
def decodeZstd (_raw : Bytes) : Except PuffinError Bytes :=
  .error
    (.invalidPuffin
      ("blob is zstd-compressed but the `zstd` cargo feature " ++
        "is disabled"))

/-- Files from before the marker carry none; other values fail closed. -/
def validateSamkhyaSchemaVersion
    (version : Option String) : Except PuffinError Unit :=
  match version with
  | none => .ok ()
  | some other =>
      if other = samkhyaSchemaVersion then
        .ok ()
      else
        .error
          (.invalidPuffin
            ("unsupported " ++ samkhyaSchemaVersionProperty ++ " " ++
              debugStr other ++ "; expected " ++
              samkhyaSchemaVersion))

namespace PuffinReader

/-- Read the payload of a blob by its index. -/
def readBlob
    (r : PuffinReader)
    (idx : Nat) : ReadM PuffinError Bytes :=
  match r.footer.blobs[idx]? with
  | none =>
      fail
        (.invalidPuffin
          ("blob index " ++ toString idx ++ " out of range"))
  | some blob => do
      let length := blob.length.toNat
      let offset := blob.offset.toNat
      refuseIf (length > maxBlobLen)
        (.invalidPuffin
          ("blob " ++ toString idx ++ " length " ++
            toString length ++ " exceeds MAX_BLOB_LEN " ++
            toString maxBlobLen))
      let blobEnd := offset + length
      refuseIf (blobEnd > u64Max)
        (.invalidPuffin
          ("blob " ++ toString idx ++ " offset overflow"))
      refuseIf (offset < magic.length ∨ blobEnd > r.blobDataEnd)
        (.invalidPuffin
          ("blob " ++ toString idx ++ " range " ++
            toString offset ++ ".." ++ toString blobEnd ++
            " falls outside payload region " ++
            toString magic.length ++ ".." ++
            toString r.blobDataEnd))
      let _ ← seekStart offset
      buffer length
      readExact length

/-- Read the payload of a blob and undo its recorded compression. -/
def readBlobDecompressed
    (r : PuffinReader)
    (idx : Nat) : ReadM PuffinError Bytes :=
  match r.footer.blobs[idx]? with
  | none =>
      fail
        (.invalidPuffin
          ("blob index " ++ toString idx ++ " out of range"))
  | some blob =>
      match CompressionCodec.fromMeta blob.compressionCodec with
      | .error e => fail e
      | .ok codec => do
          let raw ← r.readBlob idx
          match codec with
          | .none => pure raw
          | .zstd =>
              match decodeZstd raw with
              | .error e => fail e
              | .ok bytes => pure bytes

end PuffinReader

end Samkhya
