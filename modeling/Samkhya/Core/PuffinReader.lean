import Mathlib
import Samkhya.Core.Puffin

/-!
# What the Puffin reader accepts

`Accepts` lists what `open` has checked when it returns a reader, and
`open_spec` says that it returns one exactly then, without a short read, an
underflow, an access outside the file or a buffer above the footer cap.
`readBlob_spec` does the same for the blob payloads.

The check of the file length leaves out the head magic.  A file in which the
footer magic is the head magic itself is therefore accepted, and it is the only
kind of accepted file that lacks the documented layout.
-/

namespace Samkhya

open FieldCodec ByteDevice Saturating

namespace PuffinReader

variable {json : FooterJson} {bytes : Bytes} {cap : Nat} {s : Source}
variable {E : Failure PuffinError → Source → Prop}

/-- Reading four bytes into a small array. -/
theorem stays_readMagic
    (hs : Stays bytes cap s)
    (h : s.position + 4 ≤ bytes.length)
    (hcap : 4 ≤ cap) :
    Ends readMagic s
      (fun bs t =>
        bs = slice bytes s.position 4 ∧ Stays bytes cap t)
      E := by
  unfold readMagic
  refine Ends.bind (hs.buffer hcap) ?_
  rintro _ t ⟨hposition, ht⟩
  rw [← hposition] at h ⊢
  exact ht.readExact h

/-- Reading a little-endian number. -/
theorem stays_readU32
    (hs : Stays bytes cap s)
    (h : s.position + 4 ≤ bytes.length)
    (hcap : 4 ≤ cap) :
    Ends readU32 s
      (fun n t =>
        n.toNat = leNat (slice bytes s.position 4) ∧
          Stays bytes cap t)
      E := by
  unfold readU32
  refine Ends.bind (hs.buffer hcap) ?_
  rintro _ t ⟨hposition, ht⟩
  rw [← hposition] at h ⊢
  refine Ends.bind (ht.readExact h) ?_
  rintro bs t' ⟨rfl, ht'⟩
  apply Ends.pure
  refine ⟨?_, ht'⟩
  apply UInt32.toNat_ofNat_of_lt'
  have hlt := leNat_lt (slice bytes t.position 4)
  rw [length_slice h] at hlt
  exact hlt

/-- A magic is read and compared. -/
theorem ends_checkMagic
    {β : Type}
    {Q : β → Source → Prop}
    {e : PuffinError}
    {f : Unit → ReadM PuffinError β}
    {position : Nat}
    (hs : Stays bytes cap s)
    (hposition : s.position = position)
    (h : position + 4 ≤ bytes.length)
    (hcap : 4 ≤ cap)
    (hrefused :
      ∀ t, Stays bytes cap t →
        slice bytes position 4 ≠ magic → E (.error e) t)
    (hpassed :
      ∀ t, Stays bytes cap t →
        slice bytes position 4 = magic → Ends (f ()) t Q E) :
    Ends
      (readMagic >>= fun bs => refuseIf (bs ≠ magic) e >>= f)
      s Q E := by
  subst hposition
  refine Ends.bind (stays_readMagic hs h hcap) ?_
  rintro bs t ⟨rfl, ht⟩
  refine Ends.refuseIf (hrefused t ht) fun hmagic => ?_
  exact hpassed t ht (not_not.mp hmagic)

/-- The payload length that a file declares before its flags. -/
def declaredLen (bytes : Bytes) : Nat :=
  leNat (slice bytes (bytes.length - 12) 4)

/-- What `open` checks of a file, and the reader it makes of it. -/
structure Accepts
    (json : FooterJson)
    (bytes : Bytes)
    (r : PuffinReader) : Prop where
  long : 20 ≤ bytes.length
  trailing : slice bytes (bytes.length - 4) 4 = magic
  flags : leNat (slice bytes (bytes.length - 8) 4) = 0
  small : declaredLen bytes ≤ maxFooterLen
  fits : 16 + declaredLen bytes ≤ bytes.length
  footerHead :
    slice bytes (bytes.length - 12 - declaredLen bytes - 4) 4 = magic
  head : slice bytes 0 4 = magic
  decoded :
    json.deserialize
        (slice bytes (bytes.length - 12 - declaredLen bytes)
          (declaredLen bytes)) =
      .ok r.footer
  count : r.footer.blobs.length ≤ maxBlobCount
  dataEnd :
    r.blobDataEnd = bytes.length - 12 - declaredLen bytes - 4

/-- The only way `open` fails: an error of its own, on a bad file. -/
structure Refused
    (json : FooterJson)
    (bytes : Bytes)
    (e : Failure PuffinError)
    (t : Source) : Prop where
  stays : Stays bytes maxFooterLen t
  invalid : ∃ message, e = .error (.invalidPuffin message)
  not_accepted : ∀ r, ¬ Accepts json bytes r

/-- `open` returns a reader exactly for the files it accepts. -/
theorem open_spec
    (json : FooterJson)
    (bytes : Bytes)
    (position : Nat) :
    Ends (PuffinReader.open json) ⟨bytes, position, []⟩
      (fun r t => Stays bytes maxFooterLen t ∧ Accepts json bytes r)
      (Refused json bytes) := by
  unfold PuffinReader.open
  have hs := Stays.fresh bytes position maxFooterLen
  refine Ends.bind (hs.seekEnd (Nat.zero_le _)) ?_
  rintro fileLen s ⟨hfileLen, _, hs⟩
  rw [Nat.sub_zero] at hfileLen
  subst hfileLen
  refine Ends.refuseIf ?_ fun hlong => ?_
  · intro hshort
    exact
      ⟨hs, ⟨_, rfl⟩, fun r h => absurd h.long (by omega)⟩
  rw [Nat.not_lt] at hlong
  -- the trailing magic
  refine Ends.bind (hs.seekEnd (by omega)) ?_
  rintro _ s ⟨_, hposition, hs⟩
  refine ends_checkMagic hs hposition (by omega) (by decide) ?_ ?_
  · intro t ht hne
    exact ⟨ht, ⟨_, rfl⟩, fun r h => absurd h.trailing hne⟩
  intro s hs htrailing
  -- the flags
  refine Ends.bind (hs.seekEnd (by omega)) ?_
  rintro _ s ⟨_, hposition, hs⟩
  refine
    Ends.bind (stays_readU32 hs (by omega) (by decide)) ?_
  rintro flags s ⟨hflags, hs⟩
  rw [hposition] at hflags
  refine Ends.refuseIf ?_ fun hzero => ?_
  · intro hne
    refine ⟨hs, ⟨_, rfl⟩, fun r h => ?_⟩
    apply hne
    apply UInt32.toNat_inj.mp
    rw [hflags, h.flags]
    rfl
  rw [not_not] at hzero
  rw [hzero] at hflags
  -- the declared length
  refine Ends.bind (hs.seekEnd (by omega)) ?_
  rintro _ s ⟨_, hposition, hs⟩
  refine
    Ends.bind (stays_readU32 hs (by omega) (by decide)) ?_
  rintro payloadLen s ⟨hpayloadLen, hs⟩
  rw [hposition] at hpayloadLen
  change payloadLen.toNat = declaredLen bytes at hpayloadLen
  simp only [hpayloadLen]
  refine Ends.refuseIf ?_ fun hsmall => ?_
  · intro hlarge
    exact
      ⟨hs, ⟨_, rfl⟩, fun r h => absurd h.small (by omega)⟩
  rw [Nat.not_lt, hpayloadLen] at hsmall
  refine Ends.refuseIf ?_ fun hfits => ?_
  · intro hlt
    exact ⟨hs, ⟨_, rfl⟩, fun r h => absurd h.fits (by omega)⟩
  rw [Nat.not_lt, hpayloadLen] at hfits
  -- the guards dominate the subtractions
  refine Ends.bind (Ends.sub (by omega)) ?_
  rintro _ _ ⟨rfl, rfl⟩
  refine Ends.bind (Ends.sub (by omega)) ?_
  rintro _ _ ⟨rfl, rfl⟩
  refine Ends.bind (hs.seekStart (by omega)) ?_
  rintro _ s ⟨_, hposition, hs⟩
  refine Ends.bind (hs.buffer hsmall) ?_
  rintro _ s' ⟨hsame, hs⟩
  rw [hposition] at hsame
  refine Ends.bind (hs.readExact (by omega)) ?_
  rintro payload s ⟨hpayload, hs⟩
  rw [hsame] at hpayload
  subst hpayload
  -- the footer magic
  refine Ends.bind (Ends.sub (by omega)) ?_
  rintro _ _ ⟨rfl, rfl⟩
  refine Ends.bind (hs.seekStart (by omega)) ?_
  rintro _ s ⟨_, hposition, hs⟩
  refine ends_checkMagic hs hposition (by omega) (by decide) ?_ ?_
  · intro t ht hne
    exact ⟨ht, ⟨_, rfl⟩, fun r h => absurd h.footerHead hne⟩
  intro s hs hfooterHead
  -- the head magic
  refine Ends.bind (hs.seekStart (Nat.zero_le _)) ?_
  rintro _ s ⟨_, hposition, hs⟩
  refine ends_checkMagic hs hposition (by omega) (by decide) ?_ ?_
  · intro t ht hne
    exact ⟨ht, ⟨_, rfl⟩, fun r h => absurd h.head hne⟩
  intro s hs hhead
  -- the footer
  cases hdecode :
      json.deserialize
        (slice bytes (bytes.length - 12 - declaredLen bytes)
          (declaredLen bytes)) with
  | error e =>
      apply Ends.fail
      refine ⟨hs, ⟨_, rfl⟩, fun r h => ?_⟩
      have hdecoded := h.decoded
      rw [hdecode] at hdecoded
      cases hdecoded
  | ok footer =>
      refine Ends.refuseIf ?_ fun hcount => ?_
      · intro hmany
        refine ⟨hs, ⟨_, rfl⟩, fun r h => ?_⟩
        have hdecoded := h.decoded
        rw [hdecode] at hdecoded
        rw [Except.ok.inj hdecoded] at hmany
        exact absurd h.count (by omega)
      rw [Nat.not_lt] at hcount
      refine Ends.bind (Ends.sub (by omega)) ?_
      rintro _ _ ⟨rfl, rfl⟩
      exact
        ⟨hs,
          { long := hlong
            trailing := htrailing
            flags := hflags.symm
            small := hsmall
            fits := hfits
            footerHead := hfooterHead
            head := hhead
            decoded := hdecode
            count := hcount
            dataEnd := rfl }⟩

theorem Accepts.unique
    {r r' : PuffinReader}
    (h : Accepts json bytes r)
    (h' : Accepts json bytes r') :
    r = r' := by
  have hfooter := h.decoded.symm.trans h'.decoded
  have hdata := h.dataEnd.trans h'.dataEnd.symm
  cases r
  cases r'
  rw [PuffinReader.mk.injEq]
  exact ⟨Except.ok.inj hfooter, hdata⟩

theorem Accepts.run
    {r : PuffinReader}
    (h : Accepts json bytes r)
    (position : Nat) :
    ∃ t, PuffinReader.open json ⟨bytes, position, []⟩ = .ok r t := by
  have hspec := open_spec json bytes position
  cases hrun : PuffinReader.open json ⟨bytes, position, []⟩ with
  | ok r' t =>
      rw [ends_of_ok hrun] at hspec
      rw [h.unique hspec.2]
      exact ⟨t, rfl⟩
  | error e t =>
      rw [ends_of_error hrun] at hspec
      exact absurd h (hspec.not_accepted r)

theorem run_of_not_accepts
    (h : ∀ r, ¬ Accepts json bytes r)
    (position : Nat) :
    ∃ e t,
      PuffinReader.open json ⟨bytes, position, []⟩ = .error e t := by
  have hspec := open_spec json bytes position
  cases hrun : PuffinReader.open json ⟨bytes, position, []⟩ with
  | ok r t =>
      rw [ends_of_ok hrun] at hspec
      exact absurd hspec.2 (h r)
  | error e t =>
      exact ⟨e, t, rfl⟩

/-- A file that ends in a footer with the given JSON payload. -/
def withFooter (front payload : Bytes) : Bytes :=
  front ++
    (magic ++
      (payload ++
        (encodeLE 4 payload.length ++ (encodeLE 4 0 ++ magic))))

@[simp] theorem length_magic : magic.length = 4 :=
  rfl

@[simp] theorem length_withFooter
    (front payload : Bytes) :
    (withFooter front payload).length =
      front.length + 16 + payload.length := by
  simp only [withFooter, List.length_append, length_magic,
    length_encodeLE]
  omega

section Trailer

variable {front payload : Bytes}

theorem declaredLen_withFooter
    (h : payload.length ≤ u32Max) :
    declaredLen (withFooter front payload) = payload.length := by
  have hslice :
      slice (withFooter front payload)
          ((withFooter front payload).length - 12) 4 =
        encodeLE 4 payload.length := by
    apply
      slice_eq (a := front ++ (magic ++ payload))
        (c := encodeLE 4 0 ++ magic)
    · simp [withFooter]
    · simp only [length_withFooter, List.length_append, length_magic]
      omega
    · simp
  rw [declaredLen, hslice]
  exact leNat_encodeLE 4 (h.trans_lt (by decide))

/-- The reader accepts a file that ends in a readable footer. -/
theorem accepts_withFooter
    {footer : FooterPayload}
    (hlong : 20 ≤ (withFooter front payload).length)
    (hsmall : payload.length ≤ maxFooterLen)
    (hhead : slice (withFooter front payload) 0 4 = magic)
    (hdecoded : json.deserialize payload = .ok footer)
    (hcount : footer.blobs.length ≤ maxBlobCount) :
    Accepts json (withFooter front payload)
      ⟨footer, front.length⟩ := by
  have hdeclared :
      declaredLen (withFooter front payload) = payload.length :=
    declaredLen_withFooter (hsmall.trans (by decide))
  have hlength := length_withFooter front payload
  have hfooter :
      (withFooter front payload).length - 12 - payload.length - 4 =
        front.length := by
    omega
  constructor
  · exact hlong
  · apply
      slice_eq (c := [])
        (a :=
          front ++
            (magic ++
              (payload ++
                (encodeLE 4 payload.length ++ encodeLE 4 0))))
    · simp [withFooter]
    · simp only [length_withFooter, List.length_append, length_magic,
        length_encodeLE]
      omega
    · rfl
  · have hslice :
        slice (withFooter front payload)
            ((withFooter front payload).length - 8) 4 =
          encodeLE 4 0 := by
      apply
        slice_eq (c := magic)
          (a :=
            front ++
              (magic ++ (payload ++ encodeLE 4 payload.length)))
      · simp [withFooter]
      · simp only [length_withFooter, List.length_append,
          length_magic, length_encodeLE]
        omega
      · simp
    rw [hslice]
    exact leNat_encodeLE 4 (by decide)
  · rw [hdeclared]
    exact hsmall
  · rw [hdeclared]
    omega
  · rw [hdeclared, hfooter]
    exact slice_eq rfl rfl rfl
  · exact hhead
  · rw [hdeclared]
    rw [slice_eq (a := front ++ magic) (b := payload)
      (c := encodeLE 4 payload.length ++ (encodeLE 4 0 ++ magic))]
    · exact hdecoded
    · simp [withFooter]
    · simp only [length_withFooter, List.length_append, length_magic]
      omega
    · rfl
  · exact hcount
  · rw [hdeclared, hfooter]

/-- An accepted file ends in a readable footer. -/
theorem Accepts.eq_withFooter
    {r : PuffinReader}
    (h : Accepts json bytes r) :
    ∃ front payload,
      bytes = withFooter front payload ∧
      payload.length = declaredLen bytes ∧
      json.deserialize payload = .ok r.footer ∧
      r.blobDataEnd = front.length := by
  have hlong := h.long
  have hfits := h.fits
  have hdata := h.dataEnd
  have hpayload :
      (slice bytes (bytes.length - 12 - declaredLen bytes)
        (declaredLen bytes)).length = declaredLen bytes :=
    length_slice (by omega)
  have hflags :
      slice bytes (bytes.length - 8) 4 = encodeLE 4 0 := by
    have hround := encodeLE_leNat (slice bytes (bytes.length - 8) 4)
    rw [length_slice (by omega), h.flags] at hround
    exact hround.symm
  have hdeclared :
      slice bytes (bytes.length - 12) 4 =
        encodeLE 4 (declaredLen bytes) := by
    have hround := encodeLE_leNat (slice bytes (bytes.length - 12) 4)
    rw [length_slice (by omega)] at hround
    exact hround.symm
  refine
    ⟨bytes.take r.blobDataEnd, _, ?_, hpayload, h.decoded, ?_⟩
  · have htail :
        bytes.drop r.blobDataEnd =
          magic ++
            (slice bytes (bytes.length - 12 - declaredLen bytes)
                (declaredLen bytes) ++
              (encodeLE 4 (declaredLen bytes) ++
                (encodeLE 4 0 ++ magic))) := by
      rw [drop_eq_slice_append bytes r.blobDataEnd 4, hdata,
        h.footerHead]
      rw [drop_eq_slice_append bytes _ (declaredLen bytes)]
      rw [show bytes.length - 12 - declaredLen bytes - 4 + 4 =
        bytes.length - 12 - declaredLen bytes by omega]
      rw [drop_eq_slice_append bytes _ 4]
      rw [show bytes.length - 12 - declaredLen bytes +
        declaredLen bytes = bytes.length - 12 by omega, hdeclared]
      rw [drop_eq_slice_append bytes _ 4]
      rw [show bytes.length - 12 + 4 = bytes.length - 8 by omega,
        hflags]
      rw [drop_eq_slice_append bytes _ 4]
      rw [show bytes.length - 8 + 4 = bytes.length - 4 by omega,
        h.trailing]
      rw [List.drop_of_length_le (by omega), List.append_nil]
    unfold withFooter
    rw [hpayload, ← htail, List.take_append_drop]
  · rw [List.length_take]
    omega

/-- What acceptance says of a file whose footer is known. -/
theorem Accepts.of_withFooter
    {r : PuffinReader}
    (h : Accepts json (withFooter front payload) r)
    (hpayload : payload.length ≤ u32Max) :
    payload.length ≤ maxFooterLen ∧
      json.deserialize payload = .ok r.footer ∧
      r.blobDataEnd = front.length := by
  have hsmall := h.small
  have hdecoded := h.decoded
  have hdata := h.dataEnd
  rw [declaredLen_withFooter hpayload] at hsmall hdecoded hdata
  rw [slice_eq (a := front ++ magic) (b := payload)
    (c := encodeLE 4 payload.length ++ (encodeLE 4 0 ++ magic))]
    at hdecoded
  · refine ⟨hsmall, hdecoded, ?_⟩
    rw [hdata, length_withFooter]
    omega
  · simp [withFooter]
  · simp only [length_withFooter, List.length_append, length_magic]
    omega
  · rfl

end Trailer

/-- What `read_blob` returns when it returns a payload. -/
structure Readable
    (bytes : Bytes)
    (r : PuffinReader)
    (idx : Nat)
    (blob : BlobMetadata)
    (payload : Bytes) : Prop where
  listed : r.footer.blobs[idx]? = some blob
  small : blob.length.toNat ≤ maxBlobLen
  addressable : blob.offset.toNat + blob.length.toNat ≤ u64Max
  start : magic.length ≤ blob.offset.toNat
  finish : blob.offset.toNat + blob.length.toNat ≤ r.blobDataEnd
  payload_eq :
    payload = slice bytes blob.offset.toNat blob.length.toNat

/-- `read_blob` returns a payload exactly when its range check passes. -/
theorem stays_readBlob
    {r : PuffinReader}
    (hend : r.blobDataEnd ≤ bytes.length)
    (hs : Stays bytes maxBlobLen s)
    (idx : Nat) :
    Ends (r.readBlob idx) s
      (fun payload t =>
        Stays bytes maxBlobLen t ∧
          ∃ blob, Readable bytes r idx blob payload)
      (fun e t =>
        Stays bytes maxBlobLen t ∧
          (∃ message, e = .error (.invalidPuffin message)) ∧
          ∀ blob payload, ¬ Readable bytes r idx blob payload) := by
  unfold readBlob
  cases hblob : r.footer.blobs[idx]? with
  | none =>
      apply Ends.fail
      refine ⟨hs, ⟨_, rfl⟩, fun blob payload h => ?_⟩
      have hlisted := h.listed
      rw [hblob] at hlisted
      cases hlisted
  | some blob =>
      have hsame :
          ∀ {blob' payload}, Readable bytes r idx blob' payload →
            blob' = blob := by
        intro blob' payload h
        have hlisted := h.listed
        rw [hblob] at hlisted
        exact (Option.some.inj hlisted).symm
      refine Ends.refuseIf ?_ fun hsmall => ?_
      · intro hlarge
        refine ⟨hs, ⟨_, rfl⟩, fun blob' payload h => ?_⟩
        obtain rfl := hsame h
        exact absurd h.small (by omega)
      refine Ends.refuseIf ?_ fun haddressable => ?_
      · intro hoverflow
        refine ⟨hs, ⟨_, rfl⟩, fun blob' payload h => ?_⟩
        obtain rfl := hsame h
        exact absurd h.addressable (by omega)
      refine Ends.refuseIf ?_ fun hrange => ?_
      · intro houtside
        refine ⟨hs, ⟨_, rfl⟩, fun blob' payload h => ?_⟩
        obtain rfl := hsame h
        have hstart := h.start
        have hfinish := h.finish
        omega
      rw [not_or, Nat.not_lt, Nat.not_lt] at hrange
      refine Ends.bind (hs.seekStart (by omega)) ?_
      rintro _ s ⟨_, hposition, hs⟩
      refine Ends.bind (hs.buffer (by omega)) ?_
      rintro _ s' ⟨hkept, hs⟩
      rw [hposition] at hkept
      refine
        (hs.readExact (E := fun _ _ => False) (by omega)).mono ?_
          (fun _ _ h => h.elim)
      rintro payload t ⟨hpayload, ht⟩
      rw [hkept] at hpayload
      exact
        ⟨ht, blob,
          { listed := hblob
            small := by omega
            addressable := by omega
            start := hrange.1
            finish := hrange.2
            payload_eq := hpayload }⟩

theorem readBlob_spec
    {r : PuffinReader}
    (hend : r.blobDataEnd ≤ bytes.length)
    (idx position : Nat) :
    Ends (r.readBlob idx) ⟨bytes, position, []⟩
      (fun payload t =>
        Stays bytes maxBlobLen t ∧
          ∃ blob, Readable bytes r idx blob payload)
      (fun e t =>
        Stays bytes maxBlobLen t ∧
          (∃ message, e = .error (.invalidPuffin message)) ∧
          ∀ blob payload, ¬ Readable bytes r idx blob payload) :=
  stays_readBlob hend (Stays.fresh bytes position maxBlobLen) idx

theorem Readable.run
    {r : PuffinReader}
    {idx : Nat}
    {blob : BlobMetadata}
    {payload : Bytes}
    (h : Readable bytes r idx blob payload)
    (hend : r.blobDataEnd ≤ bytes.length)
    (position : Nat) :
    ∃ t, r.readBlob idx ⟨bytes, position, []⟩ = .ok payload t := by
  have hspec := readBlob_spec hend idx position
  cases hrun : r.readBlob idx ⟨bytes, position, []⟩ with
  | ok payload' t =>
      rw [ends_of_ok hrun] at hspec
      obtain ⟨_, blob', h'⟩ := hspec
      have hsame := h.listed.symm.trans h'.listed
      rw [Option.some.inj hsame] at h
      rw [h.payload_eq, ← h'.payload_eq]
      exact ⟨t, rfl⟩
  | error e t =>
      rw [ends_of_error hrun] at hspec
      exact absurd h (hspec.2.2 blob payload)

theorem run_of_not_readable
    {r : PuffinReader}
    {idx : Nat}
    (h : ∀ blob payload, ¬ Readable bytes r idx blob payload)
    (hend : r.blobDataEnd ≤ bytes.length)
    (position : Nat) :
    ∃ e t, r.readBlob idx ⟨bytes, position, []⟩ = .error e t := by
  have hspec := readBlob_spec hend idx position
  cases hrun : r.readBlob idx ⟨bytes, position, []⟩ with
  | ok payload t =>
      rw [ends_of_ok hrun] at hspec
      obtain ⟨_, blob, h'⟩ := hspec
      exact absurd h' (h blob payload)
  | error e t =>
      exact ⟨e, t, rfl⟩

/-- What `read_blob_decompressed` returns when it returns a payload. -/
structure Delivers
    (bytes : Bytes)
    (r : PuffinReader)
    (idx : Nat)
    (blob : BlobMetadata)
    (payload : Bytes) : Prop where
  readable : Readable bytes r idx blob payload
  codec :
    CompressionCodec.fromMeta blob.compressionCodec = .ok .none

theorem Delivers.unique
    {r : PuffinReader}
    {idx : Nat}
    {blob blob' : BlobMetadata}
    {payload payload' : Bytes}
    (h : Delivers bytes r idx blob payload)
    (h' : Delivers bytes r idx blob' payload') :
    payload = payload' := by
  have hsame := h.readable.listed.symm.trans h'.readable.listed
  rw [h.readable.payload_eq, h'.readable.payload_eq,
    Option.some.inj hsame]

theorem fromMeta_error
    {name : Option String}
    {e : PuffinError}
    (h : CompressionCodec.fromMeta name = .error e) :
    ∃ message, e = .invalidPuffin message := by
  cases name with
  | none =>
      cases h
  | some other =>
      simp only [CompressionCodec.fromMeta] at h
      split_ifs at h
      exact ⟨_, (Except.error.inj h).symm⟩

/-- Only a readable, uncompressed payload is returned. -/
theorem stays_readBlobDecompressed
    {r : PuffinReader}
    (hend : r.blobDataEnd ≤ bytes.length)
    (hs : Stays bytes maxBlobLen s)
    (idx : Nat) :
    Ends (r.readBlobDecompressed idx) s
      (fun payload t =>
        Stays bytes maxBlobLen t ∧
          ∃ blob, Delivers bytes r idx blob payload)
      (fun e t =>
        Stays bytes maxBlobLen t ∧
          (∃ message, e = .error (.invalidPuffin message)) ∧
          ∀ blob payload, ¬ Delivers bytes r idx blob payload) := by
  unfold readBlobDecompressed
  cases hblob : r.footer.blobs[idx]? with
  | none =>
      apply Ends.fail
      refine ⟨hs, ⟨_, rfl⟩, fun blob payload h => ?_⟩
      have hlisted := h.readable.listed
      rw [hblob] at hlisted
      cases hlisted
  | some blob =>
      have hsame :
          ∀ {blob' payload}, Delivers bytes r idx blob' payload →
            blob' = blob := by
        intro blob' payload h
        have hlisted := h.readable.listed
        rw [hblob] at hlisted
        exact (Option.some.inj hlisted).symm
      cases hcodec :
          CompressionCodec.fromMeta blob.compressionCodec with
      | error e =>
          simp only [hcodec]
          apply Ends.fail
          refine ⟨hs, ?_, fun blob' payload h => ?_⟩
          · obtain ⟨message, rfl⟩ := fromMeta_error hcodec
            exact ⟨message, rfl⟩
          · have hnone := h.codec
            rw [hsame h, hcodec] at hnone
            cases hnone
      | ok codec =>
          simp only [hcodec]
          refine Ends.bind
            ((stays_readBlob hend hs idx).mono (fun _ _ h => h) ?_) ?_
          · rintro e t ⟨ht, hinvalid, hnone⟩
            exact
              ⟨ht, hinvalid,
                fun blob payload h => hnone blob payload h.readable⟩
          · rintro raw t ⟨ht, blob', hread⟩
            cases codec with
            | none =>
                apply Ends.pure
                refine ⟨ht, blob', hread, ?_⟩
                have hlisted := hread.listed
                rw [hblob] at hlisted
                rw [← Option.some.inj hlisted]
                exact hcodec
            | zstd =>
                apply Ends.fail
                refine ⟨ht, ⟨_, rfl⟩, fun blob'' payload h => ?_⟩
                have hnone := h.codec
                rw [hsame h, hcodec] at hnone
                cases hnone

/-- A reader never takes a footer byte for blob data. -/
theorem Accepts.dataEnd_le
    {r : PuffinReader}
    (h : Accepts json bytes r) :
    r.blobDataEnd + 16 ≤ bytes.length := by
  have hfits := h.fits
  have hlong := h.long
  have hdata := h.dataEnd
  omega

/--
**The reader is total and stays in bounds** on every byte string, whatever the
JSON decoder makes of the footer: `open` and `read_blob` end with a value or
with an error of their own, every seek and read lies in the file, every buffer
below its cap, and a payload is exactly the bytes its metadata names, all of
them before the footer.
-/
theorem puffinReader_inBounds
    (json : FooterJson)
    (bytes : Bytes)
    (position : Nat) :
    Ends (PuffinReader.open json) ⟨bytes, position, []⟩
      (fun r t =>
        Stays bytes maxFooterLen t ∧
        r.blobDataEnd + 16 ≤ bytes.length ∧
        ∀ idx position,
          Ends (r.readBlob idx) ⟨bytes, position, []⟩
            (fun payload t =>
              Stays bytes maxBlobLen t ∧
              ∃ blob,
                r.footer.blobs[idx]? = some blob ∧
                payload =
                  slice bytes blob.offset.toNat blob.length.toNat ∧
                payload.length = blob.length.toNat ∧
                4 ≤ blob.offset.toNat ∧
                blob.offset.toNat + blob.length.toNat ≤
                  r.blobDataEnd)
            (fun e t =>
              Stays bytes maxBlobLen t ∧
              ∃ message, e = .error (.invalidPuffin message)))
      (fun e t =>
        Stays bytes maxFooterLen t ∧
        ∃ message, e = .error (.invalidPuffin message)) := by
  refine (open_spec json bytes position).mono ?_ ?_
  · rintro r t ⟨ht, haccepts⟩
    have hend := haccepts.dataEnd_le
    refine ⟨ht, hend, fun idx position => ?_⟩
    refine (readBlob_spec (by omega) idx position).mono ?_ ?_
    · rintro payload t ⟨ht, blob, hread⟩
      refine
        ⟨ht, blob, hread.listed, hread.payload_eq, ?_,
          hread.start, hread.finish⟩
      have hfinish := hread.finish
      rw [hread.payload_eq]
      exact length_slice (by omega)
    · rintro e t ⟨ht, hinvalid, _⟩
      exact ⟨ht, hinvalid⟩
  · rintro e t h
    exact ⟨h.stays, h.invalid⟩

/--
The layout of the module documentation: head magic, blob region, footer magic,
JSON payload, its length, zero flags, trailing magic.
-/
def DocumentedLayout
    (json : FooterJson)
    (bytes : Bytes)
    (r : PuffinReader) : Prop :=
  ∃ region payload,
    bytes =
      magic ++
        (region ++
          (magic ++
            (payload ++
              (encodeLE 4 payload.length ++
                (encodeLE 4 0 ++ magic))))) ∧
    json.deserialize payload = .ok r.footer ∧
    r.blobDataEnd = magic.length + region.length

/-- A file without a footer magic of its own: the head magic serves as one. -/
def SharedMagic (json : FooterJson) (bytes : Bytes) : Prop :=
  ∃ payload footer,
    bytes =
      magic ++
        (payload ++
          (encodeLE 4 payload.length ++ (encodeLE 4 0 ++ magic))) ∧
    4 ≤ payload.length ∧
    payload.length ≤ maxFooterLen ∧
    json.deserialize payload = .ok footer ∧
    footer.blobs.length ≤ maxBlobCount

/-- The magic does not overlap itself. -/
theorem length_of_magic_magic
    {rest : Bytes}
    {k : Nat}
    (hk : slice (magic ++ rest) k 4 = magic) :
    k = 0 ∨ 4 ≤ k := by
  by_contra hoverlap
  rw [not_or, Nat.not_le] at hoverlap
  obtain rfl | rfl | rfl : k = 1 ∨ k = 2 ∨ k = 3 := by
    omega
  all_goals simp [slice, magic] at hk

theorem eq_append_of_slice
    {bytes a : Bytes}
    (h : slice bytes 0 a.length = a) :
    bytes = a ++ bytes.drop a.length := by
  have hdrop := drop_eq_slice_append bytes 0 a.length
  rw [List.drop_zero, h, Nat.zero_add] at hdrop
  exact hdrop

/-- What lies before the footer is empty, or starts with the head magic. -/
theorem Accepts.front_cases
    {r : PuffinReader}
    (h : Accepts json bytes r) :
    r.blobDataEnd = 0 ∨ 4 ≤ r.blobDataEnd := by
  have hhead := h.head
  have hfooter := h.footerHead
  rw [← h.dataEnd] at hfooter
  have hsplit : bytes = magic ++ bytes.drop magic.length :=
    eq_append_of_slice hhead
  rw [hsplit] at hfooter
  exact length_of_magic_magic hfooter

/-- A reader with a blob region of its own has the documented layout. -/
theorem Accepts.documentedLayout
    {r : PuffinReader}
    (h : Accepts json bytes r)
    (hdata : 4 ≤ r.blobDataEnd) :
    DocumentedLayout json bytes r ∧
      20 + declaredLen bytes ≤ bytes.length := by
  obtain ⟨front, payload, hbytes, hlength, hdecoded, hfront⟩ :=
    h.eq_withFooter
  have hsplit : front = magic ++ front.drop magic.length := by
    apply eq_append_of_slice
    have hhead := h.head
    rw [hbytes, withFooter,
      slice_append_left (by omega)] at hhead
    exact hhead
  refine ⟨⟨front.drop magic.length, payload, ?_, hdecoded, ?_⟩, ?_⟩
  · rw [hbytes, withFooter]
    conv_lhs => rw [hsplit]
    rw [List.append_assoc]
  · rw [hfront, List.length_drop, length_magic]
    omega
  · have hsize := congrArg List.length hbytes
    rw [length_withFooter] at hsize
    omega

/-- An empty front is a file whose two magics are one. -/
theorem Accepts.sharedMagic
    {r : PuffinReader}
    (h : Accepts json bytes r)
    (hdata : r.blobDataEnd = 0) :
    SharedMagic json bytes := by
  obtain ⟨front, payload, hbytes, hlength, hdecoded, hfront⟩ :=
    h.eq_withFooter
  have hlong := h.long
  have hsmall := h.small
  have hempty : front = [] := by
    rw [← List.length_eq_zero_iff, ← hfront, hdata]
  rw [hempty] at hbytes
  refine
    ⟨payload, r.footer, hbytes, ?_, by omega, hdecoded, h.count⟩
  have hsize := congrArg List.length hbytes
  rw [length_withFooter, List.length_nil] at hsize
  omega

/-- Such a file is accepted, with no room for blob data. -/
theorem SharedMagic.accepts
    (h : SharedMagic json bytes) :
    ∃ r, Accepts json bytes r ∧ r.blobDataEnd = 0 := by
  obtain ⟨payload, footer, hbytes, hfour, hsmall, hdecoded, hcount⟩ :=
    h
  have hfront : bytes = withFooter [] payload := hbytes
  refine ⟨⟨footer, 0⟩, ?_, rfl⟩
  rw [hfront]
  have hlong : 20 ≤ (withFooter [] payload).length := by
    rw [length_withFooter, List.length_nil]
    omega
  exact
    accepts_withFooter hlong hsmall (slice_eq (a := []) rfl rfl rfl)
      hdecoded hcount

/-- What the module documentation promises of an accepted file. -/
def OpensDocumented
    (json : FooterJson)
    (bytes : Bytes)
    (position : Nat) : Prop :=
  Ends (PuffinReader.open json) ⟨bytes, position, []⟩
    (fun r _ =>
      DocumentedLayout json bytes r ∧
      20 + declaredLen bytes ≤ bytes.length ∧
      4 ≤ r.blobDataEnd)
    (fun _ _ => True)

/-- A file whose two magics are one is opened all the same. -/
theorem SharedMagic.not_opensDocumented
    (h : SharedMagic json bytes)
    (position : Nat) :
    ¬ OpensDocumented json bytes position := by
  intro hlayout
  obtain ⟨r, haccepts, hzero⟩ := h.accepts
  obtain ⟨t, hrun⟩ := haccepts.run position
  rw [OpensDocumented, ends_of_ok hrun] at hlayout
  have hfour := hlayout.2.2
  omega

/--
**An accepted file has the documented layout exactly when its footer has a
magic of its own.**
-/
theorem open_layout_iff
    (json : FooterJson)
    (bytes : Bytes)
    (position : Nat) :
    OpensDocumented json bytes position ↔ ¬ SharedMagic json bytes := by
  constructor
  · intro hlayout hshared
    exact hshared.not_opensDocumented position hlayout
  · intro hown
    refine (open_spec json bytes position).mono ?_ (fun _ _ _ => trivial)
    rintro r t ⟨_, haccepts⟩
    rcases haccepts.front_cases with hzero | hfour
    · exact absurd (haccepts.sharedMagic hzero) hown
    · obtain ⟨hlayout, hlength⟩ := haccepts.documentedLayout hfour
      exact ⟨hlayout, hlength, hfour⟩

/-- The smallest footer as `serde_json` writes it, `{"blobs":[]}`. -/
def emptyFooterBytes : Bytes :=
  [0x7b, 0x22, 0x62, 0x6c, 0x6f, 0x62, 0x73, 0x22, 0x3a, 0x5b, 0x5d,
    0x7d]

/-- A decoder that knows this footer only. -/
def emptyFooterJson : FooterJson where
  serialize _ := .error "not used"
  deserialize bytes :=
    if bytes = emptyFooterBytes then
      .ok { blobs := [], properties := ∅ }
    else
      .error "expected value"

/-- One magic, the footer, its length, the flags and the trailing magic. -/
def sharedMagicFile : Bytes :=
  magic ++ (emptyFooterBytes ++ [12, 0, 0, 0, 0, 0, 0, 0] ++ magic)

/-- These 28 bytes are opened, though they hold a single head magic. -/
theorem sharedMagicFile_opens :
    ¬ OpensDocumented emptyFooterJson sharedMagicFile 0 := by
  apply SharedMagic.not_opensDocumented
  refine
    ⟨emptyFooterBytes, { blobs := [], properties := ∅ }, ?_, ?_, ?_,
      ?_, ?_⟩
  · decide
  · decide
  · decide
  · simp [emptyFooterJson]
  · exact Nat.zero_le _

end PuffinReader

end Samkhya
