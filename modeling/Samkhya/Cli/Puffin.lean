import Mathlib
import Samkhya.Cli.Sketch
import Samkhya.Core.PuffinFooter
import Samkhya.Iceberg.Loader

/-!
# Packing and verifying sidecars

`samkhya puffin pack` checks payload files under the kinds that they are given
for and writes them into one sidecar; `samkhya puffin verify` reads every blob
of a sidecar and decodes those of known kinds.

What `verify` finds is a statement about the view of the file that the loader
has too (`verify_eq`).  A file that `pack` has written is accepted exactly when
it keeps to the caps of the reader (`packed_of_writeEntries`).
-/

namespace Samkhya

/-- The texts of `thiserror`. -/
def Error.display : Error → String
  | .serde message => "serialization error: " ++ message
  | .invalidSketch message => "invalid sketch payload: " ++ message
  | .feedback message => "feedback store error: " ++ message

namespace Cli

open FieldCodec ByteDevice Saturating PuffinWriter Loader

variable {π : Type}

/-- A checked payload, under the kind it was checked for. -/
structure Entry where
  kind : SketchKind
  bytes : Bytes
deriving DecidableEq

/-- The blob of an entry: it belongs to no field. -/
def Entry.blob (entry : Entry) : Blob where
  kind := entry.kind.kind
  fields := []
  payload := entry.bytes
  properties := ∅

def Entry.call (entry : Entry) : WriterCall :=
  .addBlob entry.blob

/-- The arguments of `samkhya puffin pack`. -/
structure PackCmd (π : Type) where
  out : π
  hll : List π
  bloom : List π
  cms : List π
  histogram : List π

section Commands

variable (host : Host π) (machine : Machine π) (disk : Disk π)

/-- Read the payloads of one kind and check each of them. -/
def validateNamed
    (kind : SketchKind)
    (entries : List Entry)
    (paths : List π) : Except PortableError (List Entry) :=
  paths.foldlM
    (fun entries path => do
      let bytes ← machine.read disk path
      match kind.fromBytes host bytes with
      | .error e =>
          .error
            (.puffin
              (.invalidPuffin
                (kind.kind ++ ": payload at " ++ host.display path ++
                  " failed to decode: " ++ e.display)))
      | .ok () => .ok (entries ++ [⟨kind, bytes⟩]))
    entries

/-- All payloads of a pack, in the order of the kinds. -/
def PackCmd.collect
    (cmd : PackCmd π) : Except PortableError (List Entry) := do
  let entries ← validateNamed host machine disk .hll [] cmd.hll
  let entries ← validateNamed host machine disk .bloom entries cmd.bloom
  let entries ← validateNamed host machine disk .cms entries cmd.cms
  validateNamed host machine disk .histogram entries cmd.histogram

/-- Add the entries and finish; the first error ends it. -/
def writeEntries (entries : List Entry) : WriteM Sink := do
  entries.forM fun entry => addBlob entry.blob
  finish host.json

/-- `samkhya puffin pack`. -/
def PackCmd.run
    [DecidableEq π]
    (cmd : PackCmd π) : Exit × Disk π :=
  if cmd.hll = [] ∧ cmd.bloom = [] ∧ cmd.cms = [] ∧
      cmd.histogram = [] then
    (.failure
      (.puffin
        (.invalidPuffin
          ("pack: no payload files provided (need at least one of " ++
            "--hll / --bloom / --cms / --histogram)"))),
      disk)
  else
    match cmd.collect host machine disk with
    | .error e => (.failure e, disk)
    | .ok entries =>
        if machine.creates cmd.out then
          match writeEntries host entries (new ⟨[], machine.faults⟩) with
          | .ok sink _ =>
              (.success, Function.update disk cmd.out sink.written)
          | .error e w =>
              (.failure (.puffin e),
                Function.update disk cmd.out w.inner.written)
        else
          (.failure (.puffin .io), disk)

/-- Decode a payload of a known kind. -/
def checkKnown (kind : String) (payload : Bytes) : Except Error Unit :=
  if kind = SketchKind.hll.kind then
    SketchKind.hll.fromBytes host payload
  else if kind = SketchKind.bloom.kind then
    SketchKind.bloom.fromBytes host payload
  else if kind = SketchKind.cms.kind then
    SketchKind.cms.fromBytes host payload
  else if kind = SketchKind.histogram.kind then
    SketchKind.histogram.fromBytes host payload
  else
    .ok ()

/-- What `verify` has against a blob. -/
inductive Fault
  | read (index : Nat) (kind : String) (e : Failure PuffinError)
  | decode (index : Nat) (kind : String) (e : Error)

/-- One round of the loop: faults are noted, only a panic ends it. -/
def verifyBlob
    (reader : PuffinReader)
    (faults : List Fault)
    (entry : BlobMetadata × Nat) : ReadM PuffinError (List Fault) :=
  fun s =>
    let (metadata, index) := entry
    match reader.readBlobDecompressed index s with
    | .ok payload t =>
        match checkKnown host metadata.kind payload with
        | .ok () => .ok faults t
        | .error e => .ok (faults ++ [.decode index metadata.kind e]) t
    | .error .underflow t => .error .underflow t
    | .error e t => .ok (faults ++ [.read index metadata.kind e]) t

/-- Open a sidecar and look at all of its blobs. -/
def verifySidecar : ReadM PuffinError (List Fault) := do
  let reader ← PuffinReader.open host.json
  reader.footer.blobs.zipIdx.foldlM (verifyBlob host reader) []

/-- The number of faults decides. -/
def exitOf (faults : Nat) : Exit :=
  if faults = 0 then
    .success
  else
    .failure
      (.puffin
        (.invalidPuffin
          (toString faults ++ " blob(s) failed validation")))

/-- `samkhya puffin verify`. -/
def verify (path : π) : Exit :=
  match machine.read disk path with
  | .error e => .failure e
  | .ok bytes =>
      match verifySidecar host ⟨bytes, 0, []⟩ with
      | .ok faults _ => exitOf faults.length
      | .error (.error e) _ => .failure (.puffin e)
      | .error .io _ => .failure (.puffin .io)
      | .error .underflow _ => .panic

end Commands

section Verify

variable
  {host : Host π}
  {machine : Machine π}
  {disk : Disk π}
  {bytes : Bytes}

/-- A blob whose payload is there and, if its kind is known, decodes. -/
def SoundBlob (host : Host π) (blob : SidecarBlob) : Prop :=
  ∃ payload,
    blob.payload = some payload ∧
      checkKnown host blob.kind payload = .ok ()

instance (host : Host π) : DecidablePred (SoundBlob host) := fun blob =>
  match hpayload : blob.payload with
  | none => isFalse (by rintro ⟨_, h, _⟩; cases hpayload.symm.trans h)
  | some payload =>
      match hcheck : checkKnown host blob.kind payload with
      | .ok () => isTrue ⟨payload, hpayload, hcheck⟩
      | .error e =>
          isFalse
            (by
              rintro ⟨found, hfound, h⟩
              obtain rfl := Option.some.inj (hpayload.symm.trans hfound)
              cases hcheck.symm.trans h)

/-- A round notes a fault exactly for a blob that is not sound. -/
theorem verifyBlob_spec
    {reader : PuffinReader}
    {s : Source}
    (hend : reader.blobDataEnd ≤ bytes.length)
    (hs : Stays bytes maxBlobLen s)
    (faults : List Fault)
    (entry : BlobMetadata × Nat) :
    Ends (verifyBlob host reader faults entry) s
      (fun out t =>
        Stays bytes maxBlobLen t ∧
          out.length =
            faults.length +
              if SoundBlob host (sidecarBlob bytes reader entry) then
                0
              else
                1)
      (fun _ _ => False) := by
  obtain ⟨metadata, index⟩ := entry
  have hspec := PuffinReader.stays_readBlobDecompressed hend hs index
  have hpayload := payload_sidecarBlob hend (metadata, index)
  cases hrun : reader.readBlobDecompressed index s with
  | ok payload t =>
      rw [ends_of_ok hrun] at hspec
      obtain ⟨ht, hdelivers⟩ := hspec
      have hthere := (hpayload payload).mpr hdelivers
      cases hcheck : checkKnown host metadata.kind payload with
      | ok u =>
          have hsound :
              SoundBlob host (sidecarBlob bytes reader (metadata, index)) :=
            ⟨payload, hthere, hcheck⟩
          have hround :
              verifyBlob host reader faults (metadata, index) s =
                .ok faults t := by
            simp only [verifyBlob, hrun, hcheck]
          rw [ends_of_ok hround, if_pos hsound]
          exact ⟨ht, rfl⟩
      | error e =>
          have hunsound :
              ¬ SoundBlob host
                (sidecarBlob bytes reader (metadata, index)) := by
            rintro ⟨found, hfound, h⟩
            obtain rfl := Option.some.inj (hthere.symm.trans hfound)
            cases hcheck.symm.trans h
          have hround :
              verifyBlob host reader faults (metadata, index) s =
                .ok (faults ++ [.decode index metadata.kind e]) t := by
            simp only [verifyBlob, hrun, hcheck]
          rw [ends_of_ok hround, if_neg hunsound]
          exact ⟨ht, List.length_append⟩
  | error e t =>
      rw [ends_of_error hrun] at hspec
      obtain ⟨ht, ⟨message, rfl⟩, hnone⟩ := hspec
      have hunsound :
          ¬ SoundBlob host
            (sidecarBlob bytes reader (metadata, index)) := by
        rintro ⟨found, hfound, _⟩
        obtain ⟨blob, hdelivers⟩ := (hpayload found).mp hfound
        exact hnone blob found hdelivers
      have hround :
          verifyBlob host reader faults (metadata, index) s =
            .ok
              (faults ++
                [.read index metadata.kind
                  (.error (.invalidPuffin message))]) t := by
        simp only [verifyBlob, hrun]
      rw [ends_of_ok hround, if_neg hunsound]
      exact ⟨ht, List.length_append⟩

/-- The loop notes as many faults as there are blobs that are not sound. -/
theorem foldlM_verifyBlob_spec
    {reader : PuffinReader}
    {s : Source}
    (hend : reader.blobDataEnd ≤ bytes.length)
    (hs : Stays bytes maxBlobLen s)
    (faults : List Fault)
    (entries : List (BlobMetadata × Nat)) :
    Ends (entries.foldlM (verifyBlob host reader) faults) s
      (fun out _ =>
        out.length =
          faults.length +
            (entries.map (sidecarBlob bytes reader)).countP
              fun blob => ¬ SoundBlob host blob)
      (fun _ _ => False) := by
  induction entries generalizing faults s with
  | nil =>
      refine Ends.pure ?_
      simp
  | cons entry entries ih =>
      rw [List.foldlM_cons]
      refine Ends.bind (verifyBlob_spec hend hs faults entry) ?_
      rintro out t ⟨ht, hout⟩
      refine (ih ht out).mono ?_ (fun _ _ h => h)
      intro final _ hfinal
      rw [hfinal, hout, List.map_cons, List.countP_cons]
      by_cases hsound : SoundBlob host (sidecarBlob bytes reader entry)
      · simp [hsound]
      · simp [hsound]
        omega

/-- The faults of a file are counted on its view. -/
theorem verifySidecar_spec
    (host : Host π)
    (bytes : Bytes) :
    Ends (verifySidecar host) ⟨bytes, 0, []⟩
      (fun faults _ =>
        ∃ view,
          sidecar host.json bytes = some view ∧
            faults.length =
              view.blobs.countP fun blob => ¬ SoundBlob host blob)
      (fun e _ =>
        (∃ message, e = .error (.invalidPuffin message)) ∧
          sidecar host.json bytes = none) := by
  have hspec := PuffinReader.open_spec host.json bytes 0
  unfold verifySidecar sidecar
  cases hopen : PuffinReader.open host.json ⟨bytes, 0, []⟩ with
  | error e t =>
      rw [ends_of_error hopen] at hspec
      refine
        Ends.bind (R := fun _ _ => False)
          ((ends_of_error hopen).mpr ⟨hspec.invalid, rfl⟩) ?_
      intro r t h
      exact h.elim
  | ok reader t =>
      rw [ends_of_ok hopen] at hspec
      obtain ⟨ht, haccepts⟩ := hspec
      have hend : reader.blobDataEnd ≤ bytes.length :=
        (Nat.le_add_right _ 16).trans haccepts.dataEnd_le
      refine
        Ends.bind (R := fun r s => r = reader ∧ s = t)
          ((ends_of_ok hopen).mpr ⟨rfl, rfl⟩) ?_
      rintro _ _ ⟨rfl, rfl⟩
      refine
        (foldlM_verifyBlob_spec hend (ht.mono (by decide)) []
          _).mono ?_ (fun _ _ h => h.elim)
      intro faults _ hlength
      exact ⟨_, rfl, by simpa using hlength⟩

/--
What `verify` says of a file: nothing but an error if it cannot be opened as a
sidecar, else the number of blobs that are not sound.
-/
theorem verify_eq
    {path : π}
    (hread : machine.read disk path = .ok bytes) :
    match sidecar host.json bytes with
    | none => ∃ e, verify host machine disk path = .failure e
    | some view =>
        verify host machine disk path =
          exitOf
            (view.blobs.countP fun blob => ¬ SoundBlob host blob) := by
  have hspec := verifySidecar_spec host bytes
  cases hrun : verifySidecar host ⟨bytes, 0, []⟩ with
  | error e t =>
      rw [ends_of_error hrun] at hspec
      obtain ⟨⟨message, rfl⟩, hview⟩ := hspec
      rw [hview]
      exact
        ⟨.puffin (.invalidPuffin message),
          by simp only [verify, hread, hrun]⟩
  | ok faults t =>
      rw [ends_of_ok hrun] at hspec
      obtain ⟨view, hview, hlength⟩ := hspec
      rw [hview]
      simp only [verify, hread, hrun, hlength]

/-- A file that `verify` accepts. -/
def Verified (host : Host π) (bytes : Bytes) : Prop :=
  ∃ view,
    sidecar host.json bytes = some view ∧
      ∀ blob ∈ view.blobs, SoundBlob host blob

theorem exitOf_eq_success_iff
    {faults : Nat} :
    exitOf faults = .success ↔ faults = 0 := by
  unfold exitOf
  split_ifs with h <;> simp [h]

theorem verify_eq_success_iff
    {path : π}
    (hread : machine.read disk path = .ok bytes) :
    verify host machine disk path = .success ↔
      Verified host bytes := by
  have heq := @verify_eq π host machine disk bytes path hread
  unfold Verified
  cases hview : sidecar host.json bytes with
  | none =>
      rw [hview] at heq
      obtain ⟨e, he⟩ := heq
      simp [he]
  | some view =>
      rw [hview] at heq
      rw [heq, exitOf_eq_success_iff, List.countP_eq_zero]
      simp

end Verify

section Pack

variable
  {host : Host π}
  {entries : List Entry}
  {faults : List (Option Nat)}
  {w t : PuffinWriter}

theorem checkKnown_kind
    (host : Host π)
    (kind : SketchKind)
    (payload : Bytes) :
    checkKnown host kind.kind payload = kind.fromBytes host payload := by
  have hne :
      SketchKind.bloom.kind ≠ SketchKind.hll.kind ∧
        SketchKind.cms.kind ≠ SketchKind.hll.kind ∧
        SketchKind.cms.kind ≠ SketchKind.bloom.kind ∧
        SketchKind.histogram.kind ≠ SketchKind.hll.kind ∧
        SketchKind.histogram.kind ≠ SketchKind.bloom.kind ∧
        SketchKind.histogram.kind ≠ SketchKind.cms.kind := by
    decide
  obtain ⟨hbloom, hcms, hcms', hhist, hhist', hhist''⟩ := hne
  unfold checkKnown
  cases kind with
  | hll => rw [if_pos rfl]
  | bloom => rw [if_neg hbloom, if_pos rfl]
  | cms => rw [if_neg hcms, if_neg hcms', if_pos rfl]
  | histogram =>
      rw [if_neg hhist, if_neg hhist', if_neg hhist'', if_pos rfl]

/-- Adding all entries is a run whose calls all return. -/
theorem forM_addBlob_eq_ok_iff :
    (entries.forM fun entry => addBlob entry.blob) w = .ok () t ↔
      ∃ steps,
        runCalls w (entries.map Entry.call) = (steps, t) ∧
          ∀ step ∈ steps, step.ok = true := by
  induction entries generalizing w with
  | nil =>
      constructor
      · intro h
        obtain ⟨_, rfl⟩ := EStateM.Result.ok.inj h
        exact ⟨[], rfl, by simp⟩
      · rintro ⟨steps, hrun, _⟩
        obtain ⟨_, rfl⟩ := Prod.mk.inj hrun
        rfl
  | cons entry entries ih =>
      have hforM :
          ((entry :: entries).forM fun entry => addBlob entry.blob) w =
            EStateM.bind (addBlob entry.blob)
              (fun _ => entries.forM fun entry => addBlob entry.blob)
              w :=
        rfl
      have hcall : entry.call.run w = addBlob entry.blob w := rfl
      rw [hforM, EStateM.bind, List.map_cons, runCalls, hcall]
      cases addBlob entry.blob w with
      | ok _ u =>
          simp only [ih]
          constructor
          · rintro ⟨steps, hrun, hok⟩
            rw [hrun]
            exact ⟨_, rfl, by simpa using hok⟩
          · rintro ⟨steps, hrun, hok⟩
            obtain ⟨hsteps, ht⟩ := Prod.mk.inj hrun
            refine ⟨_, Prod.ext rfl ht, fun step hstep => hok step ?_⟩
            rw [← hsteps]
            exact List.mem_cons_of_mem _ hstep
      | error e u =>
          constructor
          · intro h
            cases h
          · rintro ⟨steps, hrun, hok⟩
            obtain ⟨hsteps, _⟩ := Prod.mk.inj hrun
            have hfirst :=
              hok ⟨w, entry.call, false⟩
                (by rw [← hsteps]; exact List.mem_cons_self)
            cases hfirst

/-- What the reader takes: a number of blobs, and their lengths. -/
structure WithinCaps (host : Host π) (entries : List Entry) : Prop where
  count : entries.length ≤ maxBlobCount
  footer :
    ∃ text,
      host.json.serialize (fileFooter [] (entries.map Entry.call)) =
          .ok text ∧
        text.length ≤ maxFooterLen
  payload : ∀ entry ∈ entries, entry.bytes.length ≤ maxBlobLen

theorem WithinCaps.calls
    (h : WithinCaps host entries) :
    ∀ call ∈ entries.map Entry.call,
      call.blob.payload.length ≤ maxBlobLen := by
  intro call hcall
  obtain ⟨entry, hentry, rfl⟩ := List.mem_map.mp hcall
  exact h.payload entry hentry

/-- The blob of an entry as its reader sees it. -/
def Entry.view (entry : Entry) : SidecarBlob :=
  callView entry.call

/-- What a file is that was packed of checked entries. -/
structure Packed
    (host : Host π)
    (entries : List Entry)
    (bytes : Bytes) : Prop where
  decodes :
    ∀ entry ∈ entries, entry.kind.fromBytes host entry.bytes = .ok ()
  verified : Verified host bytes ↔ WithinCaps host entries
  blobs :
    WithinCaps host entries →
      ∃ view,
        sidecar host.json bytes = some view ∧
          view.blobs = entries.map Entry.view

/-- A verified file can be read. -/
theorem Verified.readsAll
    {bytes : Bytes}
    (h : Verified host bytes) :
    ReadsAll host.json bytes 0 := by
  obtain ⟨view, hview, hsound⟩ := h
  have hspec := PuffinReader.open_spec host.json bytes 0
  unfold sidecar at hview
  cases hopen : PuffinReader.open host.json ⟨bytes, 0, []⟩ with
  | error e t =>
      rw [hopen] at hview
      cases hview
  | ok r t =>
      rw [hopen] at hview
      rw [ends_of_ok hopen] at hspec
      obtain rfl := Option.some.inj hview
      have hend : r.blobDataEnd ≤ bytes.length :=
        (Nat.le_add_right _ 16).trans hspec.2.dataEnd_le
      rw [ReadsAll, ends_of_ok hopen]
      intro i hi position
      have hlisted := List.getElem?_eq_getElem hi
      obtain ⟨payload, hpayload, _⟩ :=
        hsound (sidecarBlob bytes r (r.footer.blobs[i], i))
          (List.mem_map_of_mem
            (List.mem_zipIdx_iff_getElem?.mpr hlisted))
      obtain ⟨blob, hdelivers⟩ :=
        (payload_sidecarBlob hend _ _).mp hpayload
      obtain ⟨u, hread⟩ := hdelivers.readable.run hend position
      rw [ends_of_ok hread]
      trivial

/-- A file that was packed, whatever its disk does besides. -/
theorem packed_of_writeEntries
    {sink : Sink}
    (hdecodes :
      ∀ entry ∈ entries, entry.kind.fromBytes host entry.bytes = .ok ())
    (h : writeEntries host entries (new ⟨[], faults⟩) = .ok sink t) :
    Packed host entries sink.written := by
  unfold writeEntries at h
  change EStateM.bind _ _ _ = _ at h
  rw [EStateM.bind] at h
  cases hadd :
      (entries.forM fun entry => addBlob entry.blob)
        (new ⟨[], faults⟩) with
  | error e u =>
      rw [hadd] at h
      cases h
  | ok _ u =>
      rw [hadd] at h
      obtain ⟨steps, hrun, hok⟩ := forM_addBlob_eq_ok_iff.mp hadd
      have hstart := Tracks.start faults []
      have htracks : u.Tracks steps := hstart.of_run hrun
      obtain ⟨hsynced, hblobs, hproperties⟩ :=
        (Synced.start faults []).of_run hstart hrun hok
      have hfooter :
          u.footer = fileFooter [] (entries.map Entry.call) := by
        rw [PuffinWriter.footer, hblobs, hproperties, start_eq]
        rfl
      have hfinished := finish_spec host.json u
      rw [ends_of_ok h] at hfinished
      obtain ⟨text, hfinished⟩ := hfinished
      have hserialized := hfinished.serialized
      rw [hfooter] at hserialized
      have hreads :
          ReadsAll host.json sink.written 0 → WithinCaps host entries := by
        rw [readsAll_iff host.json_roundTrips htracks hok hsynced
          hfinished 0]
        rintro ⟨hcount, hfooter, hsmall⟩
        have hcalls := map_call_runCalls hrun
        have hlength := congrArg List.length hcalls
        rw [List.length_map, List.length_map] at hlength
        refine
          ⟨hlength ▸ hcount, ⟨text, hserialized, hfooter⟩,
            fun entry hentry => ?_⟩
        have hmem := List.mem_map_of_mem (f := Entry.call) hentry
        rw [← hcalls] at hmem
        obtain ⟨step, hstep, hcall⟩ := List.mem_map.mp hmem
        have hpayload := hsmall step hstep
        rw [hcall] at hpayload
        exact hpayload
      have hblobs :
          WithinCaps host entries →
            ∃ view,
              sidecar host.json sink.written = some view ∧
                view.blobs = entries.map Entry.view := by
        intro hcaps
        have hwritten := hfinished.written
        rw [(hsynced.headed hfinished.head).1] at hwritten
        obtain ⟨text', hserialized', hlength⟩ := hcaps.footer
        obtain rfl :=
          Except.ok.inj (hserialized.symm.trans hserialized')
        obtain ⟨r, v, hopen, hfaithful⟩ :=
          open_of_deserialize (by simpa using hcaps.count) hcaps.calls
            (host.json_roundTrips _ _ hserialized) hlength 0
        rw [hwritten]
        refine ⟨_, sidecar_of_faithful hopen hfaithful, ?_⟩
        rw [List.map_map]
        rfl
      refine ⟨hdecodes, ⟨fun h => hreads h.readsAll, ?_⟩, hblobs⟩
      intro hcaps
      obtain ⟨view, hview, hentries⟩ := hblobs hcaps
      refine ⟨view, hview, fun blob hblob => ?_⟩
      rw [hentries] at hblob
      obtain ⟨entry, hentry, rfl⟩ := List.mem_map.mp hblob
      exact
        ⟨entry.bytes, rfl,
          (checkKnown_kind host entry.kind _).trans
            (hdecodes entry hentry)⟩

/-- Entries within the caps are written to a disk that takes everything. -/
theorem exists_writeEntries
    (hcaps : WithinCaps host entries) :
    ∃ sink t, writeEntries host entries (new ⟨[], []⟩) = .ok sink t := by
  have htotal :
      (payloads (entries.map Entry.call)).length ≤
        maxBlobCount * maxBlobLen := by
    refine
      (length_payloads_le hcaps.calls).trans (Nat.mul_le_mul_right _ ?_)
    rw [List.length_map]
    exact hcaps.count
  have hroom :
      maxBlobCount * maxBlobLen + maxFooterLen + 20 ≤ capacity := by
    decide
  have hfront :
      (magic ++ payloads (entries.map Entry.call)).length =
        4 + (payloads (entries.map Entry.call)).length :=
    List.length_append
  obtain ⟨text, hserialized, hfooter⟩ := hcaps.footer
  obtain ⟨steps, u, sink, t, hrun, hok, hfinish, _⟩ :=
    @exists_run_of_room host.json [] (entries.map Entry.call)
      text hserialized (hfooter.trans (by decide))
      (by rw [PuffinReader.length_withFooter]; omega)
  have hadd := forM_addBlob_eq_ok_iff.mpr ⟨steps, hrun, hok⟩
  refine ⟨sink, t, ?_⟩
  unfold writeEntries
  change EStateM.bind _ _ _ = _
  have hnew : new ⟨[], []⟩ = start Sink.fresh [] := rfl
  rw [EStateM.bind, hnew, hadd]
  exact hfinish

end Pack

section Collect

variable
  {host : Host π}
  {machine : Machine π}
  {disk : Disk π}
  {entries final : List Entry}

/-- Everything that is collected decodes under its kind. -/
theorem decodes_of_validateNamed
    {kind : SketchKind}
    {paths : List π}
    (h : validateNamed host machine disk kind entries paths = .ok final)
    (hentries :
      ∀ entry ∈ entries,
        entry.kind.fromBytes host entry.bytes = .ok ()) :
    ∀ entry ∈ final,
      entry.kind.fromBytes host entry.bytes = .ok () := by
  refine
    Loops.of_foldlM_eq_ok
      (P := fun entries =>
        ∀ entry ∈ entries,
          entry.kind.fromBytes host entry.bytes = .ok ())
      ?_ hentries h
  intro path _ s s' hs hround
  obtain ⟨bytes, _, hcheck⟩ := except_bind_eq_ok hround
  cases hdecode : kind.fromBytes host bytes with
  | error e =>
      rw [hdecode] at hcheck
      cases hcheck
  | ok u =>
      rw [hdecode] at hcheck
      obtain rfl := Except.ok.inj hcheck
      intro entry hentry
      rcases List.mem_append.mp hentry with hold | hnew
      · exact hs entry hold
      · rw [List.mem_singleton.mp hnew]
        exact hdecode

theorem PackCmd.decodes_of_collect
    {cmd : PackCmd π}
    (h : cmd.collect host machine disk = .ok final) :
    ∀ entry ∈ final,
      entry.kind.fromBytes host entry.bytes = .ok () := by
  obtain ⟨hll, hhll, h⟩ := except_bind_eq_ok h
  obtain ⟨bloom, hbloom, h⟩ := except_bind_eq_ok h
  obtain ⟨cms, hcms, h⟩ := except_bind_eq_ok h
  exact
    decodes_of_validateNamed h
      (decodes_of_validateNamed hcms
        (decodes_of_validateNamed hbloom
          (decodes_of_validateNamed hhll (by simp))))

/-- A file that can be read and holds a payload of the kind. -/
def Holds
    (host : Host π)
    (machine : Machine π)
    (disk : Disk π)
    (kind : SketchKind)
    (path : π) : Prop :=
  ∃ bytes,
    machine.read disk path = .ok bytes ∧
      kind.fromBytes host bytes = .ok ()

/-- The entry that a path of a kind gives. -/
def Gives
    (machine : Machine π)
    (disk : Disk π)
    (source : SketchKind × π)
    (entry : Entry) : Prop :=
  entry.kind = source.1 ∧
    machine.read disk source.2 = .ok entry.bytes

/-- Payloads of the kind are collected one after the other. -/
theorem exists_validateNamed
    {kind : SketchKind}
    {paths : List π}
    (h : ∀ path ∈ paths, Holds host machine disk kind path)
    (entries : List Entry) :
    ∃ new,
      validateNamed host machine disk kind entries paths =
          .ok (entries ++ new) ∧
        List.Forall₂ (Gives machine disk) (paths.map (kind, ·)) new := by
  induction paths generalizing entries with
  | nil => exact ⟨[], by rw [List.append_nil]; rfl, .nil⟩
  | cons path paths ih =>
      obtain ⟨bytes, hread, hdecode⟩ := h path List.mem_cons_self
      obtain ⟨new, hrest, hnew⟩ :=
        ih (fun p hp => h p (List.mem_cons_of_mem _ hp))
          (entries ++ [⟨kind, bytes⟩])
      refine ⟨⟨kind, bytes⟩ :: new, ?_, .cons ⟨rfl, hread⟩ hnew⟩
      unfold validateNamed at hrest ⊢
      rw [List.foldlM_cons, hread]
      change
        (match kind.fromBytes host bytes with
          | .error e => _
          | .ok () => _) >>= _ = _
      rw [hdecode]
      change List.foldlM _ _ paths = _
      rw [hrest, List.append_assoc]
      rfl

/-- The paths of a pack in the order in which they are read. -/
def PackCmd.sources (cmd : PackCmd π) : List (SketchKind × π) :=
  cmd.hll.map (.hll, ·) ++ cmd.bloom.map (.bloom, ·) ++
    cmd.cms.map (.cms, ·) ++ cmd.histogram.map (.histogram, ·)

/-- Payloads of the right kinds are collected. -/
theorem PackCmd.exists_collect
    {cmd : PackCmd π}
    (h :
      ∀ source ∈ cmd.sources,
        Holds host machine disk source.1 source.2) :
    ∃ entries,
      cmd.collect host machine disk = .ok entries ∧
        List.Forall₂ (Gives machine disk) cmd.sources entries := by
  have hkind :
      ∀ (kind : SketchKind) (paths : List π),
        paths.map (kind, ·) ⊆ cmd.sources →
          ∀ path ∈ paths, Holds host machine disk kind path :=
    fun kind paths hsub path hpath =>
      h (kind, path) (hsub (List.mem_map_of_mem hpath))
  obtain ⟨hll, hhll, hhll'⟩ :=
    exists_validateNamed
      (hkind .hll cmd.hll fun _ hmem => by simp [sources, hmem]) []
  obtain ⟨bloom, hbloom, hbloom'⟩ :=
    exists_validateNamed
      (hkind .bloom cmd.bloom fun _ hmem => by simp [sources, hmem])
      ([] ++ hll)
  obtain ⟨cms, hcms, hcms'⟩ :=
    exists_validateNamed
      (hkind .cms cmd.cms fun _ hmem => by simp [sources, hmem])
      ([] ++ hll ++ bloom)
  obtain ⟨histogram, hhistogram, hhistogram'⟩ :=
    exists_validateNamed
      (hkind .histogram cmd.histogram
        fun _ hmem => by simp [sources, hmem])
      ([] ++ hll ++ bloom ++ cms)
  refine ⟨[] ++ hll ++ bloom ++ cms ++ histogram, ?_, ?_⟩
  · unfold collect
    rw [hhll]
    change validateNamed _ _ _ _ _ _ >>= _ = _
    rw [hbloom]
    change validateNamed _ _ _ _ _ _ >>= _ = _
    rw [hcms]
    exact hhistogram
  · rw [List.nil_append]
    exact
      List.rel_append
        (List.rel_append (List.rel_append hhll' hbloom') hcms')
        hhistogram'

end Collect

end Cli
end Samkhya
