import Mathlib
import Samkhya.Core.PuffinWriter

/-!
# Writing a Puffin file and reading it back

Without failures a file is the head magic, the payloads in order and the
footer, and the reader gives back what was written.  Nothing in the writer
keeps to the caps of the reader: a finished file is readable exactly when they
happen to hold.
-/

namespace Samkhya

open FieldCodec ByteDevice Saturating PuffinReader

namespace PuffinWriter

/-- Metadata of consecutive payloads from an offset on. -/
def layOut : Nat → List WriterCall → List BlobMetadata
  | _, [] => []
  | offset, call :: calls =>
      call.metadata (UInt64.ofNat offset) ::
        layOut (offset + call.blob.payload.length) calls

/-- The payloads one after the other. -/
def payloads (calls : List WriterCall) : Bytes :=
  calls.flatMap (fun call => call.blob.payload)

/-- The footer of a file written without failures. -/
def fileFooter
    (properties : List (String × String))
    (calls : List WriterCall) : FooterPayload where
  blobs := layOut magic.length calls
  properties := (start Sink.fresh properties).properties

/-- The sink holds exactly `front`, up to a head that is still to come. -/
def Synced (w : PuffinWriter) (front : Bytes) : Prop :=
  (w.wroteHead = true ∧ w.inner.written = front ∧
      w.pos.toNat = front.length) ∨
    (w.wroteHead = false ∧ w.inner.written = [] ∧ w.pos = 0 ∧
      front = magic)

section Undisturbed

variable
  {w t : PuffinWriter}
  {front : Bytes}
  {steps : List WriterStep}

theorem Synced.headed
    (h : w.Synced front)
    (hready : w.HeadReady) :
    w.headed.inner.written = front ∧
      w.headed.pos.toNat = front.length := by
  rcases h with ⟨hhead, hwritten, hpos⟩ |
    ⟨hhead, hwritten, hpos, rfl⟩
  · rw [PuffinWriter.headed, if_pos hhead]
    exact ⟨hwritten, hpos⟩
  · have haccepts := hready.accepts hhead
    rw [PuffinWriter.headed, if_neg (by simp [hhead])]
    simp only [Sink.append_written haccepts, hwritten, hpos]
    exact ⟨rfl, rfl⟩

/-- A successful call appends its payload and records where. -/
theorem Synced.added
    {call : WriterCall}
    (h : w.Synced front)
    (htracks : w.Tracks steps)
    (hadded : w.Added call t) :
    t.Synced (front ++ call.blob.payload) ∧
      t.blobs =
        w.blobs ++ [call.metadata (UInt64.ofNat front.length)] ∧
      t.properties = w.properties := by
  obtain ⟨hwritten, hpos⟩ := h.headed hadded.head
  have hheaded := htracks.headed_of_ready hadded.head
  have hfits :=
    Sink.add_le_of_accepts hheaded.bounded hadded.fits
  have hoffset : w.headed.pos = UInt64.ofNat front.length := by
    rw [← hpos, UInt64.ofNat_toNat]
  have hmove :
      (w.headed.pos +
          UInt64.ofNat call.blob.payload.length).toNat =
        w.headed.pos.toNat + call.blob.payload.length := by
    apply toNat_pos_add
    rw [hpos, ← hwritten]
    exact hfits
  rw [hadded.eq, ← hoffset]
  refine ⟨Or.inl ⟨w.headed_wroteHead, ?_, ?_⟩, rfl, ?_⟩
  · simp only [wrote, Sink.append_written hadded.fits, hwritten]
  · simp only [hmove, hpos, List.length_append]
  · exact w.headed_properties

/-- The calls of a run, whatever became of them. -/
theorem map_call_runCalls
    {calls : List WriterCall}
    (hrun : runCalls w calls = (steps, t)) :
    steps.map WriterStep.call = calls := by
  induction calls generalizing w steps with
  | nil =>
      obtain ⟨rfl, rfl⟩ := Prod.mk.inj hrun
      rfl
  | cons call calls ih =>
      obtain ⟨ok, u, rest, rfl, hrest, _⟩ := runCalls_cons hrun
      rw [List.map_cons, ih hrest]

/-- A run without failures appends its payloads. -/
theorem Synced.of_run
    {calls : List WriterCall}
    {done : List WriterStep}
    (h : w.Synced front)
    (htracks : w.Tracks done)
    (hrun : runCalls w calls = (steps, t))
    (hok : ∀ step ∈ steps, step.ok = true) :
    t.Synced (front ++ payloads calls) ∧
      t.blobs = w.blobs ++ layOut front.length calls ∧
      t.properties = w.properties := by
  induction calls generalizing w front done steps with
  | nil =>
      obtain ⟨rfl, rfl⟩ := Prod.mk.inj hrun
      simpa [payloads, layOut] using h
  | cons call calls ih =>
      obtain ⟨ok, u, rest, rfl, hrest, hstep⟩ := runCalls_cons hrun
      obtain rfl : ok = true := hok _ List.mem_cons_self
      have hadded : w.Added call u := hstep
      obtain ⟨hu, hblobs, hproperties⟩ := h.added htracks hadded
      obtain ⟨ht, hall, hkept⟩ :=
        ih hu (htracks.added hadded) hrest
          (fun step hstep => hok step (List.mem_cons_of_mem _ hstep))
      refine ⟨?_, ?_, hkept.trans hproperties⟩
      · rw [payloads, List.flatMap_cons, ← List.append_assoc]
        exact ht
      · rw [hall, hblobs, List.length_append, List.append_assoc]
        rfl

theorem okSteps_eq
    (hok : ∀ step ∈ steps, step.ok = true) :
    okSteps steps = steps :=
  List.filter_eq_self.mpr hok

/-- A fresh writer is in step with a file that holds the head only. -/
theorem Synced.start
    (faults : List (Option Nat))
    (properties : List (String × String)) :
    (start ⟨[], faults⟩ properties).Synced magic := by
  rw [start_eq]
  exact Or.inr ⟨rfl, rfl, rfl, rfl⟩

end Undisturbed

/-- A writer in step with its sink, and nothing that stops it. -/
structure Unhindered (w : PuffinWriter) (front : Bytes) : Prop where
  synced : w.Synced front
  faults : w.inner.faults = []
  bounded : front.length ≤ capacity

section Unhindered

variable {w : PuffinWriter} {front : Bytes}

theorem Unhindered.headReady
    (h : w.Unhindered front) :
    w.HeadReady := by
  rcases h.synced with ⟨hhead, _⟩ | ⟨_, hempty, _⟩
  · exact Or.inl hhead
  · right
    apply Sink.accepts_of_fits h.faults
    rw [hempty]
    decide

/-- A call with room for its payload succeeds. -/
theorem Unhindered.run
    {call : WriterCall}
    {steps : List WriterStep}
    (h : w.Unhindered front)
    (htracks : w.Tracks steps)
    (hroom :
      (front ++ call.blob.payload).length ≤ capacity) :
    ∃ t, call.run w = .ok () t ∧ w.Added call t ∧
      t.Unhindered (front ++ call.blob.payload) := by
  have haccepts :
      w.headed.inner.accepts call.blob.payload.length = true := by
    apply Sink.accepts_of_fits (headed_faults h.faults)
    rw [(h.synced.headed h.headReady).1, ← List.length_append]
    exact hroom
  have hspec := run_spec w call
  cases hrun : call.run w with
  | ok _ t =>
      rw [ends_of_ok hrun] at hspec
      refine ⟨t, rfl, hspec, (h.synced.added htracks hspec).1, ?_, hroom⟩
      rw [hspec.eq]
      simp [wrote, Sink.append, headed_faults h.faults]
  | error e t =>
      rw [ends_of_error hrun] at hspec
      rcases hspec with ⟨hnot, _⟩ | ⟨_, hrefused, _⟩
      · exact absurd h.headReady hnot
      · rw [haccepts] at hrefused
        cases hrefused

/-- All calls with room for their payloads succeed. -/
theorem Unhindered.runCalls
    {calls : List WriterCall}
    {done : List WriterStep}
    (h : w.Unhindered front)
    (htracks : w.Tracks done)
    (hroom : (front ++ payloads calls).length ≤ capacity) :
    ∃ steps t, PuffinWriter.runCalls w calls = (steps, t) ∧
      (∀ step ∈ steps, step.ok = true) ∧
      t.Unhindered (front ++ payloads calls) := by
  induction calls generalizing w front done with
  | nil =>
      refine ⟨[], w, rfl, by simp, ?_⟩
      rw [payloads, List.flatMap_nil, List.append_nil]
      exact h
  | cons call calls ih =>
      rw [payloads, List.flatMap_cons, ← List.append_assoc] at hroom ⊢
      have hfirst :
          (front ++ call.blob.payload).length ≤ capacity := by
        rw [List.length_append] at hroom
        omega
      obtain ⟨u, hrun, hadded, hu⟩ := h.run htracks hfirst
      obtain ⟨steps, t, hrest, hok, ht⟩ :=
        ih hu (htracks.added hadded) hroom
      refine ⟨⟨w, call, true⟩ :: steps, t, ?_, ?_, ht⟩
      · rw [PuffinWriter.runCalls, hrun]
        simp only [hrest]
      · intro step hstep
        rcases List.mem_cons.mp hstep with rfl | hstep
        · rfl
        · exact hok step hstep

theorem Unhindered.start
    (properties : List (String × String)) :
    (start Sink.fresh properties).Unhindered magic where
  synced := Synced.start [] properties
  faults := by
    rw [start_eq]
    rfl
  bounded := by
    decide

end Unhindered

section Layout

@[simp] theorem length_layOut
    (offset : Nat)
    (calls : List WriterCall) :
    (layOut offset calls).length = calls.length := by
  induction calls generalizing offset with
  | nil =>
      rfl
  | cons call calls ih =>
      rw [layOut, List.length_cons, List.length_cons, ih]

/-- Metadata by its index: the offset is behind the payloads before it. -/
theorem getElem?_layOut
    {calls : List WriterCall}
    {i : Nat}
    {call : WriterCall}
    (offset : Nat)
    (h : calls[i]? = some call) :
    (layOut offset calls)[i]? =
      some
        (call.metadata
          (UInt64.ofNat
            (offset + (payloads (calls.take i)).length))) := by
  induction calls generalizing offset i with
  | nil =>
      cases h
  | cons first calls ih =>
      cases i with
      | zero =>
          obtain rfl : first = call := by
            simpa using h
          rfl
      | succ i =>
          have hrest : calls[i]? = some call := by
            simpa using h
          rw [layOut, List.getElem?_cons_succ, ih _ hrest]
          simp [payloads, Nat.add_assoc]

/-- Where a payload sits among the payloads. -/
theorem payloads_eq
    {calls : List WriterCall}
    {i : Nat}
    {call : WriterCall}
    (h : calls[i]? = some call) :
    payloads calls =
      payloads (calls.take i) ++
        (call.blob.payload ++ payloads (calls.drop (i + 1))) := by
  obtain ⟨hlt, rfl⟩ := List.getElem?_eq_some_iff.mp h
  have hsplit :
      calls = calls.take i ++ calls[i] :: calls.drop (i + 1) := by
    rw [← List.drop_eq_getElem_cons hlt, List.take_append_drop]
  unfold payloads
  conv_lhs => rw [hsplit]
  rw [List.flatMap_append, List.flatMap_cons]

theorem length_payloads_le
    {calls : List WriterCall}
    {most : Nat}
    (h : ∀ call ∈ calls, call.blob.payload.length ≤ most) :
    (payloads calls).length ≤ calls.length * most := by
  induction calls with
  | nil =>
      simp [payloads]
  | cons call calls ih =>
      have hcall := h call List.mem_cons_self
      have hcalls :=
        ih (fun call hcall => h call (List.mem_cons_of_mem _ hcall))
      rw [payloads, List.flatMap_cons, List.length_append,
        List.length_cons, Nat.succ_mul]
      unfold payloads at hcalls
      omega

/-- Blob regions one right after the other, from `start` to `finish`. -/
def Contiguous : Nat → List BlobMetadata → Nat → Prop
  | start, [], finish => start = finish
  | start, blob :: blobs, finish =>
      blob.offset.toNat = start ∧
        Contiguous (start + blob.length.toNat) blobs finish

theorem length_metadata
    {call : WriterCall}
    {offset : UInt64}
    (h : call.blob.payload.length ≤ capacity) :
    (call.metadata offset).length.toNat =
      call.blob.payload.length := by
  have hlength := toNat_ofNat_of_le (h.trans (by decide))
  cases call <;> exact hlength

theorem offset_metadata
    {call : WriterCall}
    {offset : Nat}
    (h : offset ≤ capacity) :
    (call.metadata (UInt64.ofNat offset)).offset.toNat = offset := by
  have hoffset := toNat_ofNat_of_le (h.trans (by decide))
  cases call <;> exact hoffset

theorem contiguous_layOut
    {calls : List WriterCall}
    {offset : Nat}
    (h : offset + (payloads calls).length ≤ capacity) :
    Contiguous offset (layOut offset calls)
      (offset + (payloads calls).length) := by
  induction calls generalizing offset with
  | nil =>
      rfl
  | cons call calls ih =>
      rw [payloads, List.flatMap_cons, List.length_append] at h ⊢
      refine ⟨offset_metadata (by omega), ?_⟩
      rw [length_metadata (by omega), ← Nat.add_assoc]
      exact ih (by unfold payloads; omega)

end Layout

/-- Reading a blob recorded without a codec is reading its bytes. -/
theorem readBlobDecompressed_run
    {r : PuffinReader}
    {idx : Nat}
    {s t : Source}
    {blob : BlobMetadata}
    {payload : Bytes}
    (hlisted : r.footer.blobs[idx]? = some blob)
    (hcodec : blob.compressionCodec = none)
    (h : r.readBlob idx s = .ok payload t) :
    r.readBlobDecompressed idx s = .ok payload t := by
  have hcodecs :
      CompressionCodec.fromMeta blob.compressionCodec =
        .ok .none := by
    rw [hcodec]
    rfl
  unfold PuffinReader.readBlobDecompressed
  rw [hlisted]
  simp only [hcodecs]
  change EStateM.bind _ _ _ = _
  simp only [EStateM.bind, h]
  rfl

/--
What writing and reading back should give: a footer with the metadata of the
calls and the properties of the file, blob regions one after the other from the
head to the footer magic, and each payload under its index.
-/
structure Faithful
    (properties : List (String × String))
    (calls : List WriterCall)
    (bytes : Bytes)
    (r : PuffinReader) : Prop where
  blobs :
    List.Forall₂
      (fun blob call =>
        ∃ offset, blob = WriterCall.metadata offset call)
      r.footer.blobs calls
  properties :
    r.footer.properties =
      properties.foldl
        (fun table property => table.insert property.1 property.2)
        initialProperties
  contiguous : Contiguous 4 r.footer.blobs r.blobDataEnd
  footerMagic : slice bytes r.blobDataEnd 4 = magic
  payload :
    ∀ i call, calls[i]? = some call → ∀ position,
      (∃ t, r.readBlob i ⟨bytes, position, []⟩ =
        .ok call.blob.payload t) ∧
      ∃ t, r.readBlobDecompressed i ⟨bytes, position, []⟩ =
        .ok call.blob.payload t

theorem properties_start
    (inner : Sink)
    (properties : List (String × String)) :
    (start inner properties).properties =
      properties.foldl
        (fun table property => table.insert property.1 property.2)
        initialProperties := by
  have hfold :
      ∀ (w : PuffinWriter),
        (properties.foldl
            (fun w property =>
              w.withFileProperty property.1 property.2)
            w).properties =
          properties.foldl
            (fun table property =>
              table.insert property.1 property.2)
            w.properties := by
    induction properties with
    | nil =>
        intro w
        rfl
    | cons property properties ih =>
        intro w
        rw [List.foldl_cons, List.foldl_cons, ih]
        rfl
  exact hfold (new inner)

theorem metadata_layOut
    (offset : Nat)
    (calls : List WriterCall) :
    List.Forall₂
      (fun blob call =>
        ∃ offset, blob = WriterCall.metadata offset call)
      (layOut offset calls) calls := by
  induction calls generalizing offset with
  | nil =>
      exact .nil
  | cons call calls ih =>
      exact .cons ⟨_, rfl⟩ (ih _)

/-- A file that holds its payloads and their footer is read back. -/
theorem faithful_withFooter
    {properties : List (String × String)}
    {calls : List WriterCall}
    {payload : Bytes}
    (hcapacity : 4 + (payloads calls).length ≤ capacity)
    (hsmall :
      ∀ call ∈ calls, call.blob.payload.length ≤ maxBlobLen) :
    Faithful properties calls
      (withFooter (magic ++ payloads calls) payload)
      ⟨fileFooter properties calls, 4 + (payloads calls).length⟩ := by
  have hcap : capacity ≤ u64Max := by decide
  have hfront :
      (magic ++ payloads calls).length =
        4 + (payloads calls).length :=
    List.length_append
  refine
    { blobs := metadata_layOut _ calls
      properties := properties_start _ properties
      contiguous := contiguous_layOut hcapacity
      footerMagic := slice_eq rfl hfront.symm rfl
      payload := ?_ }
  intro i call hcall position
  have hlisted := getElem?_layOut magic.length hcall
  have hsplit := payloads_eq hcall
  have htotal := congrArg List.length hsplit
  rw [List.length_append, List.length_append] at htotal
  rw [length_magic] at hlisted
  have hoffset :
      (call.metadata
          (UInt64.ofNat
            (4 + (payloads (calls.take i)).length))).offset.toNat =
        4 + (payloads (calls.take i)).length :=
    offset_metadata (by omega)
  have hlength :
      (call.metadata
          (UInt64.ofNat
            (4 + (payloads (calls.take i)).length))).length.toNat =
        call.blob.payload.length :=
    length_metadata (by omega)
  have hread :
      Readable (withFooter (magic ++ payloads calls) payload)
        ⟨fileFooter properties calls, 4 + (payloads calls).length⟩ i
        (call.metadata
          (UInt64.ofNat (4 + (payloads (calls.take i)).length)))
        call.blob.payload := by
    constructor
    · exact hlisted
    · rw [hlength]
      exact hsmall call (List.mem_of_getElem? hcall)
    · omega
    · rw [hoffset, length_magic]
      omega
    · rw [hoffset, hlength]
      change _ ≤ 4 + (payloads calls).length
      omega
    · rw [hoffset, hlength]
      symm
      apply
        slice_eq (a := magic ++ payloads (calls.take i))
          (c := payloads (calls.drop (i + 1)) ++ _)
      · rw [withFooter, hsplit]
        simp only [List.append_assoc]
        rfl
      · rw [List.length_append, length_magic]
      · rfl
  obtain ⟨t, hrun⟩ :=
    hread.run (by rw [length_withFooter]; simp only [hfront]; omega)
      position
  refine ⟨⟨t, hrun⟩, t, readBlobDecompressed_run hlisted ?_ hrun⟩
  cases call <;> rfl

/-- What the footer holds after a run without failures. -/
theorem footer_of_run
    {properties : List (String × String)}
    {calls : List WriterCall}
    {steps : List WriterStep}
    {w : PuffinWriter}
    (hrun :
      runCalls (start Sink.fresh properties) calls = (steps, w))
    (hok : ∀ step ∈ steps, step.ok = true) :
    w.footer = fileFooter properties calls := by
  obtain ⟨_, hblobs, hproperties⟩ :=
    (Synced.start [] properties).of_run
      (Tracks.start [] properties) hrun hok
  rw [footer, hblobs, hproperties, start_eq]
  rfl

/-- With room for the whole file every call succeeds, and so does `finish`. -/
theorem exists_run_of_room
    {json : FooterJson}
    {properties : List (String × String)}
    {calls : List WriterCall}
    {payload : Bytes}
    (hserialized :
      json.serialize (fileFooter properties calls) = .ok payload)
    (hsmall : payload.length ≤ u32Max)
    (hroom :
      (withFooter (magic ++ payloads calls) payload).length ≤
        capacity) :
    ∃ steps w sink t,
      runCalls (start Sink.fresh properties) calls = (steps, w) ∧
      (∀ step ∈ steps, step.ok = true) ∧
      finish json w = .ok sink t ∧
      sink.written = withFooter (magic ++ payloads calls) payload := by
  have hfits : (magic ++ payloads calls).length ≤ capacity := by
    rw [length_withFooter] at hroom
    omega
  obtain ⟨steps, w, hrun, hok, hw⟩ :=
    (Unhindered.start properties).runCalls
      (Tracks.start [] properties) hfits
  have hheaded := (hw.synced.headed hw.headReady).1
  rw [← footer_of_run hrun hok] at hserialized
  rw [← hheaded] at hroom ⊢
  obtain ⟨sink, t, hfinish, hwritten⟩ :=
    finish_run hw.faults hw.headReady hserialized hsmall hroom
  exact ⟨steps, w, sink, t, hrun, hok, hfinish, hwritten⟩

/--
**What the writer writes the reader reads back**, for any number of blobs
within the caps, whatever their payloads contain.
-/
theorem puffin_fidelity
    (json : FooterJson)
    (hjson : json.RoundTrips)
    (properties : List (String × String))
    (calls : List WriterCall)
    (hcount : calls.length ≤ maxBlobCount)
    (hsmall :
      ∀ call ∈ calls, call.blob.payload.length ≤ maxBlobLen)
    {payload : Bytes}
    (hfooter :
      json.serialize (fileFooter properties calls) = .ok payload)
    (hlength : payload.length ≤ maxFooterLen) :
    ∃ steps sink,
      writeFile json Sink.fresh properties calls =
        (steps, .ok sink) ∧
      steps.map WriterStep.call = calls ∧
      (∀ step ∈ steps, step.ok = true) ∧
      ∀ position, ∃ r t,
        PuffinReader.open json ⟨sink.written, position, []⟩ =
          .ok r t ∧
        Faithful properties calls sink.written r := by
  have htotal : (payloads calls).length ≤ maxBlobCount * maxBlobLen :=
    (length_payloads_le hsmall).trans
      (Nat.mul_le_mul_right _ hcount)
  have hroom :
      maxBlobCount * maxBlobLen + maxFooterLen + 20 ≤ capacity := by
    decide
  have hfront :
      (magic ++ payloads calls).length =
        4 + (payloads calls).length :=
    List.length_append
  obtain ⟨steps, w, sink, t, hrun, hok, hfinish, hwritten⟩ :=
    exists_run_of_room hfooter (hlength.trans (by decide))
      (by rw [length_withFooter]; omega)
  refine ⟨steps, sink, ?_, map_call_runCalls hrun, hok, ?_⟩
  · unfold writeFile
    simp only [hrun, hfinish]
  intro position
  have haccepts :
      Accepts json sink.written
        ⟨fileFooter properties calls, 4 + (payloads calls).length⟩ := by
    rw [hwritten, ← hfront]
    apply accepts_withFooter
    · rw [length_withFooter]
      omega
    · exact hlength
    · exact slice_eq (a := []) rfl rfl rfl
    · exact hjson _ _ hfooter
    · rw [fileFooter, length_layOut]
      exact hcount
  obtain ⟨u, hopen⟩ := haccepts.run position
  refine ⟨_, u, hopen, ?_⟩
  rw [hwritten]
  exact faithful_withFooter (by omega) hsmall

section SmallFile

/-- One kind twice: a payload that is itself the magic, and an empty one. -/
def smallCalls : List WriterCall :=
  [.addBlob ⟨"samkhya.test-v1", [0], magic, ∅⟩,
    .addBlobForSnapshot ⟨"samkhya.test-v1", [0], [], ∅⟩ 7 9]

/-- The footer of that file as `serde_json` writes it. -/
def smallFooterBytes : Bytes :=
  ("\x7b\"blobs\":[\x7b\"type\":\"samkhya.test-v1\"," ++
      "\"fields\":[0],\"snapshot-id\":-1," ++
      "\"sequence-number\":-1,\"offset\":4,\"length\":4\x7d," ++
      "\x7b\"type\":\"samkhya.test-v1\",\"fields\":[0]," ++
      "\"snapshot-id\":7,\"sequence-number\":9," ++
      "\"offset\":8,\"length\":0\x7d]," ++
      "\"properties\":\x7b\"created-by\":" ++
      "\"samkhya-core version 1.2.3\"," ++
      "\"samkhya.schema-version\":\"1\"\x7d\x7d").toList.map
    (fun c => UInt8.ofNat c.toNat)

noncomputable def smallJson : FooterJson :=
  .single (fileFooter [] smallCalls) smallFooterBytes

theorem length_smallFooterBytes :
    smallFooterBytes.length ≤ 300 := by
  unfold smallFooterBytes
  -- one short literal at a time
  simp only [String.toList_append, List.length_map,
    List.length_append]
  decide +kernel

theorem smallJson_serialize :
    smallJson.serialize (fileFooter [] smallCalls) =
      .ok smallFooterBytes :=
  FooterJson.serialize_single _ _

theorem smallJson_roundTrips :
    smallJson.RoundTrips :=
  FooterJson.single_roundTrips _ _

theorem puffin_fidelity_small :
    ∃ steps sink,
      writeFile smallJson Sink.fresh [] smallCalls =
        (steps, .ok sink) ∧
      steps.map WriterStep.call = smallCalls ∧
      (∀ step ∈ steps, step.ok = true) ∧
      ∀ position, ∃ r t,
        PuffinReader.open smallJson ⟨sink.written, position, []⟩ =
          .ok r t ∧
        Faithful [] smallCalls sink.written r :=
  puffin_fidelity smallJson smallJson_roundTrips [] smallCalls
    (by decide) (by decide) smallJson_serialize
    (length_smallFooterBytes.trans (by decide))

end SmallFile

/-- Every listed blob of a finished file can be read. -/
def ReadsAll
    (json : FooterJson)
    (bytes : Bytes)
    (position : Nat) : Prop :=
  Ends (PuffinReader.open json) ⟨bytes, position, []⟩
    (fun r _ =>
      ∀ i < r.footer.blobs.length, ∀ position,
        Ends (r.readBlob i) ⟨bytes, position, []⟩
          (fun _ _ => True) (fun _ _ => False))
    (fun _ _ => False)

/-- A finished file of a run without failures, against the reader's caps. -/
theorem readsAll_iff
    {json : FooterJson}
    (hjson : json.RoundTrips)
    {w : PuffinWriter}
    {steps : List WriterStep}
    {front : Bytes}
    (htracks : w.Tracks steps)
    (hok : ∀ step ∈ steps, step.ok = true)
    (hsynced : w.Synced (magic ++ front))
    {sink : Sink}
    {payload : Bytes}
    (hfinished : Finished json w sink payload)
    (position : Nat) :
    ReadsAll json sink.written position ↔
      steps.length ≤ maxBlobCount ∧
      payload.length ≤ maxFooterLen ∧
      ∀ step ∈ steps,
        step.call.blob.payload.length ≤ maxBlobLen := by
  have hheaded := htracks.headed_of_ready hfinished.head
  have hhead : slice w.headed.inner.written 0 4 = magic := by
    rw [(hsynced.headed hfinished.head).1]
    exact slice_eq (a := []) rfl rfl rfl
  have haccepts (r : PuffinReader) :=
    accepts_finished_iff hjson htracks hfinished (r := r)
  rw [okSteps_eq hok] at haccepts
  have hcount : w.footer.blobs.length = steps.length := by
    have hlength := htracks.recorded.length_eq
    rw [okSteps_eq hok] at hlength
    exact hlength
  by_cases hcaps :
      payload.length ≤ maxFooterLen ∧ steps.length ≤ maxBlobCount
  · obtain ⟨u, hopen⟩ :=
      ((haccepts _).mpr ⟨rfl, hhead, hcaps.1, hcaps.2⟩).run position
    have hread :
        ∀ i step, steps[i]? = some step → ∀ position,
          Ends
              (PuffinReader.readBlob
                ⟨w.footer, w.headed.inner.written.length⟩ i)
              ⟨sink.written, position, []⟩
              (fun _ _ => True) (fun _ _ => False) ↔
            step.call.blob.payload.length ≤ maxBlobLen := by
      intro i step hstep position
      rw [← okSteps_eq hok] at hstep
      rw [htracks.readBlob_iff hfinished hstep position
        (Q := fun _ => True)]
      split_ifs with hsmall <;> simp [hsmall]
    rw [ReadsAll, ends_of_ok hopen]
    constructor
    · intro hall
      refine ⟨hcaps.2, hcaps.1, fun step hstep => ?_⟩
      obtain ⟨i, hi⟩ := List.mem_iff_getElem?.mp hstep
      obtain ⟨hlt, _⟩ := List.getElem?_eq_some_iff.mp hi
      refine (hread i step hi 0).mp (hall i ?_ 0)
      rw [hcount]
      exact hlt
    · rintro ⟨_, _, hsmall⟩ i hi position
      rw [hcount] at hi
      have hstep := List.getElem?_eq_getElem hi
      exact
        (hread i _ hstep position).mpr
          (hsmall _ (List.getElem_mem hi))
  · obtain ⟨e, u, hopen⟩ :=
      run_of_not_accepts
        (fun r h => hcaps ((haccepts r).mp h).2.2) position
    rw [ReadsAll, ends_of_error hopen]
    refine iff_of_false id ?_
    rintro ⟨hmany, hlong, _⟩
    exact hcaps ⟨hlong, hmany⟩

/--
**When the reader takes what the writer finished.**  The writer keeps to none
of the reader's caps: a file whose calls and `finish` all returned `Ok` is
readable exactly when its blob count, its footer and its payloads stay within
them.
-/
theorem selfWritten_readable_iff
    (json : FooterJson)
    (hjson : json.RoundTrips)
    (properties : List (String × String))
    (calls : List WriterCall)
    {steps : List WriterStep}
    {w t : PuffinWriter}
    {sink : Sink}
    (hrun :
      runCalls (start Sink.fresh properties) calls = (steps, w))
    (hok : ∀ step ∈ steps, step.ok = true)
    (hfinish : finish json w = .ok sink t)
    (position : Nat) :
    ReadsAll json sink.written position ↔
      calls.length ≤ maxBlobCount ∧
      (∀ payload,
        json.serialize (fileFooter properties calls) = .ok payload →
          payload.length ≤ maxFooterLen) ∧
      ∀ call ∈ calls, call.blob.payload.length ≤ maxBlobLen := by
  have hstart := Tracks.start [] properties
  have htracks : w.Tracks steps := hstart.of_run hrun
  have hsynced :=
    ((Synced.start [] properties).of_run hstart hrun hok).1
  have hfooter := footer_of_run hrun hok
  have hcalls := map_call_runCalls hrun
  have hfinished := finish_spec json w
  rw [ends_of_ok hfinish] at hfinished
  obtain ⟨payload, hfinished⟩ := hfinished
  have hserialized := hfinished.serialized
  rw [hfooter] at hserialized
  rw [readsAll_iff hjson htracks hok hsynced hfinished position,
    hserialized, ← hcalls, List.length_map]
  simp

theorem selfWritten_small :
    ∃ steps w sink t,
      runCalls (start Sink.fresh []) smallCalls = (steps, w) ∧
      finish smallJson w = .ok sink t ∧
      ReadsAll smallJson sink.written 0 := by
  have hsmall := length_smallFooterBytes
  have hroom :
      (withFooter (magic ++ payloads smallCalls)
        smallFooterBytes).length ≤ capacity := by
    rw [length_withFooter]
    exact (Nat.add_le_add_left hsmall _).trans (by decide)
  obtain ⟨steps, w, sink, t, hrun, hok, hfinish, _⟩ :=
    exists_run_of_room smallJson_serialize (hsmall.trans (by decide))
      hroom
  refine ⟨steps, w, sink, t, hrun, hfinish, ?_⟩
  refine
    (selfWritten_readable_iff smallJson smallJson_roundTrips []
      smallCalls hrun hok hfinish 0).mpr ⟨by decide, ?_, by decide⟩
  intro payload hpayload
  rw [smallJson_serialize] at hpayload
  rw [← Except.ok.inj hpayload]
  exact hsmall.trans (by decide)

section ManyBlobs

/-- Blobs with nothing in them. -/
def emptyCalls (n : Nat) : List WriterCall :=
  List.replicate n (.addBlob ⟨"samkhya.test-v1", [], [], ∅⟩)

/-- What the footer says about each of them. -/
def emptyEntryBytes : Bytes :=
  ("\x7b\"type\":\"samkhya.test-v1\",\"fields\":[]," ++
      "\"snapshot-id\":-1,\"sequence-number\":-1," ++
      "\"offset\":4,\"length\":0\x7d").toList.map
    (fun c => UInt8.ofNat c.toNat)

/-- The properties at the end of the footer. -/
def propertiesBytes : Bytes :=
  ("],\"properties\":\x7b\"created-by\":" ++
      "\"samkhya-core version 1.2.3\"," ++
      "\"samkhya.schema-version\":\"1\"\x7d\x7d").toList.map
    (fun c => UInt8.ofNat c.toNat)

/-- How a footer begins. -/
def blobsBytes : Bytes :=
  "\x7b\"blobs\":[".toList.map (fun c => UInt8.ofNat c.toNat)

/-- The footer of `n + 1` empty blobs as `serde_json` writes it. -/
def emptyBlobsBytes (n : Nat) : Bytes :=
  blobsBytes ++ emptyEntryBytes ++
    (List.replicate n (0x2c :: emptyEntryBytes)).flatten ++
    propertiesBytes

noncomputable def emptyBlobsJson (n : Nat) : FooterJson :=
  .single (fileFooter [] (emptyCalls (n + 1))) (emptyBlobsBytes n)

theorem length_emptyBlobsBytes_le
    (n : Nat) :
    (emptyBlobsBytes n).length ≤ 210 + n * 101 := by
  have hentry : emptyEntryBytes.length ≤ 100 := by
    decide +kernel
  have hproperties : propertiesBytes.length ≤ 100 := by
    decide +kernel
  have hblobs : blobsBytes.length ≤ 10 := by
    decide
  have hrepeated :
      n * (emptyEntryBytes.length + 1) ≤ n * 101 :=
    Nat.mul_le_mul_left n (by omega)
  have hlength :
      (emptyBlobsBytes n).length =
        blobsBytes.length + emptyEntryBytes.length +
          n * (emptyEntryBytes.length + 1) +
          propertiesBytes.length := by
    unfold emptyBlobsBytes
    simp only [List.length_append, List.length_flatten,
      List.map_replicate, List.sum_replicate, List.length_cons,
      smul_eq_mul]
  omega

theorem payloads_emptyCalls
    (n : Nat) :
    payloads (emptyCalls n) = [] := by
  unfold payloads emptyCalls
  rw [List.flatMap_replicate]
  exact List.flatten_replicate_nil

/-- With too many of them every call returns `Ok` and the reader refuses. -/
theorem emptyBlobs_refused
    {n : Nat}
    (hmany : maxBlobCount ≤ n)
    (hfits : 210 + n * 101 ≤ u32Max) :
    ∃ steps w sink t,
      runCalls (start Sink.fresh []) (emptyCalls (n + 1)) =
        (steps, w) ∧
      (∀ step ∈ steps, step.ok = true) ∧
      finish (emptyBlobsJson n) w = .ok sink t ∧
      ¬ ReadsAll (emptyBlobsJson n) sink.written 0 := by
  have hlength := length_emptyBlobsBytes_le n
  have hserialized :
      (emptyBlobsJson n).serialize
          (fileFooter [] (emptyCalls (n + 1))) =
        .ok (emptyBlobsBytes n) :=
    FooterJson.serialize_single _ _
  have hjson : (emptyBlobsJson n).RoundTrips :=
    FooterJson.single_roundTrips _ _
  have hcapacity : u32Max + 20 ≤ capacity := by
    decide
  have hroom :
      (withFooter (magic ++ payloads (emptyCalls (n + 1)))
        (emptyBlobsBytes n)).length ≤ capacity := by
    rw [payloads_emptyCalls, length_withFooter, List.append_nil,
      length_magic]
    omega
  obtain ⟨steps, w, sink, t, hrun, hok, hfinish, _⟩ :=
    exists_run_of_room hserialized (hlength.trans hfits) hroom
  refine ⟨steps, w, sink, t, hrun, hok, hfinish, ?_⟩
  have hstart := Tracks.start [] []
  have hsynced :=
    ((Synced.start [] []).of_run hstart hrun hok).1
  have hfinished := finish_spec (emptyBlobsJson n) w
  rw [ends_of_ok hfinish] at hfinished
  obtain ⟨payload, hfinished⟩ := hfinished
  have htracks : w.Tracks steps := hstart.of_run hrun
  rw [readsAll_iff hjson htracks hok hsynced hfinished]
  rintro ⟨hcount, _⟩
  have hcalls := congrArg List.length (map_call_runCalls hrun)
  rw [List.length_map, emptyCalls, List.length_replicate] at hcalls
  omega

/-- 65,537 empty blobs, with a footer well below the cap on footers. -/
theorem selfWritten_overfull :
    ∃ steps w sink t,
      runCalls (start Sink.fresh []) (emptyCalls (65536 + 1)) =
        (steps, w) ∧
      (∀ step ∈ steps, step.ok = true) ∧
      finish (emptyBlobsJson 65536) w = .ok sink t ∧
      ¬ ReadsAll (emptyBlobsJson 65536) sink.written 0 :=
  emptyBlobs_refused (by decide) (by decide)

end ManyBlobs

end PuffinWriter

end Samkhya
