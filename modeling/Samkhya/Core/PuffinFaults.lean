import Mathlib
import Samkhya.Core.PuffinWriter

/-!
# Failed writes

A failed write leaves bytes behind that the position counter does not see, and
later offsets are off by their number.  A torn head is noticed by the reader; a
torn payload is not.
-/

namespace Samkhya

open FieldCodec ByteDevice Saturating PuffinReader

namespace PuffinWriter

/-- A head write stopped after one to three bytes, and nothing came since. -/
def TornHead (w : PuffinWriter) : Prop :=
  w.wroteHead = false ∧
    ∃ k, 0 < k ∧ k < 4 ∧ w.inner.written = magic.take k

/-- A torn head with another write after it. -/
def BrokenHead (written : Bytes) : Prop :=
  ∃ k rest, 0 < k ∧ k < 4 ∧ written = magic.take k ++ 0x50 :: rest

/-- A file that starts with the magic. -/
def WholeHead (written : Bytes) : Prop :=
  ∃ rest, written = magic ++ rest

/-- How the file of a run begins, given whether a head was torn on the way. -/
def HeadFate (w : PuffinWriter) (torn : Prop) : Prop :=
  (w.wroteHead = false ∧ w.inner.written = [] ∧ ¬ torn) ∨
    ((w.TornHead ∨ BrokenHead w.inner.written) ∧ torn) ∨
    (WholeHead w.inner.written ∧ ¬ torn)

section Head

variable {w t : PuffinWriter} {torn : Prop}

theorem WholeHead.append
    {written : Bytes}
    (h : WholeHead written)
    (more : Bytes) :
    WholeHead (written ++ more) := by
  obtain ⟨rest, rfl⟩ := h
  exact ⟨rest ++ more, by rw [List.append_assoc]⟩

theorem BrokenHead.append
    {written : Bytes}
    (h : BrokenHead written)
    (more : Bytes) :
    BrokenHead (written ++ more) := by
  obtain ⟨k, rest, hpos, hlt, rfl⟩ := h
  exact ⟨k, rest ++ more, hpos, hlt, by simp⟩

theorem WholeHead.slice_eq
    {written : Bytes}
    (h : WholeHead written) :
    slice written 0 4 = magic := by
  obtain ⟨rest, rfl⟩ := h
  exact ByteDevice.slice_eq (a := []) rfl rfl rfl

theorem BrokenHead.slice_ne
    {written : Bytes}
    (h : BrokenHead written) :
    slice written 0 4 ≠ magic := by
  obtain ⟨k, rest, hpos, hlt, rfl⟩ := h
  obtain rfl | rfl | rfl : k = 1 ∨ k = 2 ∨ k = 3 := by
    omega
  all_goals simp [slice, magic]

/-- What a write of part of the head leaves. -/
theorem take_magic_cases
    (n : Nat) :
    magic.take n = [] ∨
      (∃ k, 0 < k ∧ k < 4 ∧ magic.take n = magic.take k) ∨
      magic.take n = magic := by
  by_cases hzero : n = 0
  · left
    rw [hzero, List.take_zero]
  by_cases hlt : n < 4
  · exact Or.inr (Or.inl ⟨n, by omega, hlt, rfl⟩)
  · right
    right
    exact List.take_of_length_le (by simpa using Nat.le_of_not_lt hlt)

/-- A head write moves the fate forward, wherever it stops. -/
theorem HeadFate.wrote_magic
    (h : w.HeadFate torn)
    (hhead : w.wroteHead = false) :
    (w.wrote magic).HeadFate (torn ∨ (w.wrote magic).TornHead) := by
  obtain ⟨n, hn⟩ := w.inner.append_written_take magic
  have hwritten :
      (w.wrote magic).inner.written =
        w.inner.written ++ magic.take n := hn
  rcases h with ⟨_, hempty, hnot⟩ | ⟨hbad, htorn⟩ | ⟨hwhole, hnot⟩
  · rw [hempty, List.nil_append] at hwritten
    rcases take_magic_cases n with hnil | ⟨k, hpos, hlt, hk⟩ | hall
    · left
      rw [hnil] at hwritten
      refine ⟨hhead, hwritten, ?_⟩
      rintro (htorn | ⟨_, k, hpos, hlt, hk⟩)
      · exact hnot htorn
      · rw [hwritten] at hk
        have hlength := congrArg List.length hk
        simp only [List.length_nil, List.length_take,
          length_magic] at hlength
        omega
    · right
      left
      have htornHead : (w.wrote magic).TornHead :=
        ⟨hhead, k, hpos, hlt, hwritten.trans hk⟩
      exact ⟨Or.inl htornHead, Or.inr htornHead⟩
    · right
      right
      rw [hall] at hwritten
      refine ⟨⟨[], by rw [hwritten, List.append_nil]⟩, ?_⟩
      rintro (htorn | ⟨_, k, hpos, hlt, hk⟩)
      · exact hnot htorn
      · rw [hwritten] at hk
        have hlength := congrArg List.length hk
        simp only [List.length_take, length_magic] at hlength
        omega
  · right
    left
    refine ⟨?_, Or.inl htorn⟩
    rcases hbad with ⟨_, k, hpos, hlt, hk⟩ | hbroken
    · rw [hk] at hwritten
      cases n with
      | zero =>
          left
          refine ⟨hhead, k, hpos, hlt, ?_⟩
          rw [hwritten, List.take_zero, List.append_nil]
      | succ n =>
          right
          refine ⟨k, (magic.drop 1).take n, hpos, hlt, ?_⟩
          rw [hwritten]
          rfl
    · right
      rw [hwritten]
      exact hbroken.append _
  · right
    right
    rw [hwritten]
    refine ⟨hwhole.append _, ?_⟩
    rintro (htorn | ⟨_, k, hpos, hlt, hk⟩)
    · exact hnot htorn
    · obtain ⟨rest, hrest⟩ := hwhole.append (magic.take n)
      rw [hwritten, hrest] at hk
      have hlength := congrArg List.length hk
      simp only [List.length_append, List.length_take,
        length_magic] at hlength
      omega

/-- Once the head is written its fate no longer changes. -/
def HeadSettled (written : Bytes) (torn : Prop) : Prop :=
  (BrokenHead written ∧ torn) ∨ (WholeHead written ∧ ¬ torn)

theorem HeadSettled.append
    {written : Bytes}
    (h : HeadSettled written torn)
    (more : Bytes) :
    HeadSettled (written ++ more) torn := by
  rcases h with ⟨hbroken, htorn⟩ | ⟨hwhole, hnot⟩
  · exact Or.inl ⟨hbroken.append more, htorn⟩
  · exact Or.inr ⟨hwhole.append more, hnot⟩

/-- A complete head write settles the fate. -/
theorem HeadFate.headed
    (h : w.HeadFate torn)
    (hready : w.HeadReady) :
    HeadSettled w.headed.inner.written torn := by
  cases hhead : w.wroteHead with
  | true =>
      rw [PuffinWriter.headed, if_pos hhead]
      rcases h with ⟨hnone, _⟩ | ⟨hbad, htorn⟩ | hwhole
      · rw [hhead] at hnone
        cases hnone
      · rcases hbad with ⟨hnone, _⟩ | hbroken
        · rw [hhead] at hnone
          cases hnone
        · exact Or.inl ⟨hbroken, htorn⟩
      · exact Or.inr hwhole
  | false =>
      have haccepts := hready.accepts hhead
      have hwritten :
          w.headed.inner.written = w.inner.written ++ magic := by
        rw [PuffinWriter.headed, if_neg (by simp [hhead])]
        exact Sink.append_written haccepts
      rw [hwritten]
      rcases h with ⟨_, hempty, hnot⟩ | ⟨hbad, htorn⟩ | ⟨hwhole, hnot⟩
      · right
        rw [hempty, List.nil_append]
        exact ⟨⟨[], (List.append_nil _).symm⟩, hnot⟩
      · left
        refine ⟨?_, htorn⟩
        rcases hbad with ⟨_, k, hpos, hlt, hk⟩ | hbroken
        · rw [hk]
          exact ⟨k, magic.drop 1, hpos, hlt, rfl⟩
        · exact hbroken.append magic
      · exact Or.inr ⟨hwhole.append magic, hnot⟩

/-- A writer with its head written has a settled fate. -/
theorem HeadSettled.fate
    (h : HeadSettled w.inner.written torn)
    (hhead : w.wroteHead = true) :
    w.HeadFate (torn ∨ w.TornHead) := by
  have hnone : ¬ w.TornHead := by
    rintro ⟨hnone, _⟩
    rw [hhead] at hnone
    cases hnone
  rcases h with ⟨hbroken, htorn⟩ | ⟨hwhole, hnot⟩
  · exact Or.inr (Or.inl ⟨Or.inr hbroken, Or.inl htorn⟩)
  · exact Or.inr (Or.inr ⟨hwhole, fun h => h.elim hnot hnone⟩)

/-- Some call of the run started with a torn head. -/
def TornIn (steps : List WriterStep) : Prop :=
  ∃ step ∈ steps, step.before.TornHead

theorem tornIn_append_iff
    (steps : List WriterStep)
    (step : WriterStep) :
    TornIn (steps ++ [step]) ↔
      TornIn steps ∨ step.before.TornHead := by
  simp [TornIn, or_and_right, exists_or]

/-- One call moves the fate of the head forward. -/
theorem HeadFate.step
    {steps : List WriterStep}
    {call : WriterCall}
    {ok : Bool}
    (h : w.HeadFate (TornIn steps ∨ w.TornHead))
    (hstep : if ok then w.Added call t else w.Failed call t) :
    t.HeadFate
      (TornIn (steps ++ [⟨w, call, ok⟩]) ∨ t.TornHead) := by
  rw [tornIn_append_iff]
  have hpayload :
      w.HeadReady →
        t.inner = (w.headed.wrote call.blob.payload).inner →
        t.wroteHead = true →
        t.HeadFate
          ((TornIn steps ∨ w.TornHead) ∨ t.TornHead) := by
    intro hready hinner hhead
    apply HeadSettled.fate _ hhead
    rw [hinner]
    exact (h.headed hready).append _
  cases ok with
  | true =>
      have hadded : w.Added call t := hstep
      apply hpayload hadded.head
      · rw [hadded.eq]
      · rw [hadded.eq]
        exact w.headed_wroteHead
  | false =>
      rcases hstep with ⟨hnot, rfl⟩ | ⟨hready, _, rfl⟩
      · exact h.wrote_magic (wroteHead_of_not_headReady hnot)
      · exact hpayload hready rfl w.headed_wroteHead

/-- The fate of the head after a run. -/
theorem HeadFate.of_run
    {calls : List WriterCall}
    {done new : List WriterStep}
    (h : w.HeadFate (TornIn done ∨ w.TornHead))
    (hrun : runCalls w calls = (new, t)) :
    t.HeadFate (TornIn (done ++ new) ∨ t.TornHead) :=
  runCalls_preserves
    (P := fun done w => w.HeadFate (TornIn done ∨ w.TornHead))
    HeadFate.step h hrun

theorem HeadFate.start
    (faults : List (Option Nat))
    (properties : List (String × String)) :
    (start ⟨[], faults⟩ properties).HeadFate
      (TornIn [] ∨ (start ⟨[], faults⟩ properties).TornHead) := by
  rw [start_eq]
  refine Or.inl ⟨rfl, rfl, ?_⟩
  rintro (⟨step, hstep, _⟩ | ⟨_, k, hpos, hlt, hk⟩)
  · exact absurd hstep List.not_mem_nil
  · have hlength := congrArg List.length hk
    simp only [new, List.length_nil, List.length_take,
      length_magic] at hlength
    omega

end Head

/--
What should hold of a finished file: the reader rejects it, or lists exactly
the blobs whose call returned `Ok` and never returns another payload for one.
-/
def KeepsBlobs
    (json : FooterJson)
    (bytes : Bytes)
    (steps : List WriterStep)
    (position : Nat) : Prop :=
  Ends (PuffinReader.open json) ⟨bytes, position, []⟩
    (fun r _ =>
      List.Forall₂
        (fun blob step =>
          ∃ offset, blob = step.call.metadata offset)
        r.footer.blobs (okSteps steps) ∧
      ∀ i step, (okSteps steps)[i]? = some step → ∀ position,
        Ends (r.readBlob i) ⟨bytes, position, []⟩
          (fun payload _ => payload = step.call.blob.payload)
          (fun _ _ => True))
    (fun _ _ => True)

/--
The runs that do no harm.  Either the reader rejects the file: a head write
stopped after one to three bytes, or there are too many blobs, or the footer is
too long.  Or each call that returned `Ok` had a payload too long for the
reader, or one that the stray bytes before it do not displace: there are none,
or it is empty, or stray bytes and payload start with the payload by chance.
-/
def Harmless
    (json : FooterJson)
    (steps : List WriterStep)
    (w : PuffinWriter) : Prop :=
  TornIn steps ∨ w.TornHead ∨
    maxBlobCount < (okSteps steps).length ∨
    (∀ payload,
      json.serialize w.footer = .ok payload →
        maxFooterLen < payload.length) ∨
    ∀ step ∈ steps, step.ok = true →
      step.call.blob.payload.length ≤ maxBlobLen →
        step.call.blob.payload <+:
          step.stray ++ step.call.blob.payload

/-- A footer is too long when its one serialization is. -/
theorem Finished.tooLong_iff
    {json : FooterJson}
    {w : PuffinWriter}
    {sink : Sink}
    {payload : Bytes}
    (h : Finished json w sink payload) :
    (∀ bytes, json.serialize w.footer = .ok bytes →
      maxFooterLen < bytes.length) ↔
      maxFooterLen < payload.length := by
  rw [h.serialized]
  constructor
  · intro hlong
    exact hlong payload rfl
  · intro hlong bytes hbytes
    rw [← Except.ok.inj hbytes]
    exact hlong

/-- A blob reads back as it was given when no stray bytes displace it. -/
theorem Tracks.readsBack_iff
    {json : FooterJson}
    {w : PuffinWriter}
    {steps : List WriterStep}
    (htracks : w.Tracks steps)
    {sink : Sink}
    {payload : Bytes}
    (hfinished : Finished json w sink payload)
    {i : Nat}
    {step : WriterStep}
    (hstep : (okSteps steps)[i]? = some step)
    (position : Nat) :
    Ends
        (PuffinReader.readBlob
          ⟨w.footer, w.headed.inner.written.length⟩ i)
        ⟨sink.written, position, []⟩
        (fun payload _ => payload = step.call.blob.payload)
        (fun _ _ => True) ↔
      (step.call.blob.payload.length ≤ maxBlobLen →
        step.call.blob.payload <+:
          step.stray ++ step.call.blob.payload) := by
  have hheaded := htracks.headed_of_ready hfinished.head
  obtain ⟨blob, _, hrecorded⟩ :=
    exists_getElem?_of_forall₂ hheaded.recorded hstep
  rw [htracks.readBlob_iff hfinished hstep position
    (Q := fun bytes => bytes = step.call.blob.payload),
    recordedBytes_eq_iff hrecorded.pos_le]
  split_ifs with hsmall <;> simp [hsmall]

/-- A finished file against its run, by the fate of its head. -/
theorem keepsBlobs_iff
    {json : FooterJson}
    (hjson : json.RoundTrips)
    {w : PuffinWriter}
    {steps : List WriterStep}
    (htracks : w.Tracks steps)
    (hfate : w.HeadFate (TornIn steps ∨ w.TornHead))
    {sink : Sink}
    {payload : Bytes}
    (hfinished : Finished json w sink payload)
    (position : Nat) :
    KeepsBlobs json sink.written steps position ↔
      Harmless json steps w := by
  have haccepts (r : PuffinReader) :=
    accepts_finished_iff hjson htracks hfinished (r := r)
  have hread {i : Nat} {step : WriterStep}
      (hstep : (okSteps steps)[i]? = some step) (position : Nat) :=
    htracks.readsBack_iff hfinished hstep position
  unfold Harmless
  rw [hfinished.tooLong_iff]
  rcases hfate.headed hfinished.head with
    ⟨hbroken, htorn⟩ | ⟨hwhole, hnot⟩
  · obtain ⟨e, u, hopen⟩ :=
      run_of_not_accepts
        (fun r h => hbroken.slice_ne ((haccepts r).mp h).2.1)
        position
    rw [KeepsBlobs, ends_of_error hopen]
    refine iff_of_true trivial ?_
    rcases htorn with htorn | htorn
    · exact Or.inl htorn
    · exact Or.inr (Or.inl htorn)
  rw [not_or] at hnot
  by_cases hcaps :
      payload.length ≤ maxFooterLen ∧
        (okSteps steps).length ≤ maxBlobCount
  · obtain ⟨u, hopen⟩ :=
      ((haccepts _).mpr
        ⟨rfl, hwhole.slice_eq, hcaps.1, hcaps.2⟩).run position
    rw [KeepsBlobs, ends_of_ok hopen]
    constructor
    · rintro ⟨_, hkept⟩
      right; right; right; right
      intro step hmem hok
      obtain ⟨i, hi⟩ :=
        List.mem_iff_getElem?.mp
          (List.mem_filter.mpr ⟨hmem, hok⟩ : step ∈ okSteps steps)
      exact (hread hi 0).mp (hkept i step hi 0)
    · intro hsafe
      have hall :
          ∀ step ∈ steps, step.ok = true →
            step.call.blob.payload.length ≤ maxBlobLen →
              step.call.blob.payload <+:
                step.stray ++ step.call.blob.payload := by
        rcases hsafe with h | h | h | h | h
        · exact absurd h hnot.1
        · exact absurd h hnot.2
        · omega
        · omega
        · exact h
      refine ⟨?_, fun i step hi position => ?_⟩
      · exact
          htracks.recorded.imp
            (fun blob step h => ⟨_, h.metadata_eq⟩)
      · have hmem : step ∈ okSteps steps :=
          List.mem_of_getElem? hi
        obtain ⟨hin, hok⟩ := List.mem_filter.mp hmem
        exact (hread hi position).mpr (hall step hin hok)
  · obtain ⟨e, u, hopen⟩ :=
      run_of_not_accepts
        (fun r h => hcaps ((haccepts r).mp h).2.2) position
    rw [KeepsBlobs, ends_of_error hopen]
    refine iff_of_true trivial ?_
    rw [not_and_or, Nat.not_le, Nat.not_le] at hcaps
    rcases hcaps with hlong | hmany
    · exact Or.inr (Or.inr (Or.inr (Or.inl hlong)))
    · exact Or.inr (Or.inr (Or.inl hmany))

/--
**When a failed write does no harm.**  Whatever writes the sink stops, and
wherever, a file that `finish` completes keeps its blobs exactly when the run
was harmless.
-/
theorem failedAdd_iff
    (json : FooterJson)
    (hjson : json.RoundTrips)
    (faults : List (Option Nat))
    (properties : List (String × String))
    (calls : List WriterCall)
    {steps : List WriterStep}
    {w t : PuffinWriter}
    {sink : Sink}
    (hrun :
      runCalls (start ⟨[], faults⟩ properties) calls = (steps, w))
    (hfinish : finish json w = .ok sink t)
    (position : Nat) :
    KeepsBlobs json sink.written steps position ↔
      Harmless json steps w := by
  have htracks : w.Tracks steps :=
    (Tracks.start faults properties).of_run hrun
  have hfate : w.HeadFate (TornIn steps ∨ w.TornHead) :=
    (HeadFate.start faults properties).of_run hrun
  have hfinished := finish_spec json w
  rw [ends_of_ok hfinish] at hfinished
  obtain ⟨payload, hfinished⟩ := hfinished
  exact keepsBlobs_iff hjson htracks hfate hfinished position

section TornPayload

/-- Three bytes for a sink that stops after two of them. -/
def tornCall : WriterCall :=
  .addBlob ⟨"samkhya.test-v1", [0], [1, 2, 3], ∅⟩

/-- Two bytes that the sink takes. -/
def nextCall : WriterCall :=
  .addBlob ⟨"samkhya.test-v1", [1], [4, 5], ∅⟩

/-- The head is written, the next write stops after two bytes. -/
def tornFaults : List (Option Nat) :=
  [none, some 2]

/-- The writer after both calls. -/
def tornWriter : PuffinWriter :=
  (runCalls (start ⟨[], tornFaults⟩ []) [tornCall, nextCall]).2

/-- What the two calls returned. -/
def tornSteps : List WriterStep :=
  (runCalls (start ⟨[], tornFaults⟩ []) [tornCall, nextCall]).1

/-- The footer of that file as `serde_json` writes it. -/
def tornFooterBytes : Bytes :=
  ("\x7b\"blobs\":[\x7b\"type\":\"samkhya.test-v1\"," ++
      "\"fields\":[1],\"snapshot-id\":-1," ++
      "\"sequence-number\":-1,\"offset\":4,\"length\":2\x7d]," ++
      "\"properties\":\x7b\"created-by\":" ++
      "\"samkhya-core version 1.2.3\"," ++
      "\"samkhya.schema-version\":\"1\"\x7d\x7d").toList.map
    (fun c => UInt8.ofNat c.toNat)

noncomputable def tornJson : FooterJson :=
  .single tornWriter.footer tornFooterBytes

theorem length_tornFooterBytes :
    tornFooterBytes.length ≤ 300 := by
  unfold tornFooterBytes
  -- one short literal at a time
  simp only [String.toList_append, List.length_map,
    List.length_append]
  decide +kernel

/--
A writer past the faults, with eight bytes out and that footer, finishes.
-/
theorem exists_finish_of_footer
    {w : PuffinWriter}
    (hfaults : w.inner.faults = [])
    (hready : w.HeadReady)
    (hfooter : w.footer = tornWriter.footer)
    (hwritten : w.headed.inner.written.length = 8) :
    ∃ sink t, finish tornJson w = .ok sink t := by
  have hlength := length_tornFooterBytes
  have hserialized : tornJson.serialize w.footer = .ok tornFooterBytes := by
    rw [hfooter]
    exact FooterJson.serialize_single _ tornFooterBytes
  have hroom :
      (withFooter w.headed.inner.written tornFooterBytes).length ≤
        capacity := by
    rw [length_withFooter, hwritten]
    exact (Nat.add_le_add_left hlength _).trans (by decide)
  obtain ⟨sink, t, hrun, _⟩ :=
    finish_run hfaults hready hserialized
      (hlength.trans (by decide)) hroom
  exact ⟨sink, t, hrun⟩

theorem finish_tornWriter :
    ∃ sink t, finish tornJson tornWriter = .ok sink t :=
  exists_finish_of_footer rfl (Or.inl rfl) rfl (by decide +kernel)

/-- The second payload is `4, 5`, and the reader would find `1, 2`. -/
theorem not_harmless_torn :
    ¬ Harmless tornJson tornSteps tornWriter := by
  have hheaded : tornWriter.wroteHead = true := rfl
  rintro (⟨step, hstep, hhead, k, hpos, _, hk⟩ | ⟨hhead, _⟩ | hmany |
    hlong | hsafe)
  · have hsteps :
        tornSteps.map
            (fun step =>
              (step.before.wroteHead, step.before.inner.written)) =
          [(false, []), (true, magic ++ [1, 2])] :=
      rfl
    have hmem := List.mem_map_of_mem hstep
      (f := fun step =>
        (step.before.wroteHead, step.before.inner.written))
    rw [hsteps, hhead, hk] at hmem
    have hnil : magic.take k = [] := by
      rcases List.mem_cons.mp hmem with h | h
      · exact (Prod.mk.inj h).2
      · cases (Prod.mk.inj (List.mem_singleton.mp h)).1
    have hlength := congrArg List.length hnil
    rw [List.length_take, length_magic, List.length_nil] at hlength
    omega
  · rw [hheaded] at hhead
    cases hhead
  · exact absurd hmany (by decide)
  · have hlength : tornFooterBytes.length ≤ maxFooterLen :=
      length_tornFooterBytes.trans (by decide)
    have hlarge :=
      hlong tornFooterBytes (FooterJson.serialize_single _ _)
    omega
  · have hlast :=
      hsafe ⟨_, nextCall, true⟩ (List.mem_of_getElem? (i := 1) rfl)
        rfl (by decide)
    have hprefix : [4, 5] <+: ([1, 2, 4, 5] : Bytes) := hlast
    revert hprefix
    decide

/--
The first call fails after two bytes of its payload, the second returns `Ok`,
and reading its blob gives bytes of the first.
-/
theorem failedAdd_displaces :
    tornSteps.map WriterStep.ok = [false, true] ∧
      ∃ sink t,
        finish tornJson tornWriter = .ok sink t ∧
        ¬ KeepsBlobs tornJson sink.written tornSteps 0 := by
  refine ⟨rfl, ?_⟩
  obtain ⟨sink, t, hfinish⟩ := finish_tornWriter
  have hrun :
      runCalls (start ⟨[], tornFaults⟩ []) [tornCall, nextCall] =
        (tornSteps, tornWriter) :=
    rfl
  have hfinished := finish_spec tornJson tornWriter
  rw [ends_of_ok hfinish] at hfinished
  obtain ⟨payload, hfinished⟩ := hfinished
  have hjson : tornJson.RoundTrips :=
    FooterJson.single_roundTrips _ _
  have htracks : tornWriter.Tracks tornSteps :=
    (Tracks.start tornFaults []).of_run hrun
  have hfate :
      tornWriter.HeadFate
        (TornIn tornSteps ∨ tornWriter.TornHead) :=
    (HeadFate.start tornFaults []).of_run hrun
  refine ⟨sink, t, hfinish, ?_⟩
  rw [keepsBlobs_iff hjson htracks hfate hfinished]
  exact not_harmless_torn

/-- The same calls with payloads whose bytes are all equal. -/
def evenCalls : List WriterCall :=
  [.addBlob ⟨"samkhya.test-v1", [0], [7, 7, 7], ∅⟩,
    .addBlob ⟨"samkhya.test-v1", [1], [7, 7], ∅⟩]

def evenWriter : PuffinWriter :=
  (runCalls (start ⟨[], tornFaults⟩ []) evenCalls).2

def evenSteps : List WriterStep :=
  (runCalls (start ⟨[], tornFaults⟩ []) evenCalls).1

theorem finish_evenWriter :
    ∃ sink t, finish tornJson evenWriter = .ok sink t :=
  exists_finish_of_footer rfl (Or.inl rfl) rfl (by decide +kernel)

/-- Stray bytes and payload start with the payload by chance. -/
theorem harmless_even :
    Harmless tornJson evenSteps evenWriter := by
  have hsteps :
      evenSteps.map
          (fun step => (step.ok, step.call.blob.payload, step.stray)) =
        [(false, [7, 7, 7], []), (true, [7, 7], [7, 7])] :=
    rfl
  refine Or.inr (Or.inr (Or.inr (Or.inr fun step hstep hok _ => ?_)))
  have hmem :=
    List.mem_map_of_mem
      (f := fun step : WriterStep =>
        (step.ok, step.call.blob.payload, step.stray)) hstep
  rw [hsteps] at hmem
  simp only [List.mem_cons, Prod.mk.injEq, hok, List.not_mem_nil,
    or_false] at hmem
  rcases hmem with ⟨hfalse, _⟩ | ⟨_, hpayload, hstray⟩
  · cases hfalse
  · rw [hpayload, hstray]
    decide

/-- The first run displaces a payload, and the second one does not. -/
theorem failedAdd_torn :
    (∃ sink t,
      finish tornJson tornWriter = .ok sink t ∧
      ¬ KeepsBlobs tornJson sink.written tornSteps 0) ∧
    ∃ sink t,
      finish tornJson evenWriter = .ok sink t ∧
      KeepsBlobs tornJson sink.written evenSteps 0 := by
  have hjson : tornJson.RoundTrips := FooterJson.single_roundTrips _ _
  have htorn :
      runCalls (start ⟨[], tornFaults⟩ []) [tornCall, nextCall] =
        (tornSteps, tornWriter) :=
    rfl
  have heven :
      runCalls (start ⟨[], tornFaults⟩ []) evenCalls =
        (evenSteps, evenWriter) :=
    rfl
  obtain ⟨sink, t, hfinish⟩ := finish_tornWriter
  obtain ⟨sink', t', hfinish'⟩ := finish_evenWriter
  refine ⟨⟨sink, t, hfinish, ?_⟩, sink', t', hfinish', ?_⟩
  · rw [failedAdd_iff tornJson hjson _ _ _ htorn hfinish 0]
    exact not_harmless_torn
  · rw [failedAdd_iff tornJson hjson _ _ _ heven hfinish' 0]
    exact harmless_even

end TornPayload

end PuffinWriter

end Samkhya
