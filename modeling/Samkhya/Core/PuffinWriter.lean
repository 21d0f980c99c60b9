import Mathlib
import Samkhya.Core.PuffinReader

/-!
# What the Puffin writer leaves behind

`Added` and `Failed` say what one call does to the writer when it returns `Ok`
and when it does not, and `Finished` what a completed file looks like.  The
invariant `Tracks` holds through every run: the position counter is somewhere
in the file, never behind its end, and each metadata entry is the call that
recorded it.  What the reader makes of the file follows from it.
-/

namespace Samkhya

open FieldCodec ByteDevice Saturating PuffinReader

namespace PuffinWriter

/-- The writer once the head magic is there. -/
def headed (w : PuffinWriter) : PuffinWriter :=
  if w.wroteHead then
    w
  else
    { w with
      inner := w.inner.append magic
      pos := w.pos + UInt64.ofNat magic.length
      wroteHead := true }

/-- The head magic is there, or the sink takes it. -/
def HeadReady (w : PuffinWriter) : Prop :=
  w.wroteHead = true ∨ w.inner.accepts magic.length = true

/-- A head that is not there yet is one that the sink takes. -/
theorem HeadReady.accepts
    {w : PuffinWriter}
    (h : w.HeadReady)
    (hhead : w.wroteHead = false) :
    w.inner.accepts magic.length = true := by
  rcases h with hwrote | haccepts
  · rw [hhead] at hwrote
    cases hwrote
  · exact haccepts

theorem wroteHead_of_not_headReady
    {w : PuffinWriter}
    (h : ¬ w.HeadReady) :
    w.wroteHead = false := by
  rw [HeadReady, not_or] at h
  exact Bool.not_eq_true _ |>.mp h.1

@[simp] theorem headed_blobs
    (w : PuffinWriter) :
    w.headed.blobs = w.blobs := by
  unfold headed
  split_ifs <;> rfl

@[simp] theorem headed_properties
    (w : PuffinWriter) :
    w.headed.properties = w.properties := by
  unfold headed
  split_ifs <;> rfl

@[simp] theorem headed_footer
    (w : PuffinWriter) :
    w.headed.footer = w.footer := by
  simp [footer]

@[simp] theorem headed_wroteHead
    (w : PuffinWriter) :
    w.headed.wroteHead = true := by
  unfold headed
  split_ifs with h
  · exact h
  · rfl

/-- A writer whose write has gone through or stopped midway. -/
def wrote (w : PuffinWriter) (bytes : Bytes) : PuffinWriter :=
  { w with inner := w.inner.append bytes }

/-- What a successful call does. -/
structure Added
    (w : PuffinWriter)
    (call : WriterCall)
    (t : PuffinWriter) : Prop where
  head : w.HeadReady
  fits :
    w.headed.inner.accepts call.blob.payload.length = true
  eq :
    t =
      { w.headed.wrote call.blob.payload with
        pos :=
          w.headed.pos + UInt64.ofNat call.blob.payload.length
        blobs := w.blobs ++ [call.metadata w.headed.pos] }

/-- What a failed call does: part of the head or of the payload is written. -/
def Failed
    (w : PuffinWriter)
    (call : WriterCall)
    (t : PuffinWriter) : Prop :=
  (¬ w.HeadReady ∧ t = w.wrote magic) ∨
    (w.HeadReady ∧
      w.headed.inner.accepts call.blob.payload.length = false ∧
      t = w.headed.wrote call.blob.payload)

section Calls

variable {E : PuffinError → PuffinWriter → Prop}

theorem writeAll_spec
    (w : PuffinWriter)
    (bytes : Bytes) :
    Ends (writeAll bytes) w
      (fun _ t =>
        w.inner.accepts bytes.length = true ∧ t = w.wrote bytes)
      (fun _ t =>
        w.inner.accepts bytes.length = false ∧
          t = w.wrote bytes) := by
  unfold Ends
  cases haccepts : w.inner.accepts bytes.length with
  | true =>
      have hrun : writeAll bytes w = .ok () (w.wrote bytes) := by
        simp [writeAll, haccepts, wrote]
      rw [hrun]
      exact ⟨rfl, rfl⟩
  | false =>
      have hrun :
          writeAll bytes w = .error .io (w.wrote bytes) := by
        simp [writeAll, haccepts, wrote]
      rw [hrun]
      exact ⟨rfl, rfl⟩

theorem ensureHead_spec
    (w : PuffinWriter) :
    Ends ensureHead w
      (fun _ t => w.HeadReady ∧ t = w.headed)
      (fun _ t => ¬ w.HeadReady ∧ t = w.wrote magic) := by
  unfold ensureHead
  refine Ends.get ?_
  cases hhead : w.wroteHead with
  | true =>
      rw [if_pos rfl]
      apply Ends.pure
      refine ⟨Or.inl hhead, ?_⟩
      rw [headed, if_pos hhead]
  | false =>
      rw [if_neg (by simp)]
      refine
        Ends.bind
          ((writeAll_spec w magic).mono (fun _ _ h => h) ?_) ?_
      · rintro _ t ⟨hrefused, rfl⟩
        refine ⟨?_, rfl⟩
        rw [HeadReady, hhead, hrefused]
        simp
      rintro _ t ⟨haccepts, rfl⟩
      refine ⟨Or.inr haccepts, ?_⟩
      simp [headed, hhead, wrote]

/-- One call, whichever way it ends. -/
theorem run_spec
    (w : PuffinWriter)
    (call : WriterCall) :
    Ends call.run w
      (fun _ t => w.Added call t)
      (fun _ t => w.Failed call t) := by
  have hadd :
      ∀ snapshotId sequenceNumber,
        (∀ offset,
          call.metadata offset =
            metadata call.blob snapshotId sequenceNumber offset) →
        Ends
          (addBlobForSnapshot call.blob snapshotId sequenceNumber) w
          (fun _ t => w.Added call t)
          (fun _ t => w.Failed call t) := by
    intro snapshotId sequenceNumber hmetadata
    unfold addBlobForSnapshot
    refine
      Ends.bind
        ((ensureHead_spec w).mono (fun _ _ h => h)
          (fun _ _ h => Or.inl h)) ?_
    rintro _ _ ⟨hready, rfl⟩
    refine Ends.get ?_
    refine
      Ends.bind
        ((writeAll_spec w.headed call.blob.payload).mono
          (fun _ _ h => h) (fun _ _ h => Or.inr ⟨hready, h⟩)) ?_
    rintro _ _ ⟨haccepts, rfl⟩
    refine ⟨hready, haccepts, ?_⟩
    rw [hmetadata]
    simp [wrote]
  cases call with
  | addBlob blob =>
      exact hadd (-1) (-1) (fun _ => rfl)
  | addBlobForSnapshot blob snapshotId sequenceNumber =>
      exact hadd snapshotId sequenceNumber (fun _ => rfl)

/-- A finished file ends in the serialized footer. -/
structure Finished
    (json : FooterJson)
    (w : PuffinWriter)
    (sink : Sink)
    (payload : Bytes) : Prop where
  head : w.HeadReady
  serialized : json.serialize w.footer = .ok payload
  small : payload.length ≤ u32Max
  written :
    sink.written = withFooter w.headed.inner.written payload

theorem finish_spec
    (json : FooterJson)
    (w : PuffinWriter) :
    Ends (finish json) w
      (fun sink _ => ∃ payload, Finished json w sink payload)
      (fun _ _ => True) := by
  have hwrite :
      ∀ (u : PuffinWriter) bytes,
        Ends (writeAll bytes) u
          (fun _ t =>
            t.inner.written = u.inner.written ++ bytes)
          (fun _ _ => True) := by
    intro u bytes
    refine (writeAll_spec u bytes).mono ?_ (fun _ _ _ => trivial)
    rintro _ t ⟨haccepts, rfl⟩
    exact Sink.append_written haccepts
  unfold finish
  refine
    Ends.bind
      ((ensureHead_spec w).mono (fun _ _ h => h)
        (fun _ _ _ => trivial)) ?_
  rintro _ _ ⟨hready, rfl⟩
  refine Ends.get ?_
  rw [headed_footer]
  cases hserialize : json.serialize w.footer with
  | error e =>
      exact Ends.throw trivial
  | ok payload =>
      simp only
      split_ifs with hlarge
      · exact Ends.throw trivial
      · refine Ends.bind (hwrite _ _) ?_
        intro _ t₁ h₁
        refine Ends.bind (hwrite _ _) ?_
        intro _ t₂ h₂
        refine Ends.bind (hwrite _ _) ?_
        intro _ t₃ h₃
        refine Ends.bind (hwrite _ _) ?_
        intro _ t₄ h₄
        refine Ends.bind (hwrite _ _) ?_
        intro _ t₅ h₅
        refine
          Ends.get
            (Ends.pure ⟨payload, hready, hserialize, ?_, ?_⟩)
        · omega
        · rw [h₅, h₄, h₃, h₂, h₁]
          simp only [withFooter, List.append_assoc]

end Calls

/-- The calls that returned `Ok`, in order. -/
def okSteps (steps : List WriterStep) : List WriterStep :=
  steps.filter WriterStep.ok

/--
A metadata entry against the call it came from: where the counter stood, and
what the sink held once the payload was there.
-/
structure Recorded
    (written : Bytes)
    (blob : BlobMetadata)
    (step : WriterStep) : Prop where
  metadata_eq :
    blob = step.call.metadata step.before.headed.pos
  length_eq : blob.length.toNat = step.call.blob.payload.length
  start : 4 ≤ step.before.headed.pos.toNat
  pos_le :
    step.before.headed.pos.toNat ≤
      step.before.headed.inner.written.length
  written_eq :
    ∃ rest,
      written =
        step.before.headed.inner.written ++
          step.call.blob.payload ++ rest

/-- The invariant of a run: the counter never passes the sink. -/
structure Tracks
    (w : PuffinWriter)
    (steps : List WriterStep) : Prop where
  bounded : w.inner.written.length ≤ capacity
  pos_le : w.pos.toNat ≤ w.inner.written.length
  unheaded : w.wroteHead = false → w.pos = 0
  headed : w.wroteHead = true → 4 ≤ w.pos.toNat
  recorded :
    List.Forall₂ (Recorded w.inner.written) w.blobs (okSteps steps)

section Runs

variable {w t : PuffinWriter} {steps : List WriterStep}

theorem Recorded.append
    {written : Bytes}
    {blob : BlobMetadata}
    {step : WriterStep}
    (h : Recorded written blob step)
    (more : Bytes) :
    Recorded (written ++ more) blob step := by
  obtain ⟨rest, hrest⟩ := h.written_eq
  refine { h with written_eq := ⟨rest ++ more, ?_⟩ }
  rw [hrest, List.append_assoc]

/-- A write that stops anywhere keeps the invariant. -/
theorem Tracks.wrote
    (h : w.Tracks steps)
    (bytes : Bytes) :
    (w.wrote bytes).Tracks steps := by
  obtain ⟨n, hn⟩ := w.inner.append_written_take bytes
  have hpos := h.pos_le
  refine
    { bounded := Sink.length_append_le h.bounded bytes
      pos_le := ?_
      unheaded := h.unheaded
      headed := h.headed
      recorded := ?_ }
  · simp only [PuffinWriter.wrote, hn, List.length_append]
    omega
  · refine h.recorded.imp fun blob step hrecorded => ?_
    simp only [PuffinWriter.wrote, hn]
    exact hrecorded.append _

/-- The counter moves without wrapping around. -/
theorem toNat_pos_add
    {pos : UInt64}
    {length : Nat}
    (h : pos.toNat + length ≤ capacity) :
    (pos + UInt64.ofNat length).toNat = pos.toNat + length := by
  have hcapacity : capacity < 2 ^ 64 := by decide
  have hle : length ≤ capacity := by
    omega
  have hlength : (UInt64.ofNat length).toNat = length :=
    toNat_ofNat_of_le (hle.trans (by decide))
  rw [UInt64.toNat_add, hlength]
  exact Nat.mod_eq_of_lt (by omega)

/-- Writing the head keeps the invariant. -/
theorem Tracks.headed_of_ready
    (h : w.Tracks steps)
    (hready : w.HeadReady) :
    w.headed.Tracks steps := by
  cases hhead : w.wroteHead with
  | true =>
      rw [PuffinWriter.headed, if_pos hhead]
      exact h
  | false =>
      have haccepts := hready.accepts hhead
      have hfits := Sink.add_le_of_accepts h.bounded haccepts
      have hwritten := Sink.append_written haccepts
      have hpos := h.pos_le
      have hzero := h.unheaded hhead
      have hmove :
          (w.pos + UInt64.ofNat magic.length).toNat =
            w.pos.toNat + magic.length :=
        toNat_pos_add (by omega)
      have hwrote := h.wrote magic
      rw [PuffinWriter.headed, if_neg (by simp [hhead])]
      refine
        { bounded := hwrote.bounded
          pos_le := ?_
          unheaded := ?_
          headed := ?_
          recorded := hwrote.recorded }
      · simp only [hwritten, List.length_append, hmove]
        omega
      · intro hcontra
        cases hcontra
      · intro _
        change 4 ≤ (w.pos + UInt64.ofNat magic.length).toNat
        rw [hmove, length_magic]
        omega

/-- One call, successful or not, keeps the invariant. -/
theorem Tracks.failed
    {call : WriterCall}
    (h : w.Tracks steps)
    (hfailed : w.Failed call t) :
    t.Tracks (steps ++ [⟨w, call, false⟩]) := by
  have hsame :
      okSteps (steps ++ [⟨w, call, false⟩]) = okSteps steps := by
    simp [okSteps]
  have ht : t.Tracks steps := by
    rcases hfailed with ⟨_, rfl⟩ | ⟨hready, _, rfl⟩
    · exact h.wrote magic
    · exact (h.headed_of_ready hready).wrote _
  refine { ht with recorded := ?_ }
  rw [hsame]
  exact ht.recorded

theorem Tracks.added
    {call : WriterCall}
    (h : w.Tracks steps)
    (hadded : w.Added call t) :
    t.Tracks (steps ++ [⟨w, call, true⟩]) := by
  have hheaded := h.headed_of_ready hadded.head
  have hfits :=
    Sink.add_le_of_accepts hheaded.bounded hadded.fits
  have hwritten := Sink.append_written hadded.fits
  have hwrote := hheaded.wrote call.blob.payload
  have hpos := hheaded.pos_le
  have hfour := hheaded.headed w.headed_wroteHead
  have hmove :
      (w.headed.pos +
          UInt64.ofNat call.blob.payload.length).toNat =
        w.headed.pos.toNat + call.blob.payload.length :=
    toNat_pos_add (by omega)
  have hlength :
      (UInt64.ofNat call.blob.payload.length).toNat =
        call.blob.payload.length := by
    have hle : call.blob.payload.length ≤ capacity := by
      omega
    exact toNat_ofNat_of_le (hle.trans (by decide))
  have hsteps :
      okSteps (steps ++ [⟨w, call, true⟩]) =
        okSteps steps ++ [⟨w, call, true⟩] := by
    simp [okSteps]
  rw [hadded.eq]
  refine
    { bounded := hwrote.bounded
      pos_le := ?_
      unheaded := ?_
      headed := ?_
      recorded := ?_ }
  · simp only [PuffinWriter.wrote, hwritten, List.length_append,
      hmove]
    omega
  · intro hcontra
    have hhead := w.headed_wroteHead
    rw [PuffinWriter.wrote] at hcontra
    rw [hhead] at hcontra
    cases hcontra
  · intro _
    simp only [hmove]
    omega
  · rw [hsteps]
    have hold := hwrote.recorded
    rw [show (w.headed.wrote call.blob.payload).blobs = w.blobs from
      w.headed_blobs] at hold
    refine List.rel_append hold (.cons ?_ .nil)
    refine
      { metadata_eq := rfl
        length_eq := ?_
        start := hfour
        pos_le := hpos
        written_eq := ⟨[], ?_⟩ }
    · cases call <;> exact hlength
    · simp only [PuffinWriter.wrote, hwritten, List.append_nil]

/-- How a run unfolds at its first call. -/
theorem runCalls_cons
    {call : WriterCall}
    {calls : List WriterCall}
    (h : runCalls w (call :: calls) = (steps, t)) :
    ∃ ok u rest,
      steps = ⟨w, call, ok⟩ :: rest ∧
      runCalls u calls = (rest, t) ∧
      (if ok then w.Added call u else w.Failed call u) := by
  have hspec := run_spec w call
  unfold Ends at hspec
  rw [runCalls] at h
  cases hrun : call.run w with
  | ok _ u =>
      rw [hrun] at h hspec
      obtain ⟨hsteps, ht⟩ := Prod.mk.inj h
      exact
        ⟨true, u, (runCalls u calls).1, hsteps.symm,
          Prod.ext rfl ht, hspec⟩
  | error _ u =>
      rw [hrun] at h hspec
      obtain ⟨hsteps, ht⟩ := Prod.mk.inj h
      exact
        ⟨false, u, (runCalls u calls).1, hsteps.symm,
          Prod.ext rfl ht, hspec⟩

/-- What every call preserves, with its step recorded, every run does. -/
theorem runCalls_preserves
    {P : List WriterStep → PuffinWriter → Prop}
    (hstep :
      ∀ {done w u call ok},
        P done w →
        (if ok then w.Added call u else w.Failed call u) →
        P (done ++ [⟨w, call, ok⟩]) u)
    {calls : List WriterCall}
    {done new : List WriterStep}
    (h : P done w)
    (hrun : runCalls w calls = (new, t)) :
    P (done ++ new) t := by
  induction calls generalizing w done new with
  | nil =>
      obtain ⟨rfl, rfl⟩ := Prod.mk.inj hrun
      rw [List.append_nil]
      exact h
  | cons call calls ih =>
      obtain ⟨ok, u, rest, rfl, hrest, hcall⟩ := runCalls_cons hrun
      have ht := ih (hstep h hcall) hrest
      rw [List.append_assoc] at ht
      exact ht

/-- The invariant holds after every run. -/
theorem Tracks.of_run
    {calls : List WriterCall}
    {done new : List WriterStep}
    (h : w.Tracks done)
    (hrun : runCalls w calls = (new, t)) :
    t.Tracks (done ++ new) := by
  refine runCalls_preserves (P := fun done w => w.Tracks done) ?_ h hrun
  intro done w u call ok h hcall
  cases ok with
  | true =>
      exact h.added hcall
  | false =>
      exact h.failed hcall

/-- What a fresh writer holds besides its properties. -/
theorem start_eq
    (inner : Sink)
    (properties : List (String × String)) :
    start inner properties =
      { new inner with
        properties := (start inner properties).properties } := by
  have hfold :
      ∀ (properties : List (String × String)) (w : PuffinWriter),
        properties.foldl
            (fun w property =>
              w.withFileProperty property.1 property.2) w =
          { w with
            properties :=
              (properties.foldl
                (fun w property =>
                  w.withFileProperty property.1 property.2)
                w).properties } := by
    intro properties
    induction properties with
    | nil =>
        intro w
        rfl
    | cons property properties ih =>
        intro w
        rw [List.foldl_cons, ih]
        rfl
  exact hfold properties (new inner)

/-- A fresh writer over an empty sink tracks the empty run. -/
theorem Tracks.start
    (faults : List (Option Nat))
    (properties : List (String × String)) :
    (start ⟨[], faults⟩ properties).Tracks [] := by
  rw [start_eq]
  constructor
  · exact Nat.zero_le _
  · exact Nat.le_refl _
  · intro _
    rfl
  · intro h
    cases h
  · exact .nil

end Runs

section Finishing

variable {w : PuffinWriter}

theorem headed_faults
    (h : w.inner.faults = []) :
    w.headed.inner.faults = [] := by
  unfold headed
  split_ifs
  · exact h
  · simp [Sink.append, h]

/-- With room for the footer `finish` returns the sink. -/
theorem finish_run
    {json : FooterJson}
    {payload : Bytes}
    (hfaults : w.inner.faults = [])
    (hready : w.HeadReady)
    (hserialized : json.serialize w.footer = .ok payload)
    (hsmall : payload.length ≤ u32Max)
    (hroom :
      (withFooter w.headed.inner.written payload).length ≤
        capacity) :
    ∃ sink t, finish json w = .ok sink t ∧
      sink.written = withFooter w.headed.inner.written payload := by
  have hwrite :
      ∀ (u : PuffinWriter) front bytes,
        u.inner.faults = [] →
        u.inner.written = front →
        (front ++ bytes).length ≤ capacity →
        Ends (writeAll bytes) u
          (fun _ t =>
            t.inner.faults = [] ∧ t.inner.written = front ++ bytes)
          (fun _ _ => False) := by
    rintro u _ bytes hfaults rfl hfits
    rw [List.length_append] at hfits
    have haccepts := Sink.accepts_of_fits hfaults hfits
    refine (writeAll_spec u bytes).mono ?_ ?_
    · rintro _ t ⟨_, rfl⟩
      refine ⟨?_, Sink.append_written haccepts⟩
      simp [wrote, Sink.append, hfaults]
    · rintro _ t ⟨hrefused, _⟩
      rw [haccepts] at hrefused
      cases hrefused
  have hspec :
      Ends (finish json) w
        (fun sink _ =>
          sink.written = withFooter w.headed.inner.written payload)
        (fun _ _ => False) := by
    unfold finish
    refine
      Ends.bind
        ((ensureHead_spec w).mono (fun _ _ h => h)
          (fun _ _ hnot => hnot.1 hready)) ?_
    rintro _ _ ⟨_, rfl⟩
    refine Ends.get ?_
    rw [headed_footer, hserialized]
    simp only
    rw [if_neg (by omega)]
    simp only [withFooter, ← List.append_assoc] at hroom ⊢
    simp only [List.length_append] at hroom
    refine
      Ends.bind
        (hwrite _ w.headed.inner.written _ (headed_faults hfaults)
          rfl ?_) ?_
    · simp only [List.length_append]
      omega
    rintro _ t₁ ⟨hfaults₁, h₁⟩
    refine Ends.bind (hwrite _ _ _ hfaults₁ h₁ ?_) ?_
    · simp only [List.length_append]
      omega
    rintro _ t₂ ⟨hfaults₂, h₂⟩
    refine Ends.bind (hwrite _ _ _ hfaults₂ h₂ ?_) ?_
    · simp only [List.length_append]
      omega
    rintro _ t₃ ⟨hfaults₃, h₃⟩
    refine Ends.bind (hwrite _ _ _ hfaults₃ h₃ ?_) ?_
    · simp only [List.length_append]
      omega
    rintro _ t₄ ⟨hfaults₄, h₄⟩
    refine Ends.bind (hwrite _ _ _ hfaults₄ h₄ ?_) ?_
    · simp only [List.length_append]
      omega
    rintro _ t₅ ⟨_, h₅⟩
    exact Ends.get (Ends.pure h₅)
  cases hrun : finish json w with
  | ok sink t =>
      rw [ends_of_ok hrun] at hspec
      exact ⟨sink, t, rfl, hspec⟩
  | error e t =>
      rw [ends_of_error hrun] at hspec
      exact hspec.elim

end Finishing

/-- A finished file whose footer the reader can take. -/
theorem accepts_finished_iff
    {json : FooterJson}
    (hjson : json.RoundTrips)
    {w : PuffinWriter}
    {steps : List WriterStep}
    (htracks : w.Tracks steps)
    {sink : Sink}
    {payload : Bytes}
    (h : Finished json w sink payload)
    {r : PuffinReader} :
    Accepts json sink.written r ↔
      r = ⟨w.footer, w.headed.inner.written.length⟩ ∧
      slice w.headed.inner.written 0 4 = magic ∧
      payload.length ≤ maxFooterLen ∧
      (okSteps steps).length ≤ maxBlobCount := by
  have hheaded := htracks.headed_of_ready h.head
  have hfour := hheaded.headed w.headed_wroteHead
  have hpos := hheaded.pos_le
  have hdecoded := hjson _ _ h.serialized
  have hcount : w.footer.blobs.length = (okSteps steps).length :=
    htracks.recorded.length_eq
  have hhead :
      slice sink.written 0 4 = slice w.headed.inner.written 0 4 := by
    rw [h.written]
    exact slice_append_left (by omega) _
  rw [← hhead]
  constructor
  · intro haccepts
    have hheadMagic := haccepts.head
    have hblobs := haccepts.count
    rw [h.written] at haccepts
    obtain ⟨hsmall, hfooter, hdata⟩ :=
      haccepts.of_withFooter h.small
    have hsame : w.footer = r.footer :=
      Except.ok.inj (hdecoded.symm.trans hfooter)
    refine ⟨?_, hheadMagic, hsmall, ?_⟩
    · rw [hsame, ← hdata]
    · rw [← hcount, hsame]
      exact hblobs
  · rintro ⟨rfl, hheadMagic, hsmall, hblobs⟩
    rw [h.written] at hheadMagic ⊢
    apply accepts_withFooter
    · rw [length_withFooter]
      omega
    · exact hsmall
    · exact hheadMagic
    · exact hdecoded
    · rw [hcount]
      exact hblobs

end PuffinWriter

/-- Bytes of failed writes that the counter does not see. -/
def WriterStep.stray (step : WriterStep) : Bytes :=
  step.before.headed.inner.written.drop step.before.headed.pos.toNat

/-- What lies at the recorded offset right after a call. -/
def WriterStep.recordedBytes (step : WriterStep) : Bytes :=
  slice
    (step.before.headed.inner.written ++ step.call.blob.payload)
    step.before.headed.pos.toNat step.call.blob.payload.length

namespace PuffinWriter

section Reading

variable
  {bytes front : Bytes}
  {r : PuffinReader}
  {idx : Nat}
  {blob : BlobMetadata}
  {step : WriterStep}

/-- A recorded blob is readable unless it is too long for the reader. -/
theorem Recorded.readable
    (h : Recorded front blob step)
    (hlisted : r.footer.blobs[idx]? = some blob)
    (hend : r.blobDataEnd = front.length)
    (hcapacity : front.length ≤ capacity)
    {rest : Bytes}
    (hbytes : bytes = front ++ rest)
    (hsmall : step.call.blob.payload.length ≤ maxBlobLen) :
    Readable bytes r idx blob step.recordedBytes := by
  obtain ⟨more, hfront⟩ := h.written_eq
  have hpos := h.pos_le
  have hlength := h.length_eq
  have hoffset : blob.offset = step.before.headed.pos := by
    rw [h.metadata_eq]
    cases step.call <;> rfl
  have hin :
      step.before.headed.pos.toNat +
          step.call.blob.payload.length ≤
        (step.before.headed.inner.written ++
          step.call.blob.payload).length := by
    rw [List.length_append]
    omega
  have hsize := congrArg List.length hfront
  rw [List.length_append] at hsize
  have hcap : capacity ≤ u64Max := by decide
  have hslice :
      slice bytes step.before.headed.pos.toNat
          step.call.blob.payload.length =
        step.recordedBytes := by
    rw [hbytes, hfront, List.append_assoc]
    exact slice_append_left hin _
  constructor
  · exact hlisted
  · omega
  · rw [hoffset, hlength]
    exact (hin.trans (by omega)).trans (hcapacity.trans hcap)
  · rw [hoffset]
    exact h.start
  · rw [hoffset, hlength, hend]
    omega
  · rw [hoffset, hlength, hslice]

/-- How reading a recorded blob ends. -/
theorem Recorded.readBlob_iff
    (h : Recorded front blob step)
    (hlisted : r.footer.blobs[idx]? = some blob)
    (hend : r.blobDataEnd = front.length)
    (hcapacity : front.length ≤ capacity)
    {rest : Bytes}
    (hbytes : bytes = front ++ rest)
    (position : Nat)
    {Q : Bytes → Prop}
    {E : Prop} :
    Ends (r.readBlob idx) ⟨bytes, position, []⟩
        (fun payload _ => Q payload) (fun _ _ => E) ↔
      if step.call.blob.payload.length ≤ maxBlobLen then
        Q step.recordedBytes
      else
        E := by
  have hle : r.blobDataEnd ≤ bytes.length := by
    rw [hend, hbytes, List.length_append]
    omega
  split_ifs with hsmall
  · obtain ⟨t, hrun⟩ :=
      (h.readable hlisted hend hcapacity hbytes hsmall).run hle
        position
    exact ends_of_ok hrun
  · have hnone :
        ∀ blob' payload, ¬ Readable bytes r idx blob' payload := by
      intro blob' payload hread
      have hsame := hlisted.symm.trans hread.listed
      rw [← Option.some.inj hsame] at hread
      have hlength := h.length_eq
      have hshort := hread.small
      omega
    obtain ⟨e, t, hrun⟩ := run_of_not_readable hnone hle position
    exact ends_of_error hrun

/-- Entries of two related lists at one index. -/
theorem exists_getElem?_of_forall₂
    {α β : Type}
    {R : α → β → Prop}
    {as : List α}
    {bs : List β}
    (h : List.Forall₂ R as bs)
    {i : Nat}
    {b : β}
    (hb : bs[i]? = some b) :
    ∃ a, as[i]? = some a ∧ R a b := by
  induction h generalizing i with
  | nil =>
      simp at hb
  | cons hab _ ih =>
      cases i with
      | zero =>
          obtain rfl : _ = b := by
            simpa using hb
          exact ⟨_, by simp, hab⟩
      | succ i =>
          simpa using ih (by simpa using hb)

/-- How reading a listed blob of a finished file ends. -/
theorem Tracks.readBlob_iff
    {json : FooterJson}
    {w : PuffinWriter}
    {steps : List WriterStep}
    (htracks : w.Tracks steps)
    {sink : Sink}
    {payload : Bytes}
    (hfinished : Finished json w sink payload)
    {i : Nat}
    {step : WriterStep}
    (hstep : (okSteps steps)[i]? = some step)
    (position : Nat)
    {Q : Bytes → Prop}
    {E : Prop} :
    Ends
        (PuffinReader.readBlob
          ⟨w.footer, w.headed.inner.written.length⟩ i)
        ⟨sink.written, position, []⟩
        (fun payload _ => Q payload) (fun _ _ => E) ↔
      if step.call.blob.payload.length ≤ maxBlobLen then
        Q step.recordedBytes
      else
        E := by
  have hheaded := htracks.headed_of_ready hfinished.head
  obtain ⟨blob, hlisted, hrecorded⟩ :=
    exists_getElem?_of_forall₂ hheaded.recorded hstep
  rw [headed_blobs] at hlisted
  exact
    hrecorded.readBlob_iff hlisted rfl hheaded.bounded
      hfinished.written position

/-- A payload is where the footer says if stray bytes do not displace it. -/
theorem recordedBytes_eq_iff
    {step : WriterStep}
    (h :
      step.before.headed.pos.toNat ≤
        step.before.headed.inner.written.length) :
    step.recordedBytes = step.call.blob.payload ↔
      step.call.blob.payload <+:
        step.stray ++ step.call.blob.payload := by
  have hslice :
      step.recordedBytes =
        (step.stray ++ step.call.blob.payload).take
          step.call.blob.payload.length := by
    unfold WriterStep.recordedBytes WriterStep.stray slice
    rw [List.drop_append_of_le_length h]
  rw [hslice, List.prefix_iff_eq_take]
  exact eq_comm

end Reading

end PuffinWriter

end Samkhya
