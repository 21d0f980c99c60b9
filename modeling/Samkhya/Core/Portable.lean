import Mathlib
import Samkhya.Core.EquiDepth
import Samkhya.Core.Hll
import Samkhya.Core.Puffin
import Samkhya.Core.Stats
import Samkhya.Foundations.KeyedRecords

/-!
# Portable statistics

Decompressed sketch payloads with their metadata, and the decoding that every
engine shares.  Blobs of unknown kinds are kept and ignored; known kinds fail
closed.

`validate` is a scan of keyed records: a known blob has its field and kind as
its key, unless it is refused (`scans_validateBlob`).  Decoding a column is
then the unique reading of what the blobs hold for it (`decodeColumn_eq_ok`),
which says nothing about their order.
-/

namespace Samkhya

open FieldCodec Binary64 KeyedRecords

/-- `HllSketch::KIND`. -/
def HllSketch.kind : String := "samkhya.hll-v1"

/-- `EquiDepthHistogram::KIND`. -/
def EquiDepthHistogram.kind : String :=
  "samkhya.histogram-equidepth-v1"

/-- What the portable decoding calls: serializers, floats and `Display`. -/
structure SketchCodecs where
  hll : Bincode HllFields
  histogram : Bincode EquiDepthHistogram
  display : F64 → String
  math : EstimateMath

/-- The errors of the source, as far as they are reached from here. -/
inductive PortableError
  | puffin (e : PuffinError)
  | sketch (e : Error)
  -- an unsigned subtraction went below zero
  | underflow
deriving DecidableEq

/-- One decompressed blob with its metadata. -/
structure PortableSketchBlob where
  kind : String
  fields : List Int32
  snapshotId : Option Int64
  sequenceNumber : Option Int64
  payload : Bytes
  properties : Properties

namespace PortableSketchBlob

/-- A blob without snapshot metadata. -/
def new
    (kind : String)
    (fields : List Int32)
    (payload : Bytes) : PortableSketchBlob where
  kind := kind
  fields := fields
  snapshotId := none
  sequenceNumber := none
  payload := payload
  properties := ∅

def withSnapshotMetadata
    (blob : PortableSketchBlob)
    (snapshotId sequenceNumber : Int64) : PortableSketchBlob :=
  { blob with
    snapshotId := some snapshotId
    sequenceNumber := some sequenceNumber }

def withProperties
    (blob : PortableSketchBlob)
    (properties : Properties) : PortableSketchBlob :=
  { blob with properties := properties }

end PortableSketchBlob

/-- Blobs associated with one table snapshot. -/
structure PortableStatsSnapshot where
  snapshotId : Option Int64
  blobs : List PortableSketchBlob

/-- The supported sketches of one column. -/
structure DecodedColumnStats where
  fieldId : Int32
  stats : ColumnStats
  hll : Option HllSketch
  histogram : Option EquiDepthHistogram

/-- Whether a kind has a typed, single-column projection. -/
def isSupportedColumnKind (kind : String) : Bool :=
  kind = HllSketch.kind || kind = EquiDepthHistogram.kind

/-- Decode a known payload and drop the result. -/
def decodeKnown
    (c : SketchCodecs)
    (blob : PortableSketchBlob) : Except PortableError Unit :=
  if blob.kind = HllSketch.kind then
    match HllSketch.fromBytes c.hll blob.payload with
    | .ok _ => .ok ()
    | .error e => .error (.sketch e)
  else if blob.kind = EquiDepthHistogram.kind then
    match
      EquiDepthHistogram.fromBytes c.display c.histogram blob.payload
    with
    | .ok _ => .ok ()
    | .error e => .error (.sketch e)
  else
    .ok ()

namespace PortableStatsSnapshot

/-- One round of `validate`: the keys seen so far, and the next blob. -/
def validateBlob
    (c : SketchCodecs)
    (seen : List (Int32 × String))
    (blob : PortableSketchBlob) :
    Except PortableError (List (Int32 × String)) :=
  if isSupportedColumnKind blob.kind then
    match blob.fields with
    | [fieldId] =>
        if fieldId < 0 then
          .error
            (.puffin
              (.invalidPuffin
                (blob.kind ++ " carries negative field id " ++
                  toString fieldId)))
        else if (fieldId, blob.kind) ∈ seen then
          .error
            (.puffin
              (.invalidPuffin
                ("duplicate " ++ blob.kind ++ " blob for field " ++
                  toString fieldId)))
        else
          match decodeKnown c blob with
          | .error e => .error e
          | .ok () => .ok ((fieldId, blob.kind) :: seen)
    | fields =>
        .error
          (.puffin
            (.invalidPuffin
              (blob.kind ++ " requires exactly one field id; got " ++
                toString fields)))
  else
    .ok seen

/-- Validate known single-column kinds and decode their payloads. -/
def validate
    (c : SketchCodecs)
    (s : PortableStatsSnapshot) : Except PortableError Unit := do
  let _ ← s.blobs.foldlM (validateBlob c) []
  pure ()

/-- One round of the decoding loop; a later blob replaces an earlier one. -/
def decodeBlob
    (c : SketchCodecs)
    (found : Option HllSketch × Option EquiDepthHistogram)
    (blob : PortableSketchBlob) :
    Except PortableError
      (Option HllSketch × Option EquiDepthHistogram) :=
  if blob.kind = HllSketch.kind then
    match HllSketch.fromBytes c.hll blob.payload with
    | .ok hll => .ok (some hll, found.2)
    | .error e => .error (.sketch e)
  else if blob.kind = EquiDepthHistogram.kind then
    match
      EquiDepthHistogram.fromBytes c.display c.histogram blob.payload
    with
    | .ok histogram => .ok (found.1, some histogram)
    | .error e => .error (.sketch e)
  else
    .ok found

/-- What the sketches found for a column are handed on as. -/
def assemble
    (c : SketchCodecs)
    (fieldId : Int32)
    (found : Option HllSketch × Option EquiDepthHistogram) :
    Option DecodedColumnStats :=
  if found.1.isNone && found.2.isNone then
    none
  else
    some
      { fieldId := fieldId
        stats :=
          match found.1 with
          | none => .new
          | some hll =>
              ColumnStats.new.withDistinctCount (hll.estimate c.math)
        hll := found.1
        histogram := found.2 }

/-- Decode the supported sketches for one field id. -/
def decodeColumn
    (c : SketchCodecs)
    (s : PortableStatsSnapshot)
    (fieldId : Int32) :
    Except PortableError (Option DecodedColumnStats) :=
  if fieldId < 0 then
    .error
      (.puffin
        (.invalidPuffin
          ("field id must be non-negative; got " ++
            toString fieldId)))
  else do
    s.validate c
    let found ←
      (s.blobs.filter (fun blob => blob.fields = [fieldId])).foldlM
        (decodeBlob c) (none, none)
    pure (assemble c fieldId found)

/-- The blobs that are decoded rather than ignored. -/
def known (blob : PortableSketchBlob) : Bool :=
  isSupportedColumnKind blob.kind

/-- Field and kind of a known blob, unless it is refused. -/
def blobKey
    (c : SketchCodecs)
    (blob : PortableSketchBlob) : Option (Int32 × String) :=
  match blob.fields with
  | [fieldId] =>
      if fieldId < 0 then
        none
      else
        match decodeKnown c blob with
        | .error _ => none
        | .ok () => some (fieldId, blob.kind)
  | _ => none

section Validate

variable {c : SketchCodecs} {blob : PortableSketchBlob}

theorem blobKey_eq_some
    {fieldId : Int32}
    {kind : String} :
    blobKey c blob = some (fieldId, kind) ↔
      blob.fields = [fieldId] ∧ ¬ fieldId < 0 ∧
        decodeKnown c blob = .ok () ∧ blob.kind = kind := by
  unfold blobKey
  split
  · rename_i fieldId' hfields
    rw [hfields, List.singleton_inj]
    by_cases hneg : fieldId' < 0
    · rw [if_pos hneg]
      constructor
      · intro h
        cases h
      · rintro ⟨rfl, hnonneg, _⟩
        exact absurd hneg hnonneg
    · rw [if_neg hneg]
      cases hdecode : decodeKnown c blob with
      | error e => simp
      | ok u =>
          simp only [Option.some.injEq, Prod.mk.injEq]
          constructor
          · rintro ⟨rfl, rfl⟩
            exact ⟨rfl, hneg, trivial, rfl⟩
          · rintro ⟨rfl, _, _, rfl⟩
            exact ⟨rfl, rfl⟩
  · rename_i hfields
    constructor
    · intro h
      cases h
    · rintro ⟨hone, _⟩
      exact absurd hone (hfields fieldId)

/-- A refused blob: too many fields, a negative one, or a bad payload. -/
theorem blobKey_eq_none :
    blobKey c blob = none ↔
      (∃ e, decodeKnown c blob = .error e) ∨
        (∀ fieldId, blob.fields ≠ [fieldId]) ∨
        ∃ fieldId, blob.fields = [fieldId] ∧ fieldId < 0 := by
  constructor
  · intro hnone
    cases hdecode : decodeKnown c blob with
    | error e =>
        exact Or.inl ⟨e, rfl⟩
    | ok u =>
        refine Or.inr ?_
        by_cases hone : ∃ fieldId, blob.fields = [fieldId]
        · obtain ⟨fieldId, hfields⟩ := hone
          refine Or.inr ⟨fieldId, hfields, ?_⟩
          by_contra hnonneg
          have hsome : blobKey c blob = some (fieldId, blob.kind) :=
            blobKey_eq_some.mpr ⟨hfields, hnonneg, hdecode, rfl⟩
          rw [hnone] at hsome
          cases hsome
        · push Not at hone
          exact Or.inl hone
  · intro hbad
    rw [Option.eq_none_iff_forall_ne_some]
    rintro ⟨fieldId, kind⟩ hkey
    obtain ⟨hfields, hnonneg, hdecode, _⟩ := blobKey_eq_some.mp hkey
    rcases hbad with ⟨e, he⟩ | hmany | ⟨fieldId', hfields', hneg⟩
    · rw [hdecode] at he
      cases he
    · exact hmany fieldId hfields
    · rw [hfields, List.singleton_inj] at hfields'
      rw [hfields'] at hnonneg
      exact hnonneg hneg

/-- `validate` is a scan of keyed records. -/
theorem scans_validateBlob
    (c : SketchCodecs) :
    Scans known (blobKey c) (validateBlob c) where
  skipped := by
    intro seen blob hskip
    have hkind : isSupportedColumnKind blob.kind = false := hskip
    rw [validateBlob, hkind]
    rfl
  refused := by
    intro seen blob hread hnone
    have hkind : isSupportedColumnKind blob.kind = true := hread
    rw [validateBlob, if_pos hkind]
    unfold blobKey at hnone
    split
    · rename_i fieldId hfields
      simp only [hfields] at hnone
      split_ifs at hnone ⊢
      · exact ⟨_, rfl⟩
      · exact ⟨_, rfl⟩
      · cases hdecode : decodeKnown c blob with
        | error e => exact ⟨e, rfl⟩
        | ok u => simp [hdecode] at hnone
    · exact ⟨_, rfl⟩
  repeated := by
    rintro seen blob ⟨fieldId, kind⟩ hread hkey hseen
    have hkind : isSupportedColumnKind blob.kind = true := hread
    obtain ⟨hfields, hnonneg, _, rfl⟩ := blobKey_eq_some.mp hkey
    simp only [validateBlob, if_pos hkind, hfields, if_neg hnonneg,
      if_pos hseen]
    exact ⟨_, rfl⟩
  fresh := by
    rintro seen blob ⟨fieldId, kind⟩ hread hkey hseen
    have hkind : isSupportedColumnKind blob.kind = true := hread
    obtain ⟨hfields, hnonneg, hdecode, rfl⟩ :=
      blobKey_eq_some.mp hkey
    simp only [validateBlob, if_pos hkind, hfields, if_neg hnonneg,
      if_neg hseen, hdecode]

/-- Validation passes exactly for clean lists of blobs. -/
theorem validate_isOk_iff
    (s : PortableStatsSnapshot) :
    s.validate c = .ok () ↔ Clean known (blobKey c) s.blobs := by
  rw [← (scans_validateBlob c).ok_iff]
  unfold validate
  cases s.blobs.foldlM (validateBlob c) [] with
  | error e =>
      constructor
      · intro h
        cases h
      · rintro ⟨seen, h⟩
        cases h
  | ok seen =>
      exact ⟨fun _ => ⟨seen, rfl⟩, fun _ => rfl⟩

end Validate

section Slots

variable {β : Type}

/-- A slot holds what some blob of its kind decodes to. -/
def Slot
    (kind : String)
    (decode : Bytes → Except Error β)
    (blobs : List PortableSketchBlob)
    (x : Option β) : Prop :=
  ∀ s,
    x = some s ↔
      ∃ blob ∈ blobs,
        blob.kind = kind ∧ decode blob.payload = .ok s

variable
  {kind : String}
  {decode : Bytes → Except Error β}
  {blobs blobs' : List PortableSketchBlob}
  {blob : PortableSketchBlob}
  {x x' : Option β}

/-- What a list holds does not depend on how it was found. -/
theorem Slot.unique
    (h : Slot kind decode blobs x)
    (h' : Slot kind decode blobs' x')
    (hsame :
      ∀ blob, blob.kind = kind → (blob ∈ blobs ↔ blob ∈ blobs')) :
    x = x' := by
  apply Option.ext
  intro s
  rw [h s, h' s]
  constructor
  · rintro ⟨blob, hmem, hkind, hdecode⟩
    exact ⟨blob, (hsame blob hkind).mp hmem, hkind, hdecode⟩
  · rintro ⟨blob, hmem, hkind, hdecode⟩
    exact ⟨blob, (hsame blob hkind).mpr hmem, hkind, hdecode⟩

theorem Slot.nil :
    Slot kind decode [] none := by
  simp [Slot]

/-- A blob of another kind leaves a slot alone. -/
theorem Slot.skip
    (h : Slot kind decode blobs x)
    (hkind : blob.kind ≠ kind) :
    Slot kind decode (blobs ++ [blob]) x := by
  intro s
  rw [h s]
  constructor
  · rintro ⟨other, hmem, hother⟩
    exact ⟨other, List.mem_append_left _ hmem, hother⟩
  · rintro ⟨other, hmem, hother, hdecode⟩
    rcases List.mem_append.mp hmem with hmem | hmem
    · exact ⟨other, hmem, hother, hdecode⟩
    · rw [List.mem_singleton.mp hmem] at hother
      exact absurd hother hkind

/-- The only blob of a kind fills its slot. -/
theorem Slot.store
    {s : β}
    (hkind : blob.kind = kind)
    (hdecode : decode blob.payload = .ok s)
    (honly : ∀ other ∈ blobs, other.kind = kind → other = blob) :
    Slot kind decode (blobs ++ [blob]) (some s) := by
  intro t
  rw [Option.some.injEq]
  constructor
  · rintro rfl
    exact ⟨blob, by simp, hkind, hdecode⟩
  · rintro ⟨other, hmem, hother, hdecode'⟩
    have hsame : other = blob := by
      rcases List.mem_append.mp hmem with hmem | hmem
      · exact honly other hmem hother
      · exact List.mem_singleton.mp hmem
    rw [hsame, hdecode] at hdecode'
    exact Except.ok.inj hdecode'

end Slots

/-- Both sketches that a list of blobs holds. -/
structure Holds
    (c : SketchCodecs)
    (blobs : List PortableSketchBlob)
    (found : Option HllSketch × Option EquiDepthHistogram) :
    Prop where
  hll :
    Slot HllSketch.kind (HllSketch.fromBytes c.hll) blobs found.1
  histogram :
    Slot EquiDepthHistogram.kind
      (EquiDepthHistogram.fromBytes c.display c.histogram) blobs
      found.2

section Decode

variable
  {c : SketchCodecs}
  {blobs blobs' : List PortableSketchBlob}
  {found found' : Option HllSketch × Option EquiDepthHistogram}

theorem kinds_ne : HllSketch.kind ≠ EquiDepthHistogram.kind := by
  decide

theorem Holds.unique
    (h : Holds c blobs found)
    (h' : Holds c blobs' found')
    (hsame :
      ∀ blob, known blob = true → (blob ∈ blobs ↔ blob ∈ blobs')) :
    found = found' := by
  refine Prod.ext ?_ ?_
  · refine h.hll.unique h'.hll fun blob hkind => hsame blob ?_
    simp [known, isSupportedColumnKind, hkind]
  · refine h.histogram.unique h'.histogram fun blob hkind =>
      hsame blob ?_
    simp [known, isSupportedColumnKind, hkind]

/-- One round keeps what the blobs so far hold. -/
theorem Holds.decodeBlob
    {blob : PortableSketchBlob}
    (h : Holds c blobs found)
    (hdecode : decodeKnown c blob = .ok ())
    (honly :
      ∀ other ∈ blobs, known blob = true → other.kind = blob.kind →
        other = blob) :
    ∃ found',
      decodeBlob c found blob = .ok found' ∧
        Holds c (blobs ++ [blob]) found' := by
  unfold PortableStatsSnapshot.decodeBlob
  unfold decodeKnown at hdecode
  by_cases hhll : blob.kind = HllSketch.kind
  · rw [if_pos hhll] at hdecode ⊢
    have hknown : known blob = true := by
      simp [known, isSupportedColumnKind, hhll]
    cases hread : HllSketch.fromBytes c.hll blob.payload with
    | error e =>
        rw [hread] at hdecode
        cases hdecode
    | ok hll =>
        refine ⟨_, rfl, ⟨?_, ?_⟩⟩
        · refine Slot.store hhll hread fun other hmem hother => ?_
          exact honly other hmem hknown (hother.trans hhll.symm)
        · exact h.histogram.skip (by rw [hhll]; exact kinds_ne)
  · rw [if_neg hhll] at hdecode ⊢
    by_cases hequi : blob.kind = EquiDepthHistogram.kind
    · rw [if_pos hequi] at hdecode ⊢
      have hknown : known blob = true := by
        simp [known, isSupportedColumnKind, hequi]
      cases hread :
          EquiDepthHistogram.fromBytes c.display c.histogram
            blob.payload with
      | error e =>
          rw [hread] at hdecode
          cases hdecode
      | ok histogram =>
          refine ⟨_, rfl, ⟨?_, ?_⟩⟩
          · exact h.hll.skip hhll
          · refine Slot.store hequi hread fun other hmem hother => ?_
            exact honly other hmem hknown (hother.trans hequi.symm)
    · rw [if_neg hequi]
      exact ⟨found, rfl, h.hll.skip hhll, h.histogram.skip hequi⟩

/-- The decoding loop finds what the blobs hold. -/
theorem exists_foldlM_decodeBlob
    (hdecode : ∀ blob ∈ blobs, decodeKnown c blob = .ok ())
    (honly :
      ∀ a ∈ blobs, ∀ b ∈ blobs, known b = true → a.kind = b.kind →
        a = b) :
    ∃ found,
      blobs.foldlM (PortableStatsSnapshot.decodeBlob c) (none, none) =
          .ok found ∧
        Holds c blobs found := by
  induction blobs using List.reverseRecOn with
  | nil =>
      exact ⟨_, rfl, Slot.nil, Slot.nil⟩
  | append_singleton blobs blob ih =>
      obtain ⟨found, hrun, hfound⟩ :=
        ih
          (fun b hb => hdecode b (List.mem_append_left _ hb))
          (fun a ha b hb =>
            honly a (List.mem_append_left _ ha) b
              (List.mem_append_left _ hb))
      obtain ⟨found', hstep, hfound'⟩ :=
        hfound.decodeBlob (hdecode blob (by simp))
          (fun other hmem =>
            honly other (List.mem_append_left _ hmem) blob (by simp))
      refine ⟨found', ?_, hfound'⟩
      rw [List.foldlM_append, hrun]
      change (decodeBlob c found blob >>= pure) = _
      rw [hstep]
      rfl

/-- An ignored payload is never refused. -/
theorem decodeKnown_of_not_known
    {blob : PortableSketchBlob}
    (h : known blob = false) :
    decodeKnown c blob = .ok () := by
  simp only [known, isSupportedColumnKind, Bool.or_eq_false_iff,
    decide_eq_false_iff_not] at h
  rw [decodeKnown, if_neg h.1, if_neg h.2]

/-- Decoding a column of a clean list gives what the list holds for it. -/
theorem decodeColumn_of_clean
    {s : PortableStatsSnapshot}
    {fieldId : Int32}
    (hfield : 0 ≤ fieldId)
    (hclean : Clean known (blobKey c) s.blobs) :
    ∃ found,
      s.decodeColumn c fieldId = .ok (assemble c fieldId found) ∧
        Holds c
          (s.blobs.filter (fun blob => blob.fields = [fieldId]))
          found := by
  have hkey :
      ∀ blob ∈ s.blobs, known blob = true →
        blob.fields = [fieldId] →
        blobKey c blob = some (fieldId, blob.kind) := by
    intro blob hmem hknown hfields
    cases hkey : blobKey c blob with
    | none => exact absurd hkey (hclean.keyed blob hmem hknown)
    | some k =>
        obtain ⟨hfields', _, _, hkind⟩ := blobKey_eq_some.mp hkey
        rw [hfields, List.singleton_inj] at hfields'
        rw [hfields', hkind]
  obtain ⟨found, hrun, hfound⟩ :=
    @exists_foldlM_decodeBlob c
      (s.blobs.filter (fun blob => blob.fields = [fieldId]))
      (by
        intro blob hmem
        rw [List.mem_filter, decide_eq_true_eq] at hmem
        by_cases hknown : known blob = true
        · have hsome := hkey blob hmem.1 hknown hmem.2
          exact (blobKey_eq_some.mp hsome).2.2.1
        · exact
            decodeKnown_of_not_known
              (Bool.eq_false_iff.mpr hknown))
      (by
        intro a ha b hb hknown hkind
        rw [List.mem_filter, decide_eq_true_eq] at ha hb
        have hknown' : known a = true := by
          rw [known, hkind]
          exact hknown
        apply hclean.eq_of_key ha.1 hb.1 hknown' hknown
        rw [hkey a ha.1 hknown' ha.2, hkey b hb.1 hknown hb.2,
          hkind])
  refine ⟨found, ?_, hfound⟩
  rw [decodeColumn, if_neg (Int32.not_lt.mpr hfield),
    (validate_isOk_iff s).mpr hclean]
  change (_ >>= fun found => _) = _
  rw [hrun]
  rfl

/-- A list that is not clean is refused. -/
theorem decodeColumn_of_not_clean
    {s : PortableStatsSnapshot}
    (fieldId : Int32)
    (hclean : ¬ Clean known (blobKey c) s.blobs) :
    ∃ e, s.decodeColumn c fieldId = .error e := by
  rw [decodeColumn]
  split_ifs with hneg
  · exact ⟨_, rfl⟩
  · cases hvalid : s.validate c with
    | error e => exact ⟨e, rfl⟩
    | ok u => exact absurd ((validate_isOk_iff s).mp hvalid) hclean

/--
Lists with the same known blobs in any order, whatever unknown ones they hold
besides.
-/
def SameKnown (blobs blobs' : List PortableSketchBlob) : Prop :=
  (blobs.filter known).Perm (blobs'.filter known)

theorem SameKnown.of_perm
    (h : blobs.Perm blobs') :
    SameKnown blobs blobs' :=
  h.filter known

/-- A blob of an unknown kind may come and go anywhere. -/
theorem SameKnown.insert
    {blob : PortableSketchBlob}
    (hunknown : known blob = false)
    (left right : List PortableSketchBlob) :
    SameKnown (left ++ right) (left ++ blob :: right) := by
  simp [SameKnown, hunknown]

theorem SameKnown.mem_iff
    (h : SameKnown blobs blobs')
    {blob : PortableSketchBlob}
    (hknown : known blob = true) :
    blob ∈ blobs ↔ blob ∈ blobs' := by
  have hmem : blob ∈ blobs.filter known ↔ blob ∈ blobs'.filter known :=
    List.Perm.mem_iff h
  simpa [List.mem_filter, hknown] using hmem

/-- The outcome of decoding, whatever the order and the unknown blobs. -/
theorem SameKnown.decodeColumn_eq
    (h : SameKnown blobs blobs')
    (snapshotId snapshotId' : Option Int64)
    (fieldId : Int32) :
    (decodeColumn c ⟨snapshotId, blobs⟩ fieldId).toOption =
      (decodeColumn c ⟨snapshotId', blobs'⟩ fieldId).toOption := by
  by_cases hfield : fieldId < 0
  · rw [decodeColumn, decodeColumn, if_pos hfield, if_pos hfield]
  rw [Int32.not_lt] at hfield
  by_cases hclean : Clean known (blobKey c) blobs
  · obtain ⟨found, hrun, hfound⟩ :=
      decodeColumn_of_clean (s := ⟨snapshotId, blobs⟩) hfield hclean
    obtain ⟨found', hrun', hfound'⟩ :=
      decodeColumn_of_clean (s := ⟨snapshotId', blobs'⟩) hfield
        (hclean.of_perm h)
    have hsame : found = found' := by
      refine hfound.unique hfound' fun blob hknown => ?_
      rw [List.mem_filter, List.mem_filter, h.mem_iff hknown]
    rw [hrun, hrun', hsame]
  · have hclean' : ¬ Clean known (blobKey c) blobs' :=
      fun hclean' => hclean (hclean'.of_perm h.symm)
    obtain ⟨e, hrun⟩ :=
      decodeColumn_of_not_clean (s := ⟨snapshotId, blobs⟩) fieldId
        hclean
    obtain ⟨e', hrun'⟩ :=
      decodeColumn_of_not_clean (s := ⟨snapshotId', blobs'⟩) fieldId
        hclean'
    rw [hrun, hrun']
    rfl

/--
Some known blob has a payload its decoder rejects, does not name exactly one
field, names a negative one, or repeats the kind and field of another blob.
-/
def Malformed
    (c : SketchCodecs)
    (blobs : List PortableSketchBlob) : Prop :=
  ∃ (i : Nat) (blob : PortableSketchBlob),
    blobs[i]? = some blob ∧
    isSupportedColumnKind blob.kind = true ∧
    ((∃ e, decodeKnown c blob = .error e) ∨
      (∀ fieldId, blob.fields ≠ [fieldId]) ∨
      (∃ fieldId, blob.fields = [fieldId] ∧ fieldId < 0) ∨
      ∃ (j : Nat) (other : PortableSketchBlob) (fieldId : Int32),
        j ≠ i ∧ blobs[j]? = some other ∧
        other.kind = blob.kind ∧
        other.fields = [fieldId] ∧ blob.fields = [fieldId])

/-- The blobs that are malformed are those that are not clean. -/
theorem malformed_iff :
    Malformed c blobs ↔ ¬ Clean known (blobKey c) blobs := by
  rw [not_clean_iff]
  constructor
  · rintro ⟨i, blob, hi, hknown, hbad⟩
    by_cases hnone : blobKey c blob = none
    · exact ⟨i, blob, hi, hknown, Or.inl hnone⟩
    · have hgood := mt blobKey_eq_none.mpr hnone
      rcases hbad with hbad | hbad | hbad |
        ⟨j, other, fieldId, hij, hj, hkind, hother, hfields⟩
      · exact absurd (Or.inl hbad) hgood
      · exact absurd (Or.inr (Or.inl hbad)) hgood
      · exact absurd (Or.inr (Or.inr hbad)) hgood
      · have hknown' : known other = true := by
          rw [known, hkind]
          exact hknown
        -- a repeated blob may itself be the one that is refused
        by_cases hnone' : blobKey c other = none
        · exact ⟨j, other, hj, hknown', Or.inl hnone'⟩
        · obtain ⟨⟨f, k⟩, hkey⟩ :=
            Option.ne_none_iff_exists'.mp hnone
          obtain ⟨⟨f', k'⟩, hkey'⟩ :=
            Option.ne_none_iff_exists'.mp hnone'
          refine
            ⟨i, blob, hi, hknown,
              Or.inr ⟨j, other, hij, hj, hknown', ?_⟩⟩
          obtain ⟨hf, _, _, hk⟩ := blobKey_eq_some.mp hkey
          obtain ⟨hf', _, _, hk'⟩ := blobKey_eq_some.mp hkey'
          rw [hfields, List.singleton_inj] at hf
          rw [hother, List.singleton_inj] at hf'
          rw [hkey, hkey', ← hf, ← hf', ← hk, ← hk', hkind]
  · rintro ⟨i, blob, hi, hknown, hnone |
      ⟨j, other, hij, hj, hknown', hkey⟩⟩
    · refine ⟨i, blob, hi, hknown, ?_⟩
      rcases blobKey_eq_none.mp hnone with hbad | hbad | hbad
      · exact Or.inl hbad
      · exact Or.inr (Or.inl hbad)
      · exact Or.inr (Or.inr (Or.inl hbad))
    · cases hblob : blobKey c blob with
      | none =>
          refine ⟨i, blob, hi, hknown, ?_⟩
          rcases blobKey_eq_none.mp hblob with hbad | hbad | hbad
          · exact Or.inl hbad
          · exact Or.inr (Or.inl hbad)
          · exact Or.inr (Or.inr (Or.inl hbad))
      | some k =>
          rw [hblob] at hkey
          obtain ⟨hf, _, _, hk⟩ := blobKey_eq_some.mp hblob
          obtain ⟨hf', _, _, hk'⟩ := blobKey_eq_some.mp hkey
          exact
            ⟨i, blob, hi, hknown,
              Or.inr
                (Or.inr
                  (Or.inr
                    ⟨j, other, k.1, hij, hj, hk'.trans hk.symm, hf',
                      hf⟩))⟩

/-- Decoding fails exactly for malformed lists. -/
theorem decodeColumn_error_iff
    (s : PortableStatsSnapshot)
    {fieldId : Int32}
    (hfield : 0 ≤ fieldId) :
    (∃ e, s.decodeColumn c fieldId = .error e) ↔
      Malformed c s.blobs := by
  rw [malformed_iff]
  constructor
  · rintro ⟨e, he⟩ hclean
    obtain ⟨found, hrun, _⟩ := decodeColumn_of_clean hfield hclean
    rw [hrun] at he
    cases he
  · exact decodeColumn_of_not_clean fieldId

end Decode

section Panics

variable {α β : Type} {x : Except PortableError α}

/-- The source would panic rather than return an error. -/
def Panics (x : Except PortableError α) : Prop :=
  x = .error .underflow

theorem not_panics_bind
    {f : α → Except PortableError β}
    (hx : ¬ Panics x)
    (hf : ∀ a, x = .ok a → ¬ Panics (f a)) :
    ¬ Panics (x >>= f) := by
  cases x with
  | error e =>
      intro h
      exact hx (congrArg Except.error (Except.error.inj h))
  | ok a =>
      exact hf a rfl

theorem not_panics_foldlM
    {f : β → α → Except PortableError β}
    (hf : ∀ b a, ¬ Panics (f b a))
    (l : List α)
    (b : β) :
    ¬ Panics (l.foldlM f b) := by
  induction l generalizing b with
  | nil =>
      intro h
      cases h
  | cons a l ih =>
      rw [List.foldlM_cons]
      exact not_panics_bind (hf b a) fun b' _ => ih b'

variable (c : SketchCodecs)

theorem not_panics_decodeKnown
    (blob : PortableSketchBlob) :
    ¬ Panics (decodeKnown c blob) := by
  unfold decodeKnown Panics
  split_ifs
  · split <;> simp
  · split <;> simp
  · simp

theorem not_panics_validate
    (s : PortableStatsSnapshot) :
    ¬ Panics (s.validate c) := by
  refine not_panics_bind (not_panics_foldlM ?_ _ _) fun _ _ => ?_
  · intro seen blob
    unfold validateBlob
    split_ifs
    · split
      · split_ifs
        · simp [Panics]
        · simp [Panics]
        · have hknown := not_panics_decodeKnown c blob
          split
          · rename_i e he
            rw [he] at hknown
            intro h
            exact hknown (congrArg Except.error (Except.error.inj h))
          · simp [Panics]
      · simp [Panics]
    · simp [Panics]
  · intro h
    cases h

theorem not_panics_decodeColumn
    (s : PortableStatsSnapshot)
    (fieldId : Int32) :
    ¬ Panics (s.decodeColumn c fieldId) := by
  unfold decodeColumn
  split_ifs
  · simp [Panics]
  · refine not_panics_bind (not_panics_validate c s) fun _ _ => ?_
    refine not_panics_bind (not_panics_foldlM ?_ _ _) fun _ _ => ?_
    · intro found blob
      unfold decodeBlob Panics
      split_ifs
      · split <;> simp
      · split <;> simp
      · simp
    · intro h
      cases h

end Panics

end PortableStatsSnapshot

end Samkhya
