import Mathlib
import Samkhya.Cli.Workspace

/-!
# Loading what was verified

`samkhya puffin verify` and the loader of table statistics look at the same
files in their own ways.  `verify` reads and decodes every blob but does not ask
what columns and snapshots they belong to; the loader asks that of the kinds it
knows, and decodes these.

So a set of verified files is loaded exactly when its metadata are consistent
(`verified_loads_iff`), and what `samkhya puffin pack` writes never is, as soon
as it has a blob that the loader knows: it names no field.
-/

namespace Samkhya
namespace Cli

open FieldCodec ByteDevice KeyedRecords PortableStatsSnapshot Loader

/-- The decoders of the loader, from those of the commands. -/
def Host.codecs
    {π : Type}
    (host : Host π)
    (math : EstimateMath) : SketchCodecs where
  hll := .ofCodec HllFields.codec
  histogram := .ofCodec EquiDepthHistogram.codec
  display := host.sizing.display
  math := math

/-- The field and the kind of a blob that belongs to one field. -/
def fieldKey (blob : SidecarBlob) : Option (Int32 × String) :=
  match blob.fields with
  | [fieldId] => if fieldId < 0 then none else some (fieldId, blob.kind)
  | _ => none

/-- The version and the snapshots of a file are what the loader expects. -/
structure Consistent
    (snapshotId : Option Int64)
    (view : Sidecar) : Prop where
  version : validateSamkhyaSchemaVersion view.version = .ok ()
  snapshot :
    ∀ blob ∈ view.blobs.filter SidecarBlob.known,
      validateSnapshotMetadata snapshotId blob.snapshotId
          blob.sequenceNumber blob.kind =
        .ok ()

/-- The portable blob of a payload that is there. -/
def portable (blob : SidecarBlob) : PortableSketchBlob :=
  portableBlob blob.kind blob.fields blob.snapshotId blob.sequenceNumber
    blob.properties (blob.payload.getD [])

section Blobs

variable
  {host : Host PathBuf}
  {math : EstimateMath}
  {snapshotId : Option Int64}
  {blob : SidecarBlob}
  {view : Sidecar}

@[simp] theorem kind_portable
    (blob : SidecarBlob) :
    (portable blob).kind = blob.kind := by
  unfold portable portableBlob
  cases blob.snapshotId <;> cases blob.sequenceNumber <;> rfl

@[simp] theorem fields_portable
    (blob : SidecarBlob) :
    (portable blob).fields = blob.fields := by
  unfold portable portableBlob
  cases blob.snapshotId <;> cases blob.sequenceNumber <;> rfl

@[simp] theorem payload_portable
    (blob : SidecarBlob) :
    (portable blob).payload = blob.payload.getD [] := by
  unfold portable portableBlob
  cases blob.snapshotId <;> cases blob.sequenceNumber <;> rfl

theorem exists_of_map_eq_ok
    {ε α : Type}
    {x : Except ε α}
    (h : x.map (fun _ => ()) = .ok ()) :
    ∃ a, x = .ok a := by
  cases x with
  | error e => cases h
  | ok a => exact ⟨a, rfl⟩

/-- What `verify` has decoded the loader decodes. -/
theorem SoundBlob.decodeKnown
    (h : SoundBlob host blob) :
    decodeKnown (host.codecs math) (portable blob) = .ok () := by
  obtain ⟨payload, hpayload, hcheck⟩ := h
  unfold Samkhya.decodeKnown
  simp only [kind_portable, payload_portable, hpayload,
    Option.getD_some]
  split_ifs with hhll hhistogram
  · have hdecode :
        SketchKind.hll.fromBytes host payload = .ok () := by
      rw [← checkKnown_kind, SketchKind.kind, ← hhll]
      exact hcheck
    obtain ⟨sketch, hbytes⟩ := exists_of_map_eq_ok hdecode
    simp only [Host.codecs, hbytes]
  · have hdecode :
        SketchKind.histogram.fromBytes host payload = .ok () := by
      rw [← checkKnown_kind, SketchKind.kind, ← hhistogram]
      exact hcheck
    obtain ⟨sketch, hbytes⟩ := exists_of_map_eq_ok hdecode
    simp only [Host.codecs, hbytes]
  · rfl

/-- So the keys of the two are the same. -/
theorem SoundBlob.blobKey
    (h : SoundBlob host blob) :
    blobKey (host.codecs math) (portable blob) = fieldKey blob := by
  rcases hfields : blob.fields with _ | ⟨fieldId, _ | ⟨other, rest⟩⟩ <;>
    simp [PortableStatsSnapshot.blobKey, fieldKey, hfields,
      h.decodeKnown]

open Classical in
/-- A file whose payloads are all there is loaded if it is consistent. -/
theorem load_of_sound
    (hsound : ∀ blob ∈ view.blobs, SoundBlob host blob) :
    view.load snapshotId =
      if Consistent snapshotId view then
        some ((view.blobs.filter SidecarBlob.known).map portable)
      else
        none := by
  have hround :
      ∀ blob ∈ view.blobs.filter SidecarBlob.known,
        blob.load snapshotId =
          if validateSnapshotMetadata snapshotId blob.snapshotId
              blob.sequenceNumber blob.kind = .ok () then
            some (portable blob)
          else
            none := by
    intro blob hblob
    obtain ⟨payload, hpayload, _⟩ :=
      hsound blob (List.mem_of_mem_filter hblob)
    unfold SidecarBlob.load
    cases
      validateSnapshotMetadata snapshotId blob.snapshotId
        blob.sequenceNumber blob.kind with
    | error e => rfl
    | ok u => simp [hpayload, portable]
  unfold Sidecar.load
  cases hversion : validateSamkhyaSchemaVersion view.version with
  | error e =>
      rw [if_neg]
      intro h
      cases hversion.symm.trans h.version
  | ok u =>
      simp only [mapM_eq_ite]
      by_cases h : Consistent snapshotId view
      · rw [if_pos h, if_pos]
        · congr 1
          rw [← List.filterMap_eq_map]
          refine List.filterMap_congr fun blob hblob => ?_
          rw [hround blob hblob, if_pos (h.snapshot blob hblob)]
          rfl
        · intro blob hblob
          rw [hround blob hblob, if_pos (h.snapshot blob hblob)]
          exact Option.some_ne_none _
      · rw [if_neg h, if_neg]
        intro hall
        refine h ⟨hversion, fun blob hblob => ?_⟩
        by_contra hbad
        refine hall blob hblob ?_
        rw [hround blob hblob, if_neg hbad]

end Blobs

section Loading

variable
  {host : Host PathBuf}
  {math : EstimateMath}
  {snapshotId : Option Int64}
  {files : Files}
  {paths : List PathBuf}
  {views : List Sidecar}

open Classical in
/-- The known blobs of sound files, if all of them are consistent. -/
theorem collected_of_sound
    (hviews :
      List.Forall₂
        (fun path view => sidecarAt host.json files path = some view)
        paths views)
    (hsound :
      ∀ view ∈ views, ∀ blob ∈ view.blobs, SoundBlob host blob) :
    collected host.json files snapshotId paths =
      if ∀ view ∈ views, Consistent snapshotId view then
        some
          (views.map fun view =>
            (view.blobs.filter SidecarBlob.known).map portable)
      else
        none := by
  induction hviews with
  | nil => simp [collected]
  | @cons path view paths views hview _ ih =>
      have hrest :=
        ih fun v hv => hsound v (List.mem_cons_of_mem _ hv)
      rw [collected_cons, hview, hrest, Option.bind_some,
        load_of_sound (hsound view List.mem_cons_self),
        if_congr List.forall_mem_cons rfl rfl]
      by_cases hfirst : Consistent snapshotId view
      · by_cases hall : ∀ v ∈ views, Consistent snapshotId v
        · rw [if_pos hfirst, if_pos hall, if_pos ⟨hfirst, hall⟩]
          rfl
        · have hnot :
              ¬ (Consistent snapshotId view ∧
                ∀ v ∈ views, Consistent snapshotId v) :=
            fun h => hall h.2
          rw [if_pos hfirst, if_neg hall, if_neg hnot]
          rfl
      · have hnot :
            ¬ (Consistent snapshotId view ∧
              ∀ v ∈ views, Consistent snapshotId v) :=
          fun h => hfirst h.1
        rw [if_neg hfirst, if_neg hnot]
        rfl

/-- Cleanness of the portable blobs is that of the views. -/
theorem clean_portable_iff
    {blobs : List SidecarBlob}
    (hsound : ∀ blob ∈ blobs, SoundBlob host blob) :
    Clean PortableStatsSnapshot.known (blobKey (host.codecs math))
        ((blobs.filter SidecarBlob.known).map portable) ↔
      Clean SidecarBlob.known fieldKey blobs := by
  have hknown :
      ∀ blob, PortableStatsSnapshot.known (portable blob) = blob.known :=
    fun blob => congrArg isSupportedColumnKind (kind_portable blob)
  have hkey :
      ∀ blob ∈ blobs.filter SidecarBlob.known,
        blobKey (host.codecs math) (portable blob) = fieldKey blob :=
    fun blob hblob =>
      (hsound blob (List.mem_of_mem_filter hblob)).blobKey
  have hfilter :
      ((blobs.filter SidecarBlob.known).map portable).filter
          PortableStatsSnapshot.known =
        (blobs.filter SidecarBlob.known).map portable := by
    rw [List.filter_eq_self]
    intro found hfound
    obtain ⟨blob, hblob, rfl⟩ := List.mem_map.mp hfound
    exact (hknown blob).trans (List.mem_filter.mp hblob).2
  have hkeys :
      ((blobs.filter SidecarBlob.known).map portable).map
          (blobKey (host.codecs math)) =
        (blobs.filter SidecarBlob.known).map fieldKey := by
    rw [List.map_map]
    exact List.map_congr_left hkey
  constructor
  · rintro ⟨hkeyed, hnodup⟩
    rw [hfilter, hkeys] at hnodup
    refine ⟨fun blob hblob hread => ?_, hnodup⟩
    have hmem := List.mem_filter.mpr ⟨hblob, hread⟩
    rw [← hkey blob hmem]
    exact
      hkeyed _ (List.mem_map_of_mem hmem) ((hknown blob).trans hread)
  · rintro ⟨hkeyed, hnodup⟩
    refine ⟨fun found hfound _ => ?_, ?_⟩
    · obtain ⟨blob, hblob, rfl⟩ := List.mem_map.mp hfound
      obtain ⟨hmem, hread⟩ := List.mem_filter.mp hblob
      rw [hkey blob hblob]
      exact hkeyed blob hmem hread
    · rw [hfilter, hkeys]
      exact hnodup

/-- The views of verified files. -/
theorem exists_views
    {machine : Machine PathBuf}
    (hverified :
      ∀ path ∈ paths, ∃ file,
        localPath path = .ok file ∧
          verify host machine files file = .success) :
    ∃ views,
      List.Forall₂
          (fun path view => sidecarAt host.json files path = some view)
          paths views ∧
        ∀ view ∈ views, ∀ blob ∈ view.blobs, SoundBlob host blob := by
  induction paths with
  | nil => exact ⟨[], .nil, by simp⟩
  | cons path paths ih =>
      obtain ⟨views, hviews, hsound⟩ :=
        ih fun p hp => hverified p (List.mem_cons_of_mem _ hp)
      obtain ⟨file, hlocal, hexit⟩ := hverified path List.mem_cons_self
      cases hread : machine.read files file with
      | error e =>
          rw [verify, hread] at hexit
          cases hexit
      | ok bytes =>
          obtain ⟨view, hview, hfirst⟩ :=
            (verify_eq_success_iff hread).mp hexit
          have hfile := (Machine.read_eq_ok_iff.mp hread).1
          refine ⟨view :: views, .cons ?_ hviews, ?_⟩
          · simp only [sidecarAt, hlocal, hfile, Option.bind_some]
            exact hview
          · intro v hv
            rcases List.mem_cons.mp hv with rfl | hv
            · exact hfirst
            · exact hsound v hv

/--
**Of verified files only the metadata can fail a load.**  It goes through
exactly when versions and snapshots are as expected, every blob of a known kind
belongs to one column, and no two of one kind to the same; then it delivers
these blobs with the payloads that `verify` has decoded.
-/
theorem verified_loads_iff
    {machine : Machine PathBuf}
    (math : EstimateMath)
    (snapshotId : Option Int64)
    (hverified :
      ∀ path ∈ paths, ∃ file,
        localPath path = .ok file ∧
          verify host machine files file = .success) :
    ∃ views,
      List.Forall₂
          (fun path view => sidecarAt host.json files path = some view)
          paths views ∧
        ∀ snapshot,
          loadPortableStats (host.codecs math) host.json files
                ⟨snapshotId, paths⟩ =
              .ok snapshot ↔
            (∀ view ∈ views, Consistent snapshotId view) ∧
              Clean SidecarBlob.known fieldKey
                (views.flatMap Sidecar.blobs) ∧
              snapshot =
                ⟨snapshotId,
                  ((views.flatMap Sidecar.blobs).filter
                    SidecarBlob.known).map portable⟩ := by
  obtain ⟨views, hviews, hsound⟩ := exists_views hverified
  refine ⟨views, hviews, fun snapshot => ?_⟩
  have hall :
      ∀ blob ∈ views.flatMap Sidecar.blobs, SoundBlob host blob := by
    intro blob hblob
    obtain ⟨view, hview, hmem⟩ := List.mem_flatMap.mp hblob
    exact hsound view hview blob hmem
  have hflat :
      (views.map fun view =>
          (view.blobs.filter SidecarBlob.known).map portable).flatten =
        ((views.flatMap Sidecar.blobs).filter SidecarBlob.known).map
          portable := by
    rw [← List.flatMap_def, List.filter_flatMap, List.map_flatMap]
  rw [loadPortableStats_eq_ok_iff, collected_of_sound hviews hsound,
    ← @clean_portable_iff host math _ hall, ← hflat]
  by_cases hconsistent : ∀ view ∈ views, Consistent snapshotId view
  · rw [if_pos hconsistent]
    constructor
    · rintro ⟨loaded, hloaded, hclean, rfl⟩
      obtain rfl := Option.some.inj hloaded
      exact ⟨hconsistent, hclean, rfl⟩
    · rintro ⟨_, hclean, rfl⟩
      exact ⟨_, rfl, hclean, rfl⟩
  · rw [if_neg hconsistent]
    constructor
    · rintro ⟨loaded, hloaded, _⟩
      cases hloaded
    · rintro ⟨h, _⟩
      exact absurd h hconsistent

/-- What a load collects has everything that a file gives. -/
theorem exists_of_collected
    {loaded : List (List PortableSketchBlob)}
    (hcollected :
      collected host.json files snapshotId paths = some loaded)
    {path : PathBuf}
    (hpath : path ∈ paths)
    {view : Sidecar}
    (hview : sidecarAt host.json files path = some view)
    {blob : SidecarBlob}
    (hblob : blob ∈ view.blobs)
    (hknown : blob.known = true) :
    ∃ found ∈ loaded.flatten,
      blob.load snapshotId = some found := by
  classical
  unfold collected at hcollected
  rw [mapM_eq_ite] at hcollected
  split_ifs at hcollected with hall
  obtain rfl := Option.some.inj hcollected
  obtain ⟨list, hlist⟩ := Option.ne_none_iff_exists'.mp (hall path hpath)
  have hload : view.load snapshotId = some list := by
    rw [hview, Option.bind_some] at hlist
    exact hlist
  unfold Sidecar.load at hload
  cases hversion : validateSamkhyaSchemaVersion view.version with
  | error e =>
      rw [hversion] at hload
      cases hload
  | ok u =>
      simp only [hversion, mapM_eq_ite] at hload
      split_ifs at hload with hblobs
      obtain rfl := Option.some.inj hload
      have hmem := List.mem_filter.mpr ⟨hblob, hknown⟩
      obtain ⟨found, hfound⟩ :=
        Option.ne_none_iff_exists'.mp (hblobs blob hmem)
      refine
        ⟨found,
          List.mem_flatten.mpr
            ⟨(view.blobs.filter SidecarBlob.known).filterMap
                (SidecarBlob.load snapshotId), ?_, ?_⟩,
          hfound⟩
      · exact List.mem_filterMap.mpr ⟨path, hpath, hlist⟩
      · exact List.mem_filterMap.mpr ⟨blob, hmem, hfound⟩

/--
**No table loads a packed sidecar with an HLL sketch or a histogram.**  In any
state of any run, among whatever other files: the blobs of `pack` belong to no
column, and the loader refuses such blobs of the kinds it knows.
-/
theorem packed_never_loads
    (disk : Disk PathBuf)
    (events : List (Event PathBuf))
    {path file : PathBuf}
    {entries : List Entry}
    (hlocal : localPath path = .ok file)
    (hrole :
      ((Workspace.start disk).run host events).roles file =
        .sidecar entries)
    (hcaps : WithinCaps host entries)
    (hknown :
      ∃ entry ∈ entries, entry.kind = .hll ∨ entry.kind = .histogram)
    (hpath : path ∈ paths)
    (c : SketchCodecs)
    (snapshotId : Option Int64)
    (snapshot : PortableStatsSnapshot) :
    loadPortableStats c host.json
        ((Workspace.start disk).run host events).disk
        ⟨snapshotId, paths⟩ ≠
      .ok snapshot := by
  intro hload
  have hfits := ((Agrees.start host disk).run events) file
  rw [hrole] at hfits
  obtain ⟨bytes, hdisk, hpacked⟩ := hfits
  obtain ⟨view, hview, hblobs⟩ := hpacked.blobs hcaps
  have hat :
      sidecarAt host.json
          ((Workspace.start disk).run host events).disk path =
        some view := by
    simp only [sidecarAt, hlocal, hdisk, Option.bind_some]
    exact hview
  obtain ⟨entry, hentry, hkind⟩ := hknown
  have hmem : entry.view ∈ view.blobs := by
    rw [hblobs]
    exact List.mem_map_of_mem hentry
  have hread : entry.view.known = true := by
    change isSupportedColumnKind entry.kind.kind = true
    rcases hkind with h | h <;> rw [h] <;> decide
  obtain ⟨loaded, hcollected, hclean, _⟩ :=
    loadPortableStats_eq_ok_iff.mp hload
  obtain ⟨found, hfound, hblob⟩ :=
    exists_of_collected hcollected hpath hat hmem hread
  have hfields : found.fields = [] ∧ found.kind = entry.kind.kind := by
    unfold SidecarBlob.load at hblob
    split at hblob
    · cases hblob
    · obtain rfl := Option.some.inj hblob
      exact ⟨rfl, rfl⟩
  refine hclean.keyed found hfound ?_ ?_
  · change isSupportedColumnKind found.kind = true
    rw [hfields.2]
    exact hread
  · rw [blobKey, hfields.1]

end Loading

section SmallRun

theorem smallPack_collect :
    smallPack.collect smallHost idleMachine sketched.disk =
      .ok [smallEntry] := by
  decide +kernel

/-- The workspace after the sketch and the pack. -/
noncomputable def packed : Workspace PathBuf :=
  (Workspace.start smallDisk).run smallHost
    [.sketch idleMachine smallSketch, .pack idleMachine smallPack]

theorem packed_spec :
    packed.roles sidecarPath = .sidecar [smallEntry] ∧
      verify smallHost idleMachine packed.disk sidecarPath =
        .success := by
  obtain ⟨disk', hrun, hverify⟩ :=
    PackCmd.exists_run (by decide) smallPack_collect rfl rfl
      withinCaps_smallEntry
  have hdisk : packed.disk = disk' := congrArg Prod.snd hrun
  have hroles :
      packed.roles =
        Function.update sketched.roles sidecarPath
          (smallPack.leaves smallHost idleMachine sketched.disk) :=
    rfl
  have hleaves :
      smallPack.leaves smallHost idleMachine sketched.disk =
        .sidecar [smallEntry] := by
    unfold PackCmd.leaves
    rw [hrun, smallPack_collect]
  rw [hroles, Function.update_self, hdisk]
  exact ⟨hleaves, hverify idleMachine rfl⟩

theorem verified_small :
    ∀ path ∈ [sidecarPath], ∃ file,
      localPath path = .ok file ∧
        verify smallHost idleMachine packed.disk file = .success := by
  intro path hpath
  rw [List.mem_singleton.mp hpath]
  exact ⟨sidecarPath, by decide +kernel, packed_spec.2⟩

theorem verified_loads_iff_small :
    ∃ views,
      List.Forall₂
          (fun path view =>
            sidecarAt smallHost.json packed.disk path = some view)
          [sidecarPath] views ∧
        ∀ snapshot,
          loadPortableStats (smallHost.codecs plainCodecs.math) smallHost.json
                packed.disk ⟨none, [sidecarPath]⟩ =
              .ok snapshot ↔
            (∀ view ∈ views, Consistent none view) ∧
              Clean SidecarBlob.known fieldKey
                (views.flatMap Sidecar.blobs) ∧
              snapshot =
                ⟨none,
                  ((views.flatMap Sidecar.blobs).filter
                    SidecarBlob.known).map portable⟩ :=
  verified_loads_iff plainCodecs.math none verified_small

theorem packed_never_loads_small :
    loadPortableStats (smallHost.codecs plainCodecs.math) smallHost.json
        packed.disk ⟨none, [sidecarPath]⟩ ≠
      .ok ⟨none, []⟩ :=
  packed_never_loads smallDisk _ (by decide +kernel) packed_spec.1
    withinCaps_smallEntry (by decide) List.mem_cons_self _ none _

end SmallRun

end Cli
end Samkhya
