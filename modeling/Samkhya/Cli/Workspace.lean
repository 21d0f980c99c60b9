import Mathlib
import Samkhya.Cli.Puffin

/-!
# Files between commands

A run of `samkhya` commands on one disk, each on a machine of its own that may
fail it at any point, among writes of other programs.  Next to the disk goes an
account of its files (`Role`): which were left as a payload of which kind, and
which as a sidecar of which entries.

The account is right in every state of every run (`Agrees.run`).  So a payload
that `sketch` has left is one that `pack` takes, and a sidecar that `pack` has
left is one that `verify` accepts, for as long as nothing else is written there
(`workspace_sound`).
-/

namespace Samkhya
namespace Cli

open FieldCodec ByteDevice StableSort PuffinWriter

variable {π : Type}

/-- What happens to a disk. -/
inductive Event (π : Type)
  | sketch (machine : Machine π) (cmd : SketchCmd π)
  | pack (machine : Machine π) (cmd : PackCmd π)
  | verify (machine : Machine π) (path : π)
  /-- Another program writes or removes a file. -/
  | other (path : π) (contents : Option Bytes)

/-- What is known of a file. -/
inductive Role
  | payload (kind : SketchKind)
  | sidecar (entries : List Entry)
  | unknown

/-- A disk with the account of its files. -/
structure Workspace (π : Type) where
  disk : Disk π
  roles : π → Role

section Account

variable [DecidableEq π] (host : Host π)

/-- The exit of an event, and the disk after it. -/
def Event.run (disk : Disk π) : Event π → Exit × Disk π
  | sketch machine cmd => cmd.run host machine disk
  | pack machine cmd => cmd.run host machine disk
  | verify machine path => (Cli.verify host machine disk path, disk)
  | other path contents =>
      (.success, Function.update disk path contents)

open Classical in
/-- What a sketch command leaves in its output. -/
noncomputable def SketchCmd.leaves
    (machine : Machine π)
    (disk : Disk π)
    (cmd : SketchCmd π) : Role :=
  match (cmd.run host machine disk).1 with
  | .success =>
      if cmd.build.kind = .histogram ∧ cmd.HasNaN host machine disk then
        .unknown
      else
        .payload cmd.build.kind
  | _ => .unknown

/-- What a pack leaves in its output. -/
def PackCmd.leaves
    (machine : Machine π)
    (disk : Disk π)
    (cmd : PackCmd π) : Role :=
  match
    (cmd.run host machine disk).1, cmd.collect host machine disk
  with
  | .success, .ok entries => .sidecar entries
  | _, _ => .unknown

/-- The account after an event. -/
noncomputable def Event.track (s : Workspace π) : Event π → π → Role
  | sketch machine cmd =>
      match cmd.output with
      | none => s.roles
      | some path =>
          Function.update s.roles path (cmd.leaves host machine s.disk)
  | pack machine cmd =>
      Function.update s.roles cmd.out (cmd.leaves host machine s.disk)
  | verify _ _ => s.roles
  | other path _ => Function.update s.roles path .unknown

namespace Workspace

/-- A disk of which nothing is known. -/
def start (disk : Disk π) : Workspace π where
  disk := disk
  roles _ := .unknown

noncomputable def step (s : Workspace π) (e : Event π) : Workspace π where
  disk := (e.run host s.disk).2
  roles := e.track host s

noncomputable def run
    (s : Workspace π)
    (events : List (Event π)) : Workspace π :=
  events.foldl (step host) s

end Workspace

end Account

/-- What a file is, by its role. -/
def Role.Fits (host : Host π) : Role → Option Bytes → Prop
  | payload kind, contents =>
      ∃ bytes,
        contents = some bytes ∧ kind.fromBytes host bytes = .ok ()
  | sidecar entries, contents =>
      ∃ bytes, contents = some bytes ∧ Packed host entries bytes
  | unknown, _ => True

/-- The account is right. -/
def Agrees (host : Host π) (s : Workspace π) : Prop :=
  ∀ path, (s.roles path).Fits host (s.disk path)

section Commands

variable
  [DecidableEq π]
  {host : Host π}
  {machine : Machine π}
  {disk : Disk π}

/-- A write touches one file, and leaves the payload if it succeeds. -/
theorem Machine.write_spec
    (machine : Machine π)
    (disk : Disk π)
    (path : π)
    (payload : Bytes) :
    (∀ other ≠ path,
        (machine.write disk path payload).2 other = disk other) ∧
      ((machine.write disk path payload).1 = .success →
        (machine.write disk path payload).2 path = some payload) := by
  unfold Machine.write
  split
  · refine ⟨fun other hne => Function.update_of_ne hne _ _, ?_⟩
    intro hexit
    have haccepts :
        (⟨[], machine.faults⟩ : Sink).accepts payload.length = true := by
      by_contra hrefused
      simp [hrefused] at hexit
    simp [Sink.append_written haccepts]
  · exact ⟨fun _ _ => rfl, fun hexit => by cases hexit⟩

/-- A sketch command touches its output only, and leaves its payload. -/
theorem SketchCmd.run_spec
    (cmd : SketchCmd π) :
    (∀ path, cmd.output ≠ some path →
        (cmd.run host machine disk).2 path = disk path) ∧
      ((cmd.run host machine disk).1 = .success →
        ∃ bytes,
          cmd.payload host machine disk = some (.ok bytes) ∧
            ∀ path, cmd.output = some path →
              (cmd.run host machine disk).2 path = some bytes) := by
  unfold SketchCmd.run
  cases hpayload : cmd.payload host machine disk with
  | none => exact ⟨fun _ _ => rfl, fun hexit => by cases hexit⟩
  | some result =>
      cases result with
      | error e => exact ⟨fun _ _ => rfl, fun hexit => by cases hexit⟩
      | ok bytes =>
          cases houtput : cmd.output with
          | none =>
              exact ⟨fun _ _ => rfl, fun _ => ⟨bytes, rfl, by simp⟩⟩
          | some out =>
              obtain ⟨hframe, hleaves⟩ :=
                machine.write_spec disk out bytes
              refine ⟨fun path hne => hframe path ?_, fun hexit => ?_⟩
              · rintro rfl
                exact hne rfl
              · refine ⟨bytes, rfl, fun path hpath => ?_⟩
                obtain rfl := Option.some.inj hpath
                exact hleaves hexit

/-- A pack touches its output only, and leaves a file of its entries. -/
theorem PackCmd.run_spec
    (cmd : PackCmd π) :
    (∀ path ≠ cmd.out,
        (cmd.run host machine disk).2 path = disk path) ∧
      ((cmd.run host machine disk).1 = .success →
        ∃ entries bytes,
          cmd.collect host machine disk = .ok entries ∧
            (cmd.run host machine disk).2 cmd.out = some bytes ∧
            Packed host entries bytes) := by
  unfold PackCmd.run
  split
  · exact ⟨fun _ _ => rfl, fun hexit => by cases hexit⟩
  · cases hcollect : cmd.collect host machine disk with
    | error e => exact ⟨fun _ _ => rfl, fun hexit => by cases hexit⟩
    | ok entries =>
        simp only
        split
        · cases hwrite :
              writeEntries host entries (new ⟨[], machine.faults⟩) with
          | error e w =>
              exact
                ⟨fun path hne => Function.update_of_ne hne _ _,
                  fun hexit => by cases hexit⟩
          | ok sink w =>
              refine
                ⟨fun path hne => Function.update_of_ne hne _ _,
                  fun _ => ⟨entries, sink.written, rfl, by simp, ?_⟩⟩
              exact
                packed_of_writeEntries
                  (PackCmd.decodes_of_collect hcollect) hwrite
        · exact ⟨fun _ _ => rfl, fun hexit => by cases hexit⟩

end Commands

namespace Agrees

theorem start
    (host : Host π)
    (disk : Disk π) :
    Agrees host (.start disk) :=
  fun _ => trivial

variable
  [DecidableEq π]
  {host : Host π}
  {s : Workspace π}

/-- A file that is written to, with what is known of it then. -/
theorem update
    (h : Agrees host s)
    {path : π}
    {role : Role}
    {disk : Disk π}
    (hframe : ∀ other ≠ path, disk other = s.disk other)
    (hfits : role.Fits host (disk path)) :
    Agrees host ⟨disk, Function.update s.roles path role⟩ := by
  intro other
  by_cases hother : other = path
  · subst hother
    simpa using hfits
  · simpa [Function.update_of_ne hother, hframe other hother]
      using h other

theorem sketch
    (h : Agrees host s)
    (machine : Machine π)
    (cmd : SketchCmd π) :
    Agrees host (s.step host (.sketch machine cmd)) := by
  obtain ⟨hframe, hleaves⟩ :=
    @SketchCmd.run_spec π _ host machine s.disk cmd
  cases houtput : cmd.output with
  | none =>
      have hstep :
          s.step host (.sketch machine cmd) =
            ⟨(cmd.run host machine s.disk).2, s.roles⟩ := by
        simp only [Workspace.step, Event.run, Event.track, houtput]
      rw [hstep]
      intro path
      have hsame := hframe path (by simp [houtput])
      change (s.roles path).Fits host ((cmd.run host machine s.disk).2 path)
      rw [hsame]
      exact h path
  | some out =>
      have hstep :
          s.step host (.sketch machine cmd) =
            ⟨(cmd.run host machine s.disk).2,
              Function.update s.roles out
                (cmd.leaves host machine s.disk)⟩ := by
        simp only [Workspace.step, Event.run, Event.track, houtput]
      rw [hstep]
      refine h.update (fun path hne => hframe path ?_) ?_
      · rw [houtput]
        exact fun heq => hne (Option.some.inj heq).symm
      · unfold SketchCmd.leaves
        cases hexit : (cmd.run host machine s.disk).1 with
        | success =>
            obtain ⟨bytes, hpayload, hwritten⟩ := hleaves hexit
            simp only
            split
            · trivial
            · case isFalse hnan =>
                rw [not_and] at hnan
                exact
                  ⟨bytes, hwritten out houtput,
                    SketchCmd.fromBytes_of_payload hpayload hnan⟩
        | failure e => trivial
        | panic => trivial

theorem pack
    (h : Agrees host s)
    (machine : Machine π)
    (cmd : PackCmd π) :
    Agrees host (s.step host (.pack machine cmd)) := by
  obtain ⟨hframe, hleaves⟩ :=
    @PackCmd.run_spec π _ host machine s.disk cmd
  refine h.update hframe ?_
  unfold PackCmd.leaves
  cases hexit : (cmd.run host machine s.disk).1 with
  | success =>
      obtain ⟨entries, bytes, hcollect, hwritten, hpacked⟩ :=
        hleaves hexit
      simp only [hcollect]
      exact ⟨bytes, hwritten, hpacked⟩
  | failure e => trivial
  | panic => trivial

/-- One event keeps the account right. -/
theorem step
    (h : Agrees host s)
    (e : Event π) :
    Agrees host (s.step host e) := by
  cases e with
  | sketch machine cmd => exact h.sketch machine cmd
  | pack machine cmd => exact h.pack machine cmd
  | verify machine path => exact h
  | other path contents =>
      exact
        h.update (fun _ hne => Function.update_of_ne hne _ _) trivial

/-- So does a run. -/
theorem run
    (h : Agrees host s)
    (events : List (Event π)) :
    Agrees host (s.run host events) := by
  induction events generalizing s with
  | nil => exact h
  | cons e events ih => exact ih (h.step e)

end Agrees

section Sound

variable
  [DecidableEq π]
  {host : Host π}
  {machine : Machine π}
  {disk : Disk π}

/-- With a machine that does its part a pack succeeds, and verifies. -/
theorem PackCmd.exists_run
    {cmd : PackCmd π}
    {entries : List Entry}
    (hsome : cmd.sources ≠ [])
    (hcollect : cmd.collect host machine disk = .ok entries)
    (hcreates : machine.creates cmd.out = true)
    (hfaults : machine.faults = [])
    (hcaps : WithinCaps host entries) :
    ∃ disk',
      cmd.run host machine disk = (.success, disk') ∧
        ∀ m : Machine π, m.opens cmd.out = true →
          verify host m disk' cmd.out = .success := by
  obtain ⟨sink, w, hwrite⟩ := exists_writeEntries hcaps
  have hpacked :=
    packed_of_writeEntries (PackCmd.decodes_of_collect hcollect) hwrite
  refine ⟨Function.update disk cmd.out sink.written, ?_, ?_⟩
  · have hne :
        ¬ (cmd.hll = [] ∧ cmd.bloom = [] ∧ cmd.cms = [] ∧
          cmd.histogram = []) := by
      rintro ⟨hhll, hbloom, hcms, hhistogram⟩
      exact
        hsome (by simp [sources, hhll, hbloom, hcms, hhistogram])
    unfold PackCmd.run
    rw [if_neg hne, hcollect]
    simp only [hcreates, if_true, hfaults, hwrite]
  · intro m hopens
    have hread :
        m.read (Function.update disk cmd.out (some sink.written))
            cmd.out =
          .ok sink.written :=
      Machine.read_eq_ok_iff.mpr ⟨Function.update_self _ _ _, hopens⟩
    rw [verify_eq_success_iff hread]
    exact hpacked.verified.mpr hcaps

/--
**The commands fit together in every run.**  Whatever came before, and however
it failed: what a sketch command left is a payload that `pack` can take, what
`pack` left is a sidecar that `verify` accepts exactly when it keeps to the
caps, and a pack of such payloads goes through and is accepted.
-/
theorem workspace_sound
    (host : Host π)
    (disk : Disk π)
    (events : List (Event π)) :
    let s := (Workspace.start disk).run host events
    (∀ path kind, s.roles path = .payload kind →
      ∀ machine : Machine π, machine.opens path = true →
        Holds host machine s.disk kind path) ∧
    (∀ path entries, s.roles path = .sidecar entries →
      ∀ machine : Machine π, machine.opens path = true →
        (verify host machine s.disk path = .success ↔
          WithinCaps host entries)) ∧
    ∀ (machine : Machine π) (cmd : PackCmd π),
      cmd.sources ≠ [] →
      (∀ source ∈ cmd.sources,
        s.roles source.2 = .payload source.1 ∧
          machine.opens source.2 = true) →
      machine.creates cmd.out = true →
      machine.faults = [] →
      ∃ entries,
        List.Forall₂ (Gives machine s.disk) cmd.sources entries ∧
        (WithinCaps host entries →
          ∃ disk',
            cmd.run host machine s.disk = (.success, disk') ∧
              ∀ m : Machine π, m.opens cmd.out = true →
                verify host m disk' cmd.out = .success) := by
  intro s
  have hagrees : Agrees host s := (Agrees.start host disk).run events
  have hholds :
      ∀ path kind, s.roles path = .payload kind →
        ∀ machine : Machine π, machine.opens path = true →
          Holds host machine s.disk kind path := by
    intro path kind hrole machine hopens
    have hfits := hagrees path
    rw [hrole] at hfits
    obtain ⟨bytes, hdisk, hdecode⟩ := hfits
    exact
      ⟨bytes, Machine.read_eq_ok_iff.mpr ⟨hdisk, hopens⟩, hdecode⟩
  refine ⟨hholds, ?_, ?_⟩
  · intro path entries hrole machine hopens
    have hfits := hagrees path
    rw [hrole] at hfits
    obtain ⟨bytes, hdisk, hpacked⟩ := hfits
    rw [verify_eq_success_iff
      (Machine.read_eq_ok_iff.mpr ⟨hdisk, hopens⟩)]
    exact hpacked.verified
  · intro machine cmd hsome hsources hcreates hfaults
    obtain ⟨entries, hcollect, hgives⟩ :=
      PackCmd.exists_collect fun source hsource =>
        hholds _ _ (hsources source hsource).1 machine
          (hsources source hsource).2
    exact
      ⟨entries, hgives,
        PackCmd.exists_run hsome hcollect hcreates hfaults⟩

end Sound

section SmallRun

/-- Three paths. -/
def csvPath : PathBuf :=
  asBytes "a.csv"

def hllPath : PathBuf :=
  asBytes "a.hll"

def sidecarPath : PathBuf :=
  asBytes "a.puffin"

/-- A CSV file of one cell. -/
def smallDisk : Disk PathBuf := fun path =>
  if path = csvPath then some (asBytes "a\n") else none

noncomputable def smallHost : Host PathBuf where
  display _ := "a path"
  records bytes _ := if bytes = asBytes "a\n" then [.ok ["a"]] else []
  itemHash _ := 0
  doubleHash _ := (0, 0)
  rowHash _ _ := 0
  sizing :=
    { ofU64 := fun _ => .one
      neg := id
      mul := fun x _ => x
      div := fun x _ => x
      ln := id
      ceil := id
      display := fun _ => "1" }
  sort := .rearranging comparator id fun _ => .refl _
  json := serdeJson
  json_roundTrips := serdeJson_roundTrips

/-- A machine without failures. -/
def idleMachine : Machine PathBuf where
  opens _ := true
  creates _ := true
  faults := []

def smallSketch : SketchCmd PathBuf where
  build := .hll 4
  input := csvPath
  column := 0
  header := false
  output := some hllPath

def smallPack : PackCmd PathBuf where
  out := sidecarPath
  hll := [hllPath]
  bloom := []
  cms := []
  histogram := []

/-- The workspace after the sketch. -/
noncomputable def sketched : Workspace PathBuf :=
  (Workspace.start smallDisk).run smallHost
    [.sketch idleMachine smallSketch]

theorem smallSketch_leaves :
    smallSketch.leaves smallHost idleMachine smallDisk =
      .payload .hll := by
  have hexit :
      (smallSketch.run smallHost idleMachine smallDisk).1 =
        .success := by
    decide +kernel
  rw [SketchCmd.leaves, hexit]
  simp [smallSketch, Build.kind]

theorem sketched_roles :
    ∀ source ∈ smallPack.sources,
      sketched.roles source.2 = .payload source.1 ∧
        idleMachine.opens source.2 = true := by
  intro source hsource
  obtain rfl : source = (.hll, hllPath) := by
    simpa [smallPack, PackCmd.sources] using hsource
  have hroles :
      sketched.roles =
        Function.update (fun _ => .unknown) hllPath
          (smallSketch.leaves smallHost idleMachine smallDisk) :=
    rfl
  rw [hroles, Function.update_self, smallSketch_leaves]
  exact ⟨rfl, rfl⟩

/-- What the sketch of the small run wrote. -/
def smallEntry : Entry where
  kind := .hll
  bytes :=
    [4, 16, 0, 0, 0, 0, 0, 0, 0, 61, 0, 0, 0, 0, 0, 0, 0, 0, 0, 0, 0, 0,
      0, 0, 0]

theorem withinCaps_smallEntry :
    WithinCaps smallHost [smallEntry] where
  count := by decide
  footer := ⟨_, rfl, by decide +kernel⟩
  payload := by decide

/-- It is what a pack of it reads. -/
theorem eq_of_gives
    {entries : List Entry}
    (h :
      List.Forall₂ (Gives idleMachine sketched.disk) smallPack.sources
        entries) :
    entries = [smallEntry] := by
  have hread :
      idleMachine.read sketched.disk hllPath = .ok smallEntry.bytes := by
    decide +kernel
  have hsources : smallPack.sources = [(.hll, hllPath)] := rfl
  rw [hsources] at h
  cases h with
  | @cons _ entry _ rest hentry hrest =>
      cases hrest
      obtain ⟨hkind, hbytes⟩ := hentry
      obtain ⟨kind, bytes⟩ := entry
      simp only at hkind hbytes
      rw [hread] at hbytes
      rw [hkind, ← Except.ok.inj hbytes]
      rfl

theorem workspace_sound_small :
    ∃ disk',
      smallPack.run smallHost idleMachine sketched.disk =
          (.success, disk') ∧
        ∀ m : Machine PathBuf, m.opens smallPack.out = true →
          verify smallHost m disk' smallPack.out = .success := by
  obtain ⟨entries, hgives, hcaps⟩ :=
    (workspace_sound smallHost smallDisk
        [.sketch idleMachine smallSketch]).2.2
      idleMachine smallPack (by decide) sketched_roles rfl rfl
  rw [eq_of_gives hgives] at hcaps
  exact hcaps withinCaps_smallEntry

end SmallRun

end Cli
end Samkhya
