import Mathlib
import Samkhya.Core.Bloom
import Samkhya.Core.CountMin
import Samkhya.Core.EquiDepth
import Samkhya.Core.Portable
import Samkhya.Foundations.DecimalFloat
import Samkhya.Foundations.Loops
import Samkhya.Foundations.SummaryHistory

/-!
# Sketches of CSV columns

`samkhya sketch` reads a column of a CSV file into a sketch and writes the
payload of the sketch to a file.  What is read back of such a file under the
kind of its sketch is settled here (`fromBytes_of_payload`): always something,
except for a histogram of a column that has the word for a NaN in it.

The CSV reader, the hashes, the sort and the float functions are parameters.
Every command meets a machine of its own, which may refuse to open or to create
a file and may stop any write.
-/

namespace Samkhya
namespace Cli

open FieldCodec ByteDevice Binary64 Saturating StableSort

variable {π : Type}

/-- The files of a disk. -/
abbrev Disk (π : Type) := π → Option Bytes

/-- What a command is allowed to do while it runs. -/
structure Machine (π : Type) where
  opens : π → Bool
  creates : π → Bool
  faults : List (Option Nat)

/-- What the commands call: the CSV reader, JSON, hashes, floats and a sort. -/
structure Host (π : Type) where
  display : π → String
  /-- The records of a text, behind its header if it has one. -/
  records : Bytes → Bool → List (Except String (List String))
  itemHash : ItemHash
  doubleHash : DoubleHash
  rowHash : RowHash
  sizing : SizingMath
  sort : SortBy comparator
  json : FooterJson
  json_roundTrips : json.RoundTrips

/-- How a command ends. -/
inductive Exit
  | success
  | failure (e : PortableError)
  | panic
deriving DecidableEq

/-- `File::open` and everything that is read of the file. -/
def Machine.read
    (machine : Machine π)
    (disk : Disk π)
    (path : π) : Except PortableError Bytes :=
  match disk path with
  | none => .error (.puffin .io)
  | some bytes =>
      if machine.opens path then .ok bytes else .error (.puffin .io)

theorem Machine.read_eq_ok_iff
    {machine : Machine π}
    {disk : Disk π}
    {path : π}
    {bytes : Bytes} :
    machine.read disk path = .ok bytes ↔
      disk path = some bytes ∧ machine.opens path = true := by
  unfold Machine.read
  cases disk path with
  | none => simp
  | some found =>
      simp only [Option.some.injEq]
      split_ifs with hopens <;> simp [hopens]

/-- `fs::write`: the old contents are gone once the file is created. -/
def Machine.write
    [DecidableEq π]
    (machine : Machine π)
    (disk : Disk π)
    (path : π)
    (payload : Bytes) : Exit × Disk π :=
  if machine.creates path then
    let sink : Sink := ⟨[], machine.faults⟩
    (if sink.accepts payload.length then
        .success
      else
        .failure (.puffin .io),
      Function.update disk path (some (sink.append payload).written))
  else
    (.failure (.puffin .io), disk)

/-- The sketches that the commands know. -/
inductive SketchKind
  | hll
  | bloom
  | cms
  | histogram
deriving DecidableEq

namespace SketchKind

/-- `Sketch::KIND`. -/
def kind : SketchKind → String
  | hll => HllSketch.kind
  | bloom => "samkhya.bloom-v1"
  | cms => "samkhya.cms-v1"
  | histogram => EquiDepthHistogram.kind

/-- `Sketch::from_bytes`, without the sketch. -/
def fromBytes (host : Host π) : SketchKind → Bytes → Except Error Unit
  | hll, bytes =>
      (HllSketch.fromBytes (.ofCodec HllFields.codec) bytes).map
        fun _ => ()
  | bloom, bytes =>
      (BloomFilter.fromBytes (.ofCodec BloomFields.codec) bytes).map
        fun _ => ()
  | cms, bytes =>
      (CountMinSketch.fromBytes (.ofCodec CountMinFields.codec)
        bytes).map fun _ => ()
  | histogram, bytes =>
      (EquiDepthHistogram.fromBytes host.sizing.display
        (.ofCodec EquiDepthHistogram.codec) bytes).map fun _ => ()

end SketchKind

section CsvIo

variable (host : Host π) (machine : Machine π) (disk : Disk π)

/-- Pass the cells of a column on, up to the first error. -/
def forEachCell
    {σ : Type}
    (input : π)
    (column : Nat)
    (header : Bool)
    (sink : σ → String → Except PortableError σ)
    (start : σ) : Except PortableError σ := do
  let bytes ← machine.read disk input
  (host.records bytes header).foldlM
    (fun s record =>
      match record with
      | .error e => .error (.sketch (.serde ("csv: " ++ e)))
      | .ok cells =>
          match cells[column]? with
          | none =>
              .error
                (.sketch
                  (.serde
                    ("csv row has no column " ++ toString column ++
                      " (got " ++ toString cells.length ++
                      " fields)")))
          | some cell => sink s cell)
    start

/-- Unicode white space. -/
def isWhitespace (c : Char) : Bool :=
  c.toNat ∈
      [0x9, 0xa, 0xb, 0xc, 0xd, 0x20, 0x85, 0xa0, 0x1680, 0x2028,
        0x2029, 0x202f, 0x205f, 0x3000] ∨
    0x2000 ≤ c.toNat ∧ c.toNat ≤ 0x200a

/-- `str::trim`. -/
def trim (cell : String) : String :=
  String.ofList
    (((cell.toList.dropWhile isWhitespace).reverse.dropWhile
      isWhitespace).reverse)

/-- The row number and the values so far, with one cell more. -/
def collectCell
    (column : Nat)
    (s : Nat × List F64)
    (cell : String) : Except PortableError (Nat × List F64) :=
  let row := s.1 + 1
  let trimmed := trim cell
  if trimmed = "" then
    .ok (row, s.2)
  else
    match F64.parse trimmed with
    | .error e =>
        .error
          (.sketch
            (.serde
              ("csv row " ++ toString row ++ " column " ++
                toString column ++ ": cannot parse '" ++ cell ++
                "' as f64: " ++ e)))
    | .ok v => .ok (row, s.2 ++ [v])

/-- A numeric column; empty cells are skipped. -/
def collectF64
    (input : π)
    (column : Nat)
    (header : Bool) : Except PortableError (List F64) :=
  (forEachCell host machine disk input column header
    (collectCell column) (0, [])).map Prod.snd

end CsvIo

/-- What `samkhya sketch` builds, with the arguments of the sketch. -/
inductive Build
  | hll (precision : UInt8)
  | bloom (capacity : UInt64) (fpRate : F64)
  | cms (depth width : UInt32)
  | histogram (buckets : UInt64)

def Build.kind : Build → SketchKind
  | hll _ => .hll
  | bloom _ _ => .bloom
  | cms _ _ => .cms
  | histogram _ => .histogram

/-- The arguments of `samkhya sketch`. -/
structure SketchCmd (π : Type) where
  build : Build
  input : π
  column : Nat
  header : Bool
  output : Option π

namespace SketchCmd

section Payloads

variable
  (host : Host π)
  (machine : Machine π)
  (disk : Disk π)
  (cmd : SketchCmd π)

/-- Add the cells of the column to a sketch. -/
def feed
    {σ : Type}
    (add : σ → Bytes → σ)
    (start : σ) : Except PortableError σ :=
  forEachCell host machine disk cmd.input cmd.column cmd.header
    (fun s cell => .ok (add s (asBytes cell))) start

/-- `sketch::hll` up to its output. -/
def hll (precision : UInt8) : Except PortableError Bytes := do
  let fresh ← (HllSketch.tryNew precision).mapError .sketch
  let sketch ←
    cmd.feed host machine disk (fun s => s.add host.itemHash) fresh
  (sketch.toBytes (.ofCodec HllFields.codec)).mapError .sketch

/-- `sketch::bloom` up to its output. -/
def bloom
    (capacity : UInt64)
    (fpRate : F64) : Except PortableError Bytes :=
  if capacity = 0 then
    .error
      (.sketch (.invalidSketch "bloom: --capacity must be > 0"))
  else if
      !fpRate.isFinite || fpRate.le F64.zero || F64.one.le fpRate then
    .error
      (.sketch
        (.invalidSketch
          ("bloom: --fp-rate must be a finite value in (0.0, 1.0), " ++
            "got " ++ host.sizing.display fpRate)))
  else do
    let sketch ←
      cmd.feed host machine disk (fun s => s.insert host.doubleHash)
        (BloomFilter.new host.sizing capacity fpRate)
    (sketch.toBytes (.ofCodec BloomFields.codec)).mapError .sketch

/-- `sketch::cms` up to its output. -/
def cms (depth width : UInt32) : Except PortableError Bytes := do
  let fresh ← (CountMinSketch.tryNew depth width).mapError .sketch
  let sketch ←
    cmd.feed host machine disk
      (fun s item => s.add host.rowHash item 1) fresh
  (sketch.toBytes (.ofCodec CountMinFields.codec)).mapError .sketch

/-- `sketch::histogram` up to its output; `none` is a panic. -/
def histogram
    (buckets : UInt64) : Option (Except PortableError Bytes) :=
  match
    collectF64 host machine disk cmd.input cmd.column cmd.header
  with
  | .error e => some (.error e)
  | .ok values =>
      -- a vector that is any longer cannot be allocated
      if hlength : values.length * 8 ≤ isizeMax then
        (EquiDepthHistogram.fromValues host.sort ⟨values, hlength⟩
          buckets).map fun built =>
            (built >>= EquiDepthHistogram.toBytes
              (.ofCodec EquiDepthHistogram.codec)).mapError .sketch
      else
        none

/-- The payload of the command's sketch. -/
def payload : Option (Except PortableError Bytes) :=
  match cmd.build with
  | .hll precision => some (cmd.hll host machine disk precision)
  | .bloom capacity fpRate =>
      some (cmd.bloom host machine disk capacity fpRate)
  | .cms depth width => some (cmd.cms host machine disk depth width)
  | .histogram buckets => cmd.histogram host machine disk buckets

/-- `samkhya sketch`. -/
def run [DecidableEq π] : Exit × Disk π :=
  match cmd.payload host machine disk with
  | none => (.panic, disk)
  | some (.error e) => (.failure e, disk)
  | some (.ok payload) =>
      match cmd.output with
      | none => (.success, disk)
      | some path => machine.write disk path payload

/-- Some cell of the column is the word for a NaN. -/
def HasNaN : Prop :=
  match machine.read disk cmd.input with
  | .error _ => False
  | .ok bytes =>
      ∃ cells, .ok cells ∈ host.records bytes cmd.header ∧
        ∃ cell, cells[cmd.column]? = some cell ∧
          F64.SpellsNaN (trim cell)

end Payloads

end SketchCmd

section ReadBack

variable
  {host : Host π}
  {machine : Machine π}
  {disk : Disk π}

/-- What passing on every cell keeps, the whole pass keeps. -/
theorem of_forEachCell
    {σ : Type}
    {P : σ → Prop}
    {input : π}
    {column : Nat}
    {header : Bool}
    {sink : σ → String → Except PortableError σ}
    {start final : σ}
    (hrun :
      forEachCell host machine disk input column header sink start =
        .ok final)
    (hstart : P start)
    (hstep :
      ∀ bytes, machine.read disk input = .ok bytes →
        ∀ cells, .ok cells ∈ host.records bytes header →
          ∀ cell, cells[column]? = some cell →
            ∀ s s', P s → sink s cell = .ok s' → P s') :
    P final := by
  unfold forEachCell at hrun
  cases hread : machine.read disk input with
  | error e =>
      rw [hread] at hrun
      cases hrun
  | ok bytes =>
      rw [hread] at hrun
      refine Loops.of_foldlM_eq_ok ?_ hstart hrun
      intro record hrecord s s' hs hround
      cases record with
      | error e => cases hround
      | ok cells =>
          cases hcell : cells[column]? with
          | none =>
              simp only [hcell] at hround
              cases hround
          | some cell =>
              simp only [hcell] at hround
              exact hstep bytes hread cells hrecord cell hcell s s' hs hround

/-- A numeric column without the word for a NaN has none. -/
theorem isNaN_of_collectF64
    {cmd : SketchCmd π}
    {values : List F64}
    (hrun :
      collectF64 host machine disk cmd.input cmd.column cmd.header =
        .ok values)
    (hnone : ¬ cmd.HasNaN host machine disk) :
    ∀ v ∈ values, v.isNaN = false := by
  unfold collectF64 at hrun
  cases hcells :
      forEachCell host machine disk cmd.input cmd.column cmd.header
        (collectCell cmd.column) (0, []) with
  | error e =>
      rw [hcells] at hrun
      cases hrun
  | ok final =>
      rw [hcells] at hrun
      obtain rfl := Except.ok.inj hrun
      refine
        of_forEachCell (P := fun s => ∀ v ∈ s.2, v.isNaN = false) hcells
          (by simp) ?_
      intro bytes hread cells hrecord cell hcell s s' hs hsink
      unfold collectCell at hsink
      simp only at hsink
      split at hsink
      · obtain rfl := Except.ok.inj hsink
        exact hs
      · cases hparse : F64.parse (trim cell) with
        | error e =>
            simp only [hparse] at hsink
            cases hsink
        | ok v =>
            simp only [hparse] at hsink
            obtain rfl := Except.ok.inj hsink
            have hv : v.isNaN = false := by
              by_contra hnan
              rw [Bool.not_eq_false] at hnan
              apply hnone
              rw [SketchCmd.HasNaN, hread]
              exact
                ⟨cells, hrecord, cell, hcell,
                  F64.spellsNaN_of_parse hparse hnan⟩
            intro x hx
            rcases List.mem_append.mp hx with hold | hnew
            · exact hs x hold
            · rw [List.mem_singleton.mp hnew]
              exact hv

/-- A value that is read back is read back from what it was written as. -/
theorem fromBytes_of_toBytes
    {σ : Type}
    {toBytes : Except Error Bytes}
    {fromBytes : Bytes → Except Error σ}
    {s : σ}
    {bytes : Bytes}
    (hhop : (toBytes >>= fromBytes) = .ok s)
    (hwrite : toBytes.mapError PortableError.sketch = .ok bytes) :
    (fromBytes bytes).map (fun _ => ()) = .ok () := by
  cases toBytes with
  | error e => cases hwrite
  | ok found =>
      obtain rfl := Except.ok.inj hwrite
      have hread : fromBytes found = .ok s := hhop
      rw [hread]
      rfl

namespace SketchCmd

variable {cmd : SketchCmd π} {bytes : Bytes}

theorem fromBytes_of_histogram
    {buckets : UInt64}
    (h :
      cmd.histogram host machine disk buckets = some (.ok bytes))
    (hnone : ¬ cmd.HasNaN host machine disk) :
    SketchKind.histogram.fromBytes host bytes = .ok () := by
  unfold histogram at h
  cases hvalues :
      collectF64 host machine disk cmd.input cmd.column cmd.header with
  | error e =>
      simp only [hvalues] at h
      cases Option.some.inj h
  | ok values =>
      simp only [hvalues] at h
      split_ifs at h with hlength
      cases hbuilt :
          EquiDepthHistogram.fromValues host.sort ⟨values, hlength⟩
            buckets with
      | none =>
          rw [hbuilt] at h
          cases h
      | some built =>
          rw [hbuilt] at h
          cases built with
          | error e => cases Option.some.inj h
          | ok sketch =>
              have hsurvives :
                  sketch.Survives host.sizing.display :=
                EquiDepthHistogram.survives_of_fromValues_iff.mpr
                  (Or.inr
                    (Or.inr
                      (Or.inl (isNaN_of_collectF64 hvalues hnone))))
                  _ _ hbuilt
              exact fromBytes_of_toBytes hsurvives (Option.some.inj h)

/-- A payload is read back under its kind. -/
theorem fromBytes_of_payload
    (h : cmd.payload host machine disk = some (.ok bytes))
    (hnone :
      cmd.build.kind = .histogram → ¬ cmd.HasNaN host machine disk) :
    cmd.build.kind.fromBytes host bytes = .ok () := by
  unfold payload at h
  cases hbuild : cmd.build with
  | hll precision =>
      simp only [hbuild, Option.some.injEq, hll] at h
      obtain ⟨fresh, _, hrest⟩ := except_bind_eq_ok h
      obtain ⟨sketch, _, hwrite⟩ := except_bind_eq_ok hrest
      exact fromBytes_of_toBytes sketch.hop_self hwrite
  | bloom capacity fpRate =>
      simp only [hbuild, Option.some.injEq, bloom] at h
      split_ifs at h
      obtain ⟨sketch, _, hwrite⟩ := except_bind_eq_ok h
      exact fromBytes_of_toBytes sketch.hop_self hwrite
  | cms depth width =>
      simp only [hbuild, Option.some.injEq, cms] at h
      obtain ⟨fresh, _, hrest⟩ := except_bind_eq_ok h
      obtain ⟨sketch, _, hwrite⟩ := except_bind_eq_ok hrest
      exact fromBytes_of_toBytes sketch.hop_self hwrite
  | histogram buckets =>
      simp only [hbuild] at h
      exact fromBytes_of_histogram h (hnone (by rw [hbuild]; rfl))

end SketchCmd

end ReadBack

end Cli
end Samkhya
