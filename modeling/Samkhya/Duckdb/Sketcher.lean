import Mathlib
import Samkhya.Core.Hll

/-!
# HyperLogLog sketches of DuckDB columns

`build_hll_from_query` feeds column 0 of every result row into a fresh sketch.
NULLs are added as one sentinel token, so the sketch may have seen one item
more than the column has distinct values; the degree of a column with a NULL
row has that one row to spare.

Display of floats and decimals and the debug form of the remaining types are
DuckDB's and Rust's own, and enter as a parameter.
-/

namespace Samkhya

open Multiplicity FieldCodec

/-- `duckdb::types::ValueRef`, with the arms that `value_bytes` tells apart. -/
inductive ValueRef (δ ο : Type)
  | null
  | boolean (b : Bool)
  | tinyInt (v : Int8)
  | smallInt (v : Int16)
  | int (v : Int32)
  | bigInt (v : Int64)
  | hugeInt (v : BitVec 128)
  | uTinyInt (v : UInt8)
  | uSmallInt (v : UInt16)
  | uInt (v : UInt32)
  | uBigInt (v : UInt64)
  | float (v : Float32)
  | double (v : Float)
  | decimal (v : δ)
  | text (s : Bytes)
  | blob (b : Bytes)
  | other (v : ο)

/-- Texts of the values whose formatting is not the sketcher's. -/
structure ValueDisplay (δ ο : Type) where
  float : Float32 → String
  double : Float → String
  decimal : δ → String
  debug : ο → String

variable {δ ο : Type}

/-- `b"\x00NULL"`. -/
def nullToken : Bytes :=
  0 :: asBytes "NULL"

/-- The bytes that are hashed for a value. -/
def valueBytes
    (display : ValueDisplay δ ο) : ValueRef δ ο → Bytes
  | .null => nullToken
  | .boolean b => asBytes (if b then "1" else "0")
  | .tinyInt v => asBytes (toString v)
  | .smallInt v => asBytes (toString v)
  | .int v => asBytes (toString v)
  | .bigInt v => asBytes (toString v)
  | .hugeInt v => asBytes (toString v.toInt)
  | .uTinyInt v => asBytes (toString v)
  | .uSmallInt v => asBytes (toString v)
  | .uInt v => asBytes (toString v)
  | .uBigInt v => asBytes (toString v)
  | .float v => asBytes (display.float v)
  | .double v => asBytes (display.double v)
  | .decimal v => asBytes (display.decimal v)
  | .text s => s
  | .blob b => b
  | .other v => asBytes (display.debug v)

def mapDuckErr (e : String) : Error :=
  .feedback ("duckdb: " ++ e)

/-- One round of the row loop; reading the row may fail. -/
def addRow
    (hash : ItemHash)
    (display : ValueDisplay δ ο)
    (sketch : HllSketch)
    (row : Except String (ValueRef δ ο)) : Except Error HllSketch := do
  let val ← row.mapError mapDuckErr
  return sketch.add hash (valueBytes display val)

/--
Build a sketch from column 0 of a result.  The result is an error when the
statement does not prepare or run, otherwise the rows it yields.
-/
def buildHllFromQuery
    (hash : ItemHash)
    (display : ValueDisplay δ ο)
    (result : Except String (List (Except String (ValueRef δ ο))))
    (precision : UInt8) : Except Error HllSketch := do
  let sketch ← HllSketch.tryNew precision
  let rows ← result.mapError mapDuckErr
  rows.foldlM (addRow hash display) sketch

/--
The key of a value: none for NULL, else the bytes it is hashed as.  Values that
are equal in SQL can have two keys, as the doubles 0.0 and -0.0 do.
-/
def ValueRef.key
    (display : ValueDisplay δ ο) : ValueRef δ ο → Option Bytes
  | .null => none
  | v => some (valueBytes display v)

/-- A value is hashed as its key, and NULL as the token. -/
theorem valueBytes_eq
    (display : ValueDisplay δ ο)
    (v : ValueRef δ ο) :
    (v.key display = none ∧ valueBytes display v = nullToken) ∨
      v.key display = some (valueBytes display v) := by
  cases v with
  | null =>
      exact Or.inl ⟨rfl, rfl⟩
  | _ =>
      exact Or.inr rfl

/-- The row loop adds every value of the column. -/
theorem foldlM_addRow_tracks
    {hash : ItemHash}
    {display : ValueDisplay δ ο}
    {column : List (ValueRef δ ο)}
    {items : List Bytes}
    {sketch t : HllSketch}
    (hsketch : sketch.Tracks hash items)
    (h :
      (column.map Except.ok).foldlM (addRow hash display) sketch =
        .ok t) :
    t.Tracks hash (items ++ column.map (valueBytes display)) := by
  induction column generalizing items sketch with
  | nil =>
      cases h
      simpa using hsketch
  | cons v column ih =>
      have hstep := hsketch.add (valueBytes display v)
      have hrest := ih hstep h
      simpa using hrest

/-- What the loop adds are the keys of the column, and the token for NULLs. -/
theorem addsOnly_valueBytes
    (display : ValueDisplay δ ο)
    (column : List (ValueRef δ ο)) :
    HllSketch.AddsOnly id
      (column.map (ValueRef.key display))
      (column.map (valueBytes display)) := by
  have hkey :
      ∀ v ∈ column, ∀ k, v.key display = some k →
        k ∈ nonNulls (column.map (ValueRef.key display)) := by
    intro v hv k hk
    rw [List.reduceOption_mem_iff]
    exact List.mem_map.mpr ⟨v, hv, hk⟩
  by_cases hnull : none ∈ column.map (ValueRef.key display)
  · refine Or.inr ⟨hnull, nullToken, ?_⟩
    intro item hitem
    obtain ⟨v, hv, rfl⟩ := List.mem_map.mp hitem
    rcases valueBytes_eq display v with ⟨_, htoken⟩ | hk
    · exact Or.inl htoken
    · exact Or.inr ⟨_, hkey v hv _ hk, rfl⟩
  · refine Or.inl ?_
    intro item hitem
    obtain ⟨v, hv, rfl⟩ := List.mem_map.mp hitem
    rcases valueBytes_eq display v with ⟨hnone, _⟩ | hk
    · exact absurd (List.mem_map.mpr ⟨v, hv, hnone⟩) hnull
    · exact ⟨_, hkey v hv _ hk, rfl⟩

/-- A successful build tracks the bytes of every value of the column. -/
theorem buildHllFromQuery_tracks
    {hash : ItemHash}
    {display : ValueDisplay δ ο}
    {column : List (ValueRef δ ο)}
    {precision : UInt8}
    {t : HllSketch}
    (h :
      buildHllFromQuery hash display
        (.ok (column.map Except.ok)) precision = .ok t) :
    t.Tracks hash (column.map (valueBytes display)) := by
  obtain ⟨sketch, hnew, hrows⟩ := except_bind_eq_ok h
  exact
    foldlM_addRow_tracks
      ((HllSketch.tracks_invariant hash).fresh precision sketch hnew)
      hrows

/--
**HyperLogLog sketches and the degrees they give are sound.**  For every
history of constructions, additions and merges that runs to a sketch, and for
every column that DuckDB's sketcher digests.
-/
theorem hll_sound
    (hash : ItemHash)
    (h : History UInt8 Bytes)
    (s : HllSketch)
    (hrun : h.run (HllSketch.summary hash) = .ok s) :
    (∀ item,
      HllSketch.registerIndex s.precision (hash item) <
        s.registers.length) ∧
    (∀ r ∈ s.registers,
      r.toNat ≤ 64 - s.precision.toNat + 1) ∧
    s.nonzeroRegisters.toNat ≤ h.ops.dedup.length ∧
    (∀ (rows : UInt64) (keys : List (Option Bytes)),
      keys.length ≤ rows.toNat →
      HllSketch.AddsOnly id keys h.ops →
      maxShare keys ≤
        (AttributeDegree.fromHllFloor rows s).maxDegree.toNat) ∧
    (∀ (display : ValueDisplay δ ο) (column : List (ValueRef δ ο))
      (t : HllSketch) (rows : UInt64),
      buildHllFromQuery hash display
        (.ok (column.map Except.ok)) s.precision = .ok t →
      column.length ≤ rows.toNat →
      maxShare (column.map (ValueRef.key display)) ≤
        (AttributeDegree.fromHllFloor rows t).maxDegree.toNat) := by
  have hs := (HllSketch.tracks_invariant hash).of_run hrun
  refine ⟨?_, ?_, hs.nonzeroRegisters_le, ?_, ?_⟩
  · intro item
    rw [s.wellFormed.length_eq]
    exact
      HllSketch.registerIndex_lt s.wellFormed.le_precision
        s.wellFormed.precision_le _
  · intro r hr
    obtain ⟨i, hi, rfl⟩ := List.getElem_of_mem hr
    rw [← List.getD_eq_getElem _ 0 hi]
    exact hs.le_rank i hi
  · intro rows keys hrows hitems
    exact
      AttributeDegree.maxShare_le_fromHllFloor hs hrows hitems
  · intro display column t rows hbuild hrows
    exact
      AttributeDegree.maxShare_le_fromHllFloor
        (buildHllFromQuery_tracks hbuild)
        (by simpa using hrows)
        (addsOnly_valueBytes display column)

section MergedItems

/-- The length of the item, in the leading four bits. -/
def leadingHash : ItemHash :=
  fun item => UInt64.ofNat item.length <<< 60

/-- Two sketches of one item each, merged. -/
def mergedItems : History UInt8 Bytes :=
  .merge (.step (.fresh 4) [7]) (.step (.fresh 4) [7, 7])

def mergedItemsSketch : HllSketch where
  precision := 4
  registers := [0, 61, 61, 0, 0, 0, 0, 0, 0, 0, 0, 0, 0, 0, 0, 0]
  wellFormed := ⟨by decide, by decide, rfl⟩

theorem mergedItems_run :
    mergedItems.run (HllSketch.summary leadingHash) =
      .ok mergedItemsSketch := by
  decide +kernel

theorem hll_sound_mergedItems :
    mergedItemsSketch.nonzeroRegisters.toNat ≤
        mergedItems.ops.dedup.length ∧
      maxShare
          ([some [7], none, some [7, 7], some [7]] :
            List (Option Bytes)) ≤
        (AttributeDegree.fromHllFloor 4
          mergedItemsSketch).maxDegree.toNat := by
  obtain ⟨_, _, hfloor, hdegree, _⟩ :=
    hll_sound (δ := Empty) (ο := Empty) leadingHash mergedItems
      mergedItemsSketch mergedItems_run
  refine ⟨hfloor, ?_⟩
  apply hdegree
  · decide
  refine Or.inl ?_
  intro item hitem
  refine ⟨item, ?_, rfl⟩
  revert item
  decide

end MergedItems

end Samkhya
