import Mathlib
import Samkhya.Arrow.CanonicalKey
import Samkhya.Core.SketchMerge

/-!
# Sketches of Polars series, next to Arrow's

The Polars sketcher turns the values of a series into bytes of its own accord,
whatever chunks they lie in.  On the types that both know it takes the bytes
that the Arrow ingestion takes.  So the two build the same sketches, and parts
of a column, built by either, merge to the sketch of the column
(`engines_agree`).

How the remaining values of a series print, and what becomes of them when they
are taken out of it, are Polars' own and enter as parameters.  Dates and
timestamps are among these: Arrow hashes their integers, Polars what they print.
-/

namespace Samkhya

open FieldCodec Binary64

/-- `AnyValue`, with the arms that `anyvalue_to_bytes` tells apart. -/
inductive AnyValue (τ : Type)
  | null
  | boolean (b : Bool)
  | uInt8 (v : UInt8)
  | uInt16 (v : UInt16)
  | uInt32 (v : UInt32)
  | uInt64 (v : UInt64)
  | int8 (v : Int8)
  | int16 (v : Int16)
  | int32 (v : Int32)
  | int64 (v : Int64)
  | float32 (bits : UInt32)
  | float64 (bits : UInt64)
  | string (s : String)
  | stringOwned (s : String)
  | binary (b : Bytes)
  | binaryOwned (b : Bytes)
  | other (v : τ)

/-- What Polars does with a value of the remaining types. -/
structure AnyValueApi (τ : Type) where
  debug : τ → String
  intoStatic : τ → τ

/-- A series: the values of its chunks, of which it has one at least. -/
structure Series (τ : Type) where
  chunks : List (List (AnyValue τ))
  chunks_ne_nil : chunks ≠ []
  length_lt : chunks.flatten.length < 2 ^ 64

/-- A sketch of a series fails, or the iteration panics. -/
inductive SeriesFailure
  | sketch (e : Error)
  | panicked

section Model

variable {τ σ : Type} (api : AnyValueApi τ)

/-- The bytes that are hashed for a value, none for a null. -/
def anyvalueToBytes : AnyValue τ → Option Bytes
  | .null => none
  | .boolean b => some [if b then 1 else 0]
  | .uInt8 v => some (ToLeBytes.toLeBytes v)
  | .uInt16 v => some (ToLeBytes.toLeBytes v)
  | .uInt32 v => some (ToLeBytes.toLeBytes v)
  | .uInt64 v => some (ToLeBytes.toLeBytes v)
  | .int8 v => some (ToLeBytes.toLeBytes v)
  | .int16 v => some (ToLeBytes.toLeBytes v)
  | .int32 v => some (ToLeBytes.toLeBytes v)
  | .int64 v => some (ToLeBytes.toLeBytes v)
  | .float32 bits => some (ToLeBytes.toLeBytes bits)
  | .float64 bits => some (ToLeBytes.toLeBytes bits)
  | .string s => some (asBytes s)
  | .stringOwned s => some (asBytes s)
  | .binary b => some b
  | .binaryOwned b => some b
  | .other v => some (asBytes (api.debug v))

/-- A value that no longer borrows from its series. -/
def AnyValue.intoStatic : AnyValue τ → AnyValue τ
  | string s => .stringOwned s
  | binary b => .binaryOwned b
  | other v => .other (api.intoStatic v)
  | v => v

namespace Series

def len (series : Series τ) : UInt64 :=
  UInt64.ofNat series.chunks.flatten.length

def nChunks (series : Series τ) : Nat :=
  series.chunks.length

def rechunk (series : Series τ) : Series τ where
  chunks := [series.chunks.flatten]
  chunks_ne_nil := List.cons_ne_nil _ _
  length_lt := by simpa using series.length_lt

/-- `Series::iter` panics unless there is one chunk. -/
def iter (series : Series τ) : Except SeriesFailure (List (AnyValue τ)) :=
  match series.chunks with
  | [chunk] => .ok chunk
  | _ => .error .panicked

end Series

/-- The values of a series, which is made one chunk before. -/
def iterAnyvalues
    (series : Series τ) : Except SeriesFailure (List (AnyValue τ)) :=
  if 1 < series.nChunks then
    series.rechunk.iter.map (List.map (AnyValue.intoStatic api))
  else
    series.iter

/-- The loop of the sketchers: feed the bytes of every value. -/
def feedSeries
    (series : Series τ)
    (f : σ → Bytes → σ)
    (s : σ) : Except SeriesFailure σ := do
  let values ← iterAnyvalues api series
  return values.foldl
    (fun s av =>
      match anyvalueToBytes api av with
      | some bytes => f s bytes
      | none => s)
    s

def hllFromSeries
    (hash : ItemHash)
    (series : Series τ)
    (precision : UInt8) : Except SeriesFailure HllSketch := do
  let hll ← (HllSketch.tryNew precision).mapError .sketch
  feedSeries api series (fun s bytes => s.add hash bytes) hll

/-- A filter sized for the length of the series. -/
def bloomFromSeries
    (math : SizingMath)
    (hash : DoubleHash)
    (series : Series τ)
    (fpRate : F64) : Except SeriesFailure BloomFilter :=
  feedSeries api series (fun s bytes => s.insert hash bytes)
    (BloomFilter.new math series.len fpRate)

def cmsFromSeries
    (hash : RowHash)
    (series : Series τ)
    (depth width : UInt32) : Except SeriesFailure CountMinSketch := do
  let cms ← (CountMinSketch.tryNew depth width).mapError .sketch
  feedSeries api series (fun s bytes => s.add hash bytes 1) cms

end Model

section Reading

variable {ο ν τ : Type}

/-- A value of a series is one of an Arrow type that Polars keys alike. -/
def DataType.ReadsAs : (t : DataType ο) → t.Native ν → AnyValue τ → Prop
  | int8 => fun (x : Int8) av => av = .int8 x
  | int16 => fun (x : Int16) av => av = .int16 x
  | int32 => fun (x : Int32) av => av = .int32 x
  | int64 => fun (x : Int64) av => av = .int64 x
  | uInt8 => fun (x : UInt8) av => av = .uInt8 x
  | uInt16 => fun (x : UInt16) av => av = .uInt16 x
  | uInt32 => fun (x : UInt32) av => av = .uInt32 x
  | uInt64 => fun (x : UInt64) av => av = .uInt64 x
  | float32 => fun (x : UInt32) av => av = .float32 x
  | float64 => fun (x : UInt64) av => av = .float64 x
  | utf8 | largeUtf8 => fun (s : String) av =>
      av = .string s ∨ av = .stringOwned s
  | binary | largeBinary => fun (b : Bytes) av =>
      av = .binary b ∨ av = .binaryOwned b
  | boolean => fun (b : Bool) av => av = .boolean b
  | _ => fun _ _ => False

/-- A row, with nulls for nulls. -/
def DataType.ReadsRow
    (t : DataType ο) : Option (t.Native ν) → AnyValue τ → Prop
  | none, av => av = .null
  | some x, av => t.ReadsAs x av

/-- The rows of a series, across its chunks. -/
def Series.Reads
    (series : Series τ)
    (t : DataType ο)
    (rows : List (Option (t.Native ν))) : Prop :=
  List.Forall₂ t.ReadsRow rows series.chunks.flatten

variable {t : DataType ο} {api : AnyValueApi τ}

theorem DataType.ReadsAs.recognised
    {x : t.Native ν}
    {av : AnyValue τ}
    (h : t.ReadsAs x av) :
    t.recognised = true := by
  cases t with
  | timestamp | other => cases h
  | _ => rfl

/-- Polars takes the canonical byte form. -/
theorem DataType.ReadsAs.anyvalueToBytes
    {x : t.Native ν}
    {av : AnyValue τ}
    (h : t.ReadsAs x av) :
    anyvalueToBytes api av = some (t.keyBytes x) := by
  cases t with
  | date32 | date64 | timestamp | other => cases h
  | utf8 | largeUtf8 | binary | largeBinary =>
      rcases h with rfl | rfl <;> rfl
  | _ =>
      cases h
      rfl

theorem DataType.ReadsAs.intoStatic
    {x : t.Native ν}
    {av : AnyValue τ}
    (h : t.ReadsAs x av) :
    t.ReadsAs x (av.intoStatic api) := by
  cases t with
  | date32 | date64 | timestamp | other => cases h
  | utf8 | largeUtf8 | binary | largeBinary =>
      rcases h with rfl | rfl <;> exact Or.inr rfl
  | _ =>
      cases h
      rfl

theorem DataType.ReadsRow.intoStatic
    {row : Option (t.Native ν)}
    {av : AnyValue τ}
    (h : t.ReadsRow row av) :
    t.ReadsRow row (av.intoStatic api) := by
  cases row with
  | none =>
      cases h
      rfl
  | some x => exact DataType.ReadsAs.intoStatic h

variable {rows : List (Option (t.Native ν))} {series : Series τ}

theorem recognised_of_readsRow
    {values : List (AnyValue τ)}
    (h : List.Forall₂ t.ReadsRow rows values)
    {x : t.Native ν}
    (hx : some x ∈ rows) :
    t.recognised = true := by
  induction h with
  | nil => cases hx
  | cons hrow _ ih =>
      rcases List.mem_cons.mp hx with rfl | hx
      · exact DataType.ReadsAs.recognised hrow
      · exact ih hx

/-- The iteration never panics, and chunks make no difference to it. -/
theorem Series.Reads.iterAnyvalues
    (h : series.Reads t rows) :
    ∃ values,
      Samkhya.iterAnyvalues api series = .ok values ∧
        List.Forall₂ t.ReadsRow rows values := by
  unfold Samkhya.iterAnyvalues
  split_ifs with hchunks
  · refine ⟨_, rfl, ?_⟩
    rw [List.forall₂_map_right_iff]
    exact List.Forall₂.imp (fun _ _ hrow => hrow.intoStatic) h
  · obtain ⟨chunk, hchunk⟩ : ∃ chunk, series.chunks = [chunk] := by
      rw [← List.length_eq_one_iff]
      have hpos := List.length_pos_iff.mpr series.chunks_ne_nil
      exact Nat.le_antisymm (Nat.not_lt.mp hchunks) hpos
    refine ⟨chunk, by rw [Series.iter, hchunk], ?_⟩
    simpa [Series.Reads, hchunk] using h

/-- A sketcher is fed the bytes that Arrow ingests. -/
theorem Series.Reads.feedSeries
    {σ : Type}
    (h : series.Reads t rows)
    (f : σ → Bytes → σ)
    (s : σ) :
    Samkhya.feedSeries api series f s =
      .ok ((rows.reduceOption.map t.keyBytes).foldl f s) := by
  obtain ⟨values, hvalues, hreads⟩ :
      ∃ values,
        Samkhya.iterAnyvalues api series = .ok values ∧
          List.Forall₂ t.ReadsRow rows values :=
    h.iterAnyvalues
  rw [Samkhya.feedSeries, hvalues]
  refine congrArg Except.ok ?_
  clear h hvalues
  induction hreads generalizing s with
  | nil => rfl
  | @cons row av rows values hrow _ ih =>
      cases row with
      | none =>
          cases hrow
          exact ih s
      | some x =>
          have hbytes : anyvalueToBytes api av = some (t.keyBytes x) :=
            DataType.ReadsAs.anyvalueToBytes hrow
          simp only [List.foldl_cons, hbytes,
            List.reduceOption_cons_of_some, List.map_cons]
          exact ih _

theorem Series.Reads.len
    (h : series.Reads t rows)
    (hlength : rows.length < 2 ^ 64) :
    series.len = (ArrowArray.mk t rows hlength).len :=
  congrArg UInt64.ofNat h.length_eq.symm

/-- The canonical bytes are what Arrow ingests. -/
theorem Series.Reads.ingested
    (h : series.Reads t rows)
    (hlength : rows.length < 2 ^ 64) :
    (ArrowArray.mk t rows hlength).ingested =
      rows.reduceOption.map t.keyBytes := by
  unfold ArrowArray.ingested
  split_ifs with hrecognised
  · rfl
  · -- A column of a type that is not recognised has nulls only.
    suffices hnulls : rows.reduceOption = [] by rw [hnulls, List.map_nil]
    rw [List.eq_nil_iff_forall_not_mem]
    intro x hx
    exact
      hrecognised
        (recognised_of_readsRow h (List.reduceOption_mem_iff.mp hx))

end Reading

section Parts

variable {ο ν τ : Type} (api : AnyValueApi τ)

/-- A part of a column, with the engine that sketches it. -/
inductive Part (t : DataType ο) (ν τ : Type)
  | arrow
      (rows : List (Option (t.Native ν)))
      (hlength : rows.length < 2 ^ 64)
  | polars
      (rows : List (Option (t.Native ν)))
      (series : Series τ)
      (hreads : series.Reads t rows)

namespace Part

variable {t : DataType ο}

def rows : Part t ν τ → List (Option (t.Native ν))
  | arrow rows _ => rows
  | polars rows _ _ => rows

theorem length_rows_lt (part : Part t ν τ) : part.rows.length < 2 ^ 64 := by
  cases part with
  | arrow rows hlength => exact hlength
  | polars rows series hreads =>
      exact hreads.length_eq ▸ series.length_lt

/-- The rows of a part, as an array. -/
def array (part : Part t ν τ) : ArrowArray ο ν :=
  ⟨t, part.rows, part.length_rows_lt⟩

/-- A HyperLogLog sketch of a part, by its engine. -/
def hll
    (hash : ItemHash)
    (precision : UInt8) :
    Part t ν τ → Except SeriesFailure HllSketch
  | arrow rows hlength => do
      let hll ← (HllSketch.tryNew precision).mapError .sketch
      return ingestArrayIntoHll hash ⟨t, rows, hlength⟩ hll
  | polars _ series _ => hllFromSeries api hash series precision

/-- A Count-Min sketch of a part, by its engine. -/
def cms
    (hash : RowHash)
    (depth width : UInt32) :
    Part t ν τ → Except SeriesFailure CountMinSketch
  | arrow rows hlength => do
      let cms ← (CountMinSketch.tryNew depth width).mapError .sketch
      return ingestArrayIntoCms hash ⟨t, rows, hlength⟩ cms 1
  | polars _ series _ => cmsFromSeries api hash series depth width

end Part

/-- Sketches of parts, to which items may be added, and which merge. -/
def partsHll
    (t : DataType ο)
    (ν : Type)
    (hash : ItemHash)
    (precision : UInt8) :
    Summary (Part t ν τ) Bytes HllSketch SeriesFailure where
  fresh := Part.hll api hash precision
  step s item := .ok (s.add hash item)
  merge s other := (s.merge other).mapError .sketch

def partsCms
    (t : DataType ο)
    (ν : Type)
    (hash : RowHash)
    (depth width : UInt32) :
    Summary (Part t ν τ) CountMinSketch.Update CountMinSketch
      SeriesFailure where
  fresh := Part.cms api hash depth width
  step s u := .ok (s.add hash u.1 u.2)
  merge s other := (s.merge other).mapError .sketch

end Parts

section Agreement

variable {ο ν τ : Type} {t : DataType ο} {api : AnyValueApi τ}

variable {rows : List (Option (t.Native ν))} {series : Series τ}

theorem hllFromSeries_eq
    (h : series.Reads t rows)
    (hlength : rows.length < 2 ^ 64)
    (hash : ItemHash)
    (precision : UInt8) :
    hllFromSeries api hash series precision =
      ((HllSketch.tryNew precision).map
        (ingestArrayIntoHll hash ⟨t, rows, hlength⟩)).mapError
          .sketch := by
  unfold hllFromSeries
  cases HllSketch.tryNew precision with
  | error e => rfl
  | ok s =>
      refine (h.feedSeries _ s).trans ?_
      rw [← h.ingested hlength, ← ArrowArray.forEachValue_fst]
      rfl

theorem cmsFromSeries_eq
    (h : series.Reads t rows)
    (hlength : rows.length < 2 ^ 64)
    (hash : RowHash)
    (depth width : UInt32) :
    cmsFromSeries api hash series depth width =
      ((CountMinSketch.tryNew depth width).map fun s =>
        ingestArrayIntoCms hash ⟨t, rows, hlength⟩ s 1).mapError
          .sketch := by
  unfold cmsFromSeries
  cases CountMinSketch.tryNew depth width with
  | error e => rfl
  | ok s =>
      refine (h.feedSeries _ s).trans ?_
      rw [← h.ingested hlength, ← ArrowArray.forEachValue_fst]
      rfl

theorem bloomFromSeries_eq
    (h : series.Reads t rows)
    (hlength : rows.length < 2 ^ 64)
    (math : SizingMath)
    (hash : DoubleHash)
    (fpRate : F64) :
    bloomFromSeries api math hash series fpRate =
      .ok
        (ingestArrayIntoBloom hash ⟨t, rows, hlength⟩
          (BloomFilter.new math (ArrowArray.mk t rows hlength).len
            fpRate)) := by
  unfold bloomFromSeries
  rw [h.feedSeries, h.len hlength, ← h.ingested hlength,
    ← ArrowArray.forEachValue_fst]
  rfl

/-- A part is sketched as Arrow sketches its rows. -/
theorem Part.hll_eq
    (part : Part t ν τ)
    (hash : ItemHash)
    (precision : UInt8) :
    part.hll api hash precision =
      ((HllSketch.tryNew precision).map
        (ingestArrayIntoHll hash part.array)).mapError .sketch := by
  cases part with
  | arrow rows hlength =>
      unfold Part.hll
      cases HllSketch.tryNew precision <;> rfl
  | polars rows series hreads =>
      exact hllFromSeries_eq hreads _ hash precision

theorem Part.cms_eq
    (part : Part t ν τ)
    (hash : RowHash)
    (depth width : UInt32) :
    part.cms api hash depth width =
      ((CountMinSketch.tryNew depth width).map fun s =>
        ingestArrayIntoCms hash part.array s 1).mapError .sketch := by
  cases part with
  | arrow rows hlength =>
      unfold Part.cms
      cases CountMinSketch.tryNew depth width <;> rfl
  | polars rows series hreads =>
      exact cmsFromSeries_eq hreads _ hash depth width

/-- Parts ingest, together, what the column ingests. -/
theorem flatMap_ingested_perm
    {parts : List (Part t ν τ)}
    {column : List (Option (t.Native ν))}
    (hlength : column.length < 2 ^ 64)
    (hcolumn : (parts.flatMap Part.rows).Perm column) :
    (parts.flatMap fun part => part.array.ingested).Perm
      (ArrowArray.mk t column hlength).ingested := by
  cases hrecognised : t.recognised with
  | false =>
      have hnone :
          ∀ array : ArrowArray ο ν, array.dataType = t →
            array.ingested = [] :=
        fun array htype => if_neg (by simp [htype, hrecognised])
      have hparts :
          (parts.flatMap fun part => part.array.ingested) = [] :=
        List.flatMap_eq_nil_iff.mpr fun part _ => hnone _ rfl
      rw [hparts, hnone _ rfl]
  | true =>
      have hsome :
          ∀ (rows : List (Option (t.Native ν))) hrows,
            (ArrowArray.mk t rows hrows).ingested =
              (rows.filterMap id).map t.keyBytes :=
        fun rows hrows => if_pos hrecognised
      have hvalues := (hcolumn.filterMap id).map t.keyBytes
      rw [List.filterMap_flatMap, List.map_flatMap] at hvalues
      simp only [Part.array, hsome]
      exact hvalues

variable {column : List (Option (t.Native ν))}

/-- Parts merge to the sketch of the column, whatever is sketched. -/
theorem run_parts_eq
    {π ω σ : Type}
    (hlength : column.length < 2 ^ 64)
    {S : Summary π ω σ Error}
    {T : Summary (Part t ν τ) ω σ SeriesFailure}
    {Records : π → List ω → σ → Prop}
    {Same : List ω → List ω → Prop}
    {update : σ → ω → σ}
    {item : Bytes → ω}
    {p : π}
    (hS : S.OrderFree Same Records)
    (hSame : ∀ {os os'}, os.Perm os' → Same os os')
    (hupdate : ∀ s op, S.step s op = .ok (update s op))
    (hfresh :
      ∀ part : Part t ν τ,
        T.fresh part =
          ((S.fresh p).map fun s =>
            (part.array.ingested.map item).foldl update s).mapError
              .sketch)
    (hstep : ∀ s op, T.step s op = (S.step s op).mapError .sketch)
    (hmerge : ∀ s s', T.merge s s' = (S.merge s s').mapError .sketch)
    {h : History (Part t ν τ) ω}
    (hcolumn : (h.params.flatMap Part.rows).Perm column) :
    h.run T =
      ((S.fresh p).map fun s =>
        h.ops.foldl update
          (((ArrowArray.mk t column hlength).ingested.map item).foldl
            update s)).mapError .sketch := by
  have hfold :
      ∀ (ops : List ω) s, ops.foldlM S.step s = .ok (ops.foldl update s) := by
    intro ops s
    have hpure : S.step = fun s op => pure (update s op) :=
      funext₂ hupdate
    rw [hpure]
    exact List.foldlM_pure
  cases hnew : S.fresh p with
  | error e =>
      refine History.run_eq_error (fun part => ?_) h
      rw [hfresh, hnew]
      rfl
  | ok s =>
      have hparts :
          ∀ part : Part t ν τ,
            T.fresh part =
              ((part.array.ingested.map item).foldlM S.step s).mapError
                .sketch := by
        intro part
        rw [hfresh, hnew, hfold]
        rfl
      have hall :
          (h.params.flatMap (fun part => part.array.ingested.map item) ++
              h.ops).Perm
            ((ArrowArray.mk t column hlength).ingested.map item ++
              h.ops) := by
        have hitems := (flatMap_ingested_perm hlength hcolumn).map item
        rw [List.map_flatMap] at hitems
        exact hitems.append_right _
      rw [hS.run_parts hSame hnew hparts hstep hmerge hall, hfold,
        List.foldl_append]
      rfl

theorem ingestArrayIntoHll_eq
    (hash : ItemHash)
    (array : ArrowArray ο ν) :
    ingestArrayIntoHll hash array = fun s =>
      array.ingested.foldl (HllSketch.add hash) s :=
  funext fun s => array.forEachValue_fst _ s

theorem run_partsHll
    {h : History (Part t ν τ) Bytes}
    (hcolumn : (h.params.flatMap Part.rows).Perm column)
    (hlength : column.length < 2 ^ 64)
    (hash : ItemHash)
    (precision : UInt8) :
    h.run (partsHll api t ν hash precision) =
      ((HllSketch.tryNew precision).map fun s =>
        h.ops.foldl (HllSketch.add hash)
          (ingestArrayIntoHll hash ⟨t, column, hlength⟩ s)).mapError
            .sketch := by
  have hfresh :
      ∀ part : Part t ν τ,
        (partsHll api t ν hash precision).fresh part =
          (((HllSketch.summary hash).fresh precision).map fun s =>
            (part.array.ingested.map id).foldl (HllSketch.add hash)
              s).mapError .sketch := by
    intro part
    refine (part.hll_eq hash precision).trans ?_
    rw [ingestArrayIntoHll_eq]
    simp only [List.map_id]
    rfl
  have hrun :=
    run_parts_eq hlength (HllSketch.summary_orderFree hash)
      (fun hperm x => hperm.mem_iff) (fun _ _ => rfl) hfresh
      (fun _ _ => rfl) (fun _ _ => rfl) hcolumn
  rw [ingestArrayIntoHll_eq]
  rwa [List.map_id] at hrun

theorem run_partsCms
    {h : History (Part t ν τ) CountMinSketch.Update}
    (hcolumn : (h.params.flatMap Part.rows).Perm column)
    (hlength : column.length < 2 ^ 64)
    (hash : RowHash)
    (depth width : UInt32) :
    h.run (partsCms api t ν hash depth width) =
      ((CountMinSketch.tryNew depth width).map fun s =>
        h.ops.foldl (fun s u => s.add hash u.1 u.2)
          (ingestArrayIntoCms hash ⟨t, column, hlength⟩ s 1)).mapError
            .sketch := by
  have hfresh :
      ∀ part : Part t ν τ,
        (partsCms api t ν hash depth width).fresh part =
          (((CountMinSketch.updates hash).fresh (depth, width)).map
            fun s =>
              (part.array.ingested.map fun item => (item, 1)).foldl
                (fun s u => s.add hash u.1 u.2) s).mapError
                  .sketch := by
    intro part
    refine (part.cms_eq hash depth width).trans ?_
    simp only [ingestArrayIntoCms, ArrowArray.forEachValue_fst,
      List.foldl_map]
    rfl
  have hrun :=
    run_parts_eq hlength (CountMinSketch.updates_orderFree hash) id
      (fun _ _ => rfl) hfresh (fun _ _ => rfl) (fun _ _ => rfl) hcolumn
  simp only [List.foldl_map] at hrun
  simp only [ingestArrayIntoCms, ArrowArray.forEachValue_fst]
  exact hrun

/--
**Arrow and Polars sketch alike.**  A series that reads as rows of a type,
in whatever chunks, gives the sketches that Arrow's ingestion of these rows
gives, and the same errors.  And whichever of the two sketches the parts of a
column, their sketches merge, in any order, to the sketch of the column.
-/
theorem engines_agree
    (api : AnyValueApi τ)
    (t : DataType ο) :
    (∀ (rows : List (Option (t.Native ν)))
        (hlength : rows.length < 2 ^ 64)
        (series : Series τ),
      series.Reads t rows →
      (∀ hash precision,
        hllFromSeries api hash series precision =
          ((HllSketch.tryNew precision).map
            (ingestArrayIntoHll hash ⟨t, rows, hlength⟩)).mapError
              .sketch) ∧
      (∀ hash depth width,
        cmsFromSeries api hash series depth width =
          ((CountMinSketch.tryNew depth width).map fun s =>
            ingestArrayIntoCms hash ⟨t, rows, hlength⟩ s 1).mapError
              .sketch) ∧
      ∀ math hash fpRate,
        bloomFromSeries api math hash series fpRate =
          .ok
            (ingestArrayIntoBloom hash ⟨t, rows, hlength⟩
              (BloomFilter.new math
                (ArrowArray.mk t rows hlength).len fpRate))) ∧
    ∀ (column : List (Option (t.Native ν)))
        (hlength : column.length < 2 ^ 64),
      (∀ (h : History (Part t ν τ) Bytes) hash precision,
        (h.params.flatMap Part.rows).Perm column →
        h.run (partsHll api t ν hash precision) =
          ((HllSketch.tryNew precision).map fun s =>
            h.ops.foldl (HllSketch.add hash)
              (ingestArrayIntoHll hash ⟨t, column, hlength⟩
                s)).mapError .sketch) ∧
      ∀ (h : History (Part t ν τ) CountMinSketch.Update) hash depth
          width,
        (h.params.flatMap Part.rows).Perm column →
        h.run (partsCms api t ν hash depth width) =
          ((CountMinSketch.tryNew depth width).map fun s =>
            h.ops.foldl (fun s u => s.add hash u.1 u.2)
              (ingestArrayIntoCms hash ⟨t, column, hlength⟩ s
                1)).mapError .sketch := by
  refine ⟨?_, ?_⟩
  · intro rows hlength series hreads
    exact
      ⟨hllFromSeries_eq hreads hlength, cmsFromSeries_eq hreads hlength,
        bloomFromSeries_eq hreads hlength⟩
  · intro column hlength
    exact
      ⟨fun h hash precision hcolumn =>
          run_partsHll hcolumn hlength hash precision,
        fun h hash depth width hcolumn =>
          run_partsCms hcolumn hlength hash depth width⟩

end Agreement

section TwoParts

/-- Nothing but the known types. -/
def emptyApi : AnyValueApi Empty where
  debug v := nomatch v
  intoStatic v := v

/-- Three rows in two chunks. -/
def twoChunks : Series Empty where
  chunks := [[.int64 7], [.null, .int64 9]]
  chunks_ne_nil := by decide
  length_lt := by decide

def threeRows : List (Option Int64) :=
  [some 7, none, some 9]

def int64Type : DataType Empty :=
  .int64

theorem twoChunks_reads :
    List.Forall₂ (@DataType.ReadsRow Empty Empty Empty int64Type)
      threeRows twoChunks.chunks.flatten :=
  .cons rfl (.cons rfl (.cons rfl .nil))

/-- One part by Arrow, the other by Polars. -/
def twoParts : History (Part int64Type Empty Empty) Bytes :=
  .merge (.fresh (.arrow [some (9 : Int64)] (by decide)))
    (.fresh (.polars threeRows twoChunks twoChunks_reads))

theorem engines_agree_twoParts :
    hllFromSeries emptyApi lengthItemHash twoChunks 4 =
      ((HllSketch.tryNew 4).map
        (ingestArrayIntoHll lengthItemHash
          (⟨int64Type, threeRows, by decide⟩ :
            ArrowArray Empty Empty))).mapError .sketch ∧
    twoParts.run (partsHll emptyApi int64Type Empty lengthItemHash 4) =
      ((HllSketch.tryNew 4).map
        (ingestArrayIntoHll lengthItemHash
          (⟨int64Type, (some 9 :: threeRows : List (Option Int64)),
            by decide⟩ : ArrowArray Empty Empty))).mapError .sketch := by
  obtain ⟨halone, hparts⟩ :=
    @engines_agree Empty Empty Empty emptyApi int64Type
  exact
    ⟨(halone _ _ _ twoChunks_reads).1 lengthItemHash 4,
      (hparts _ (by decide)).1 twoParts lengthItemHash 4 (.refl _)⟩

end TwoParts

end Samkhya
