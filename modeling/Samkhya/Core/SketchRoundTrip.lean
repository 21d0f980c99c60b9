import Mathlib
import Samkhya.Core.Bloom
import Samkhya.Core.CorrelatedHistogram
import Samkhya.Core.CountMin
import Samkhya.Core.EquiDepth
import Samkhya.Core.Hll

/-!
# Reading back every sketch that can be built

Four of the five sketches are types of well-formed values: what a constructor,
an update or a merge returns satisfies what the decoder checks, and every such
value is read back.  The equi-depth histogram has no such invariant.  Its empty
shell is read back, but a column with a NaN may end up with the NaN at a bucket
edge, where the decoder refuses it.
-/

namespace Samkhya

open FieldCodec Binary64 StableSort

/--
**Every sketch is read back as it was written**, except the equi-depth
histograms of columns that leave a NaN at a bucket edge.
-/
theorem sketches_survive_iff
    (display : F64 → String)
    (values : F64Slice)
    (buckets : UInt64) :
    (∀ s : HllSketch,
      (s.toBytes (.ofCodec HllFields.codec) >>=
        HllSketch.fromBytes (.ofCodec HllFields.codec)) = .ok s) ∧
    (∀ s : BloomFilter,
      (s.toBytes (.ofCodec BloomFields.codec) >>=
        BloomFilter.fromBytes (.ofCodec BloomFields.codec)) =
          .ok s) ∧
    (∀ s : CountMinSketch,
      (s.toBytes (.ofCodec CountMinFields.codec) >>=
        CountMinSketch.fromBytes (.ofCodec CountMinFields.codec)) =
          .ok s) ∧
    (∀ h : CorrelatedHistogram2D,
      (h.toBytes (.ofCodec CorrelatedFields.codec) >>=
        CorrelatedHistogram2D.fromBytes
          (.ofCodec CorrelatedFields.codec)) = .ok h) ∧
    (∀ h, EquiDepthHistogram.tryNew buckets = some (.ok h) →
      h.Survives display) ∧
    ((∀ sort h,
        EquiDepthHistogram.fromValues sort values buckets =
          some (.ok h) →
        h.Survives display) ↔
      EquiDepthHistogram.NumberEdges values buckets) :=
  ⟨HllSketch.hop_self, BloomFilter.hop_self, CountMinSketch.hop_self,
    CorrelatedHistogram2D.hop_self,
    fun _ => EquiDepthHistogram.survives_of_tryNew,
    EquiDepthHistogram.survives_of_fromValues_iff⟩

/-- A column of a NaN and a number. -/
def nanColumn : F64Slice where
  values := [.nan, .one]
  length_le := by decide

/-- Its histogram has the NaN as its least edge. -/
def nanHistogram : EquiDepthHistogram where
  boundaries := [.nan, .nan, .one]
  counts := [1, 1]
  total := 2

/-- `from_values` builds it, and it is not read back. -/
theorem nanHistogram_lost :
    EquiDepthHistogram.fromValues
        (.rearranging comparator id fun _ => .refl _) nanColumn 2 =
      some (.ok nanHistogram) ∧
    ¬ nanHistogram.Survives fun _ => "NaN" := by
  have hsame :
      ∀ a ∈ nanColumn.values, ∀ b ∈ nanColumn.values,
        a.lt b = false := by
    decide +kernel
  have hpairwise :
      nanColumn.values.Pairwise
        (fun a b => (comparator a b).isLE = true) :=
    List.pairwise_of_forall_mem_list fun a ha b hb =>
      EquiDepthHistogram.isLE_comparator_iff.mpr (hsame b hb a ha)
  have hrun :=
    (SortBy.rearranging comparator id fun _ => .refl _).sorts _
      (EquiDepthHistogram.totalOn_of_same hsame)
  rw [stableSort_of_pairwise hpairwise] at hrun
  constructor
  · rw [EquiDepthHistogram.fromValues_eq_ok_iff]
    exact ⟨by decide, by decide, _, hrun, by decide⟩
  · have hfits : EquiDepthHistogram.codec.Fits nanHistogram :=
      ⟨⟨by decide, fun _ _ => trivial⟩,
        ⟨by decide, fun _ _ => trivial⟩, trivial⟩
    rw [EquiDepthHistogram.survives_iff hfits]
    intro hvalid
    have hnan := hvalid.numbers .nan (by decide)
    exact absurd hnan (by decide +kernel)

end Samkhya
