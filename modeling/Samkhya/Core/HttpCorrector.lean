import Mathlib
import Samkhya.Core.PuffinFooter
import Samkhya.Core.Stats
import Samkhya.Foundations.RoundToEven
import Samkhya.Foundations.Saturating

/-!
# Correctors behind HTTP

Both HTTP backends post the feature vector and the baseline as JSON, read an
integer back, and clamp it to the ceiling; whatever goes wrong on the way is no
estimate.  How `ryu` spells a double is a parameter.
-/

namespace Samkhya

open Binary64 Saturating FooterText

/-- Clamp without an error; a NaN counts as zero. -/
def saturatingClamp (estimate : F64) (ceiling : UInt64) : UInt64 :=
  let clamped :=
    ((estimate.max F64.zero).min (F64.ofU64 (UInt64.ofNat u64Max))).toU64
  if ceiling < clamped then ceiling else clamped

/-- An integer through a double and under a ceiling. -/
theorem toNat_saturatingClamp_ofU64
    (n ceiling : UInt64) :
    (saturatingClamp (F64.ofU64 n) ceiling).toNat =
      min (min (roundEven n.toNat) u64Max) ceiling.toNat := by
  obtain ⟨hfinite, hscaled⟩ := F64.scaled_ofU64 n
  obtain ⟨htop, htopScaled⟩ := F64.scaled_ofU64 (UInt64.ofNat u64Max)
  have hround : roundEven (UInt64.ofNat u64Max).toNat = 2 ^ 64 := by
    decide +kernel
  rw [hround] at htopScaled
  have hnan := F64.isFinite_not_isNaN hfinite
  have htopNan := F64.isFinite_not_isNaN htop
  have hzero : F64.zero.isNaN = false := by decide +kernel
  have hzeroScaled : F64.zero.scaled = 0 := by decide +kernel
  have hunit := F64.unitsPerOne_pos
  have hmax : (F64.ofU64 n).max F64.zero = F64.ofU64 n := by
    have hlt : (F64.ofU64 n).lt F64.zero = false := by
      rw [Bool.eq_false_iff, Ne, F64.lt_iff hnan hzero, hscaled,
        hzeroScaled]
      omega
    simp [F64.max, hnan, hzero, hlt]
  have hvalue :
      (((F64.ofU64 n).min
          (F64.ofU64 (UInt64.ofNat u64Max))).toU64).toNat =
        min (roundEven n.toNat) u64Max := by
    have htruncate :
        ((F64.ofU64 n).min
            (F64.ofU64 (UInt64.ofNat u64Max))).truncate =
          min (roundEven n.toNat) (2 ^ 64) := by
      have hcut :=
        F64.lt_iff htopNan hnan
      rw [htopScaled, hscaled, Nat.cast_lt,
        Nat.mul_lt_mul_right hunit] at hcut
      by_cases hlt : 2 ^ 64 < roundEven n.toNat
      · simp only [F64.min, hnan, htopNan, hcut.mpr hlt, if_true,
          Bool.false_eq_true, if_false]
        rw [F64.truncate, htopNan, htopScaled, Int.toNat_natCast,
          Nat.mul_div_cancel _ hunit, min_eq_right hlt.le]
        rfl
      · have hnot :
            (F64.ofU64 (UInt64.ofNat u64Max)).lt (F64.ofU64 n) =
              false := by
          rw [Bool.eq_false_iff, Ne, hcut]
          exact hlt
        simp only [F64.min, hnan, htopNan, hnot, Bool.false_eq_true,
          if_false]
        rw [F64.truncate, hnan, hscaled, Int.toNat_natCast,
          Nat.mul_div_cancel _ hunit, min_eq_left (not_lt.mp hlt)]
        rfl
    have hlimit : u64Max = 2 ^ 64 - 1 := by decide
    rw [F64.toU64, htruncate, UInt64.toNat_ofNat_of_lt']
    · rw [hlimit]
      change min (min _ _) (2 ^ 64 - 1) = _
      omega
    · change min (min _ _) (2 ^ 64 - 1) < 2 ^ 64
      omega
  unfold saturatingClamp
  simp only [hmax, UInt64.lt_iff_toNat_lt, hvalue]
  split_ifs with hlt
  · omega
  · rw [hvalue]
    omega

theorem saturatingClamp_le
    (estimate : F64)
    (ceiling : UInt64) :
    saturatingClamp estimate ceiling ≤ ceiling := by
  unfold saturatingClamp
  simp only
  split_ifs with h
  · exact UInt64.le_refl _
  · exact UInt64.not_lt.mp h

/-- `CorrectionFeatures::FEATURE_LEN`. -/
def featureLen : Nat := 7

/-- The feature vector; an absent count is zero. -/
def CorrectionFeatures.toVec (f : CorrectionFeatures) : List F64 :=
  [F64.ofU64 f.baselineEstimate,
    F64.ofU64 (f.leftInputRows.getD 0),
    F64.ofU64 (f.rightInputRows.getD 0),
    F64.ofU64 (f.leftDistinct.getD 0),
    F64.ofU64 (f.rightDistinct.getD 0),
    F64.ofU64 f.predicateCount.toUInt64,
    F64.ofU64 f.joinDepth.toUInt64]

theorem CorrectionFeatures.isFinite_of_mem_toVec
    {f : CorrectionFeatures}
    {x : F64}
    (hx : x ∈ f.toVec) :
    x.isFinite = true := by
  simp only [toVec, List.mem_cons, List.not_mem_nil, or_false] at hx
  rcases hx with rfl | rfl | rfl | rfl | rfl | rfl | rfl <;>
    exact (F64.scaled_ofU64 _).1

/-- How doubles are spelled: at most 24 characters of a JSON number. -/
structure FloatText where
  text : F64 → List Char
  number : ∀ x, x.isFinite = true → Json.NumberText (text x)
  short : ∀ x, x.isFinite = true → (text x).length ≤ 24

namespace HttpCorrector

/-- The members of `InferRequest`. -/
def requestMembers
    (ryu : FloatText)
    (f : CorrectionFeatures) : List (List Char × Json.Value) :=
  [("features".toList, .arr (f.toVec.map fun x => .num (ryu.text x))),
    ("baseline_estimate".toList, intValue f.baselineEstimate.toNat)]

/-- `InferRequest`. -/
def requestValue (ryu : FloatText) (f : CorrectionFeatures) : Json.Value :=
  .obj (requestMembers ryu f)

def requestBytes (ryu : FloatText) (f : CorrectionFeatures) : List UInt8 :=
  Json.encode (requestValue ryu f)

/-- `InferResponse`; members besides the estimate are ignored. -/
def readResponse (bytes : List UInt8) : Option UInt64 :=
  match Json.decode bytes.length bytes with
  | none => none
  | some value =>
      (do
        let found ← slots ["estimate".toList] value
        required readU64 found "estimate".toList).toOption

/-- What a transport delivers: a status and a body, or nothing. -/
abbrev Delivery := Option (Nat × List UInt8)

/-- One inference call; statuses from 400 on are errors of the transport. -/
def tryInfer (delivery : Delivery) : Option UInt64 :=
  match delivery with
  | none => none
  | some (status, body) =>
      if 400 ≤ status then none else readResponse body

/-- `correct`: every failure is no estimate, anything else is clamped. -/
def correct (ceiling : UInt64) (delivery : Delivery) : Option UInt64 :=
  (tryInfer delivery).map fun raw =>
    saturatingClamp (F64.ofU64 raw) ceiling

theorem fits_requestValue
    (ryu : FloatText)
    (f : CorrectionFeatures) :
    Json.Fits 2 (requestValue ryu f) := by
  intro member hmember
  simp only [requestMembers, List.mem_cons, List.not_mem_nil, or_false]
    at hmember
  rcases hmember with rfl | rfl
  · intro value hvalue
    obtain ⟨x, hx, rfl⟩ := List.mem_map.mp hvalue
    exact ryu.number x (CorrectionFeatures.isFinite_of_mem_toVec hx)
  · exact fits_intValue 1 _

/-- An answer with an estimate and one member besides is read. -/
theorem readResponse_encode
    {name : List Char}
    {value : Json.Value}
    (hname : name ≠ "estimate".toList)
    (hfits : Json.Fits 1 value)
    (n : UInt64) :
    readResponse
        (Json.encode
          (.obj
            [("estimate".toList, intValue n.toNat), (name, value)])) =
      some n := by
  have hdocument :
      Json.Fits 2
        (.obj
          [("estimate".toList, intValue n.toNat), (name, value)]) := by
    intro member hmember
    simp only [List.mem_cons, List.not_mem_nil, or_false] at hmember
    rcases hmember with rfl | rfl
    · exact fits_intValue 1 _
    · exact hfits
  have hspells :
      Says [("estimate".toList, some (intValue n.toNat))]
        (.obj
          [("estimate".toList, intValue n.toNat), (name, value)]) := by
    refine ⟨_, rfl, ?_⟩
    simpa [members] using hname
  obtain ⟨found, hslots, hfound⟩ :=
    hspells.slots_eq (List.nodup_singleton _)
  have hestimate := hfound _ (List.mem_singleton_self _)
  rw [readResponse, Json.decode_encode_length hdocument]
  simp only [List.map_cons, List.map_nil] at hslots
  simp only [hslots]
  change (required readU64 found "estimate".toList).toOption = some n
  rw [required, hestimate]
  exact congrArg Except.toOption (readU64_intValue n)

end HttpCorrector

end Samkhya
