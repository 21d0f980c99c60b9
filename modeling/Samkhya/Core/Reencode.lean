import Mathlib
import Samkhya.Core.Bloom
import Samkhya.Core.CorrelatedHistogram
import Samkhya.Core.CountMin
import Samkhya.Core.EquiDepth
import Samkhya.Core.Hll

/-!
# Re-encoding an accepted payload

A decoder reads the fields it needs from the front of a payload, checks them and
ignores what follows.  The fields pin down every byte that is read, so encoding
the sketch again gives back exactly the front of the payload: all of it when
nothing follows the fields, that is when no shorter prefix is accepted.  An
encoding that lost its end is therefore never accepted.
-/

namespace Samkhya

open FieldCodec Binary64

/--
What is decoded is written as a prefix of the payload, and the payload is read
through that prefix alone.
-/
def ReadsPrefix
    {σ : Type}
    (toBytes : σ → Except Error Bytes)
    (fromBytes : Bytes → Except Error σ) : Prop :=
  ∀ b s, fromBytes b = .ok s →
    ∃ p, toBytes s = .ok p ∧ p <+: b ∧
      ∀ b', p <+: b' → fromBytes b' = .ok s

/--
What is accepted is written as a prefix of the payload, and as all of it iff no
shorter prefix is accepted.
-/
def ReencodesPrefix
    {σ : Type}
    (toBytes : σ → Except Error Bytes)
    (fromBytes : Bytes → Except Error σ) : Prop :=
  ∀ b s, fromBytes b = .ok s →
    (∃ p, toBytes s = .ok p ∧ p <+: b) ∧
    (toBytes s = .ok b ↔
      ∀ b', b' <+: b → b' ≠ b → ∀ t, fromBytes b' ≠ .ok t)

/-- No strict prefix of the encoding of a decoded value is accepted. -/
def DetectsTruncation
    {σ : Type}
    (toBytes : σ → Except Error Bytes)
    (fromBytes : Bytes → Except Error σ) : Prop :=
  ∀ b s, fromBytes b = .ok s →
    ∃ p, toBytes s = .ok p ∧
      ∀ b', b' <+: p → b' ≠ p → ∃ e, fromBytes b' = .error e

section Prefix

variable
  {φ σ : Type}
  {toBytes : σ → Except Error Bytes}
  {fromBytes : Bytes → Except Error σ}

/-- A payload is re-encoded as it was iff no shorter prefix is accepted. -/
theorem ReadsPrefix.reencodes
    (h : ReadsPrefix toBytes fromBytes) :
    ReencodesPrefix toBytes fromBytes := by
  intro b s hread
  obtain ⟨p, hp, hprefix, hcongr⟩ := h b s hread
  refine ⟨⟨p, hp, hprefix⟩, ?_, ?_⟩
  · intro hb b' hb' hne t hread'
    obtain rfl : p = b := Except.ok.inj (hp.symm.trans hb)
    obtain ⟨q, hq, hfront, hqcongr⟩ := h b' t hread'
    have hst : s = t :=
      Except.ok.inj (hread.symm.trans (hqcongr p (hfront.trans hb')))
    subst hst
    obtain rfl : p = q := Except.ok.inj (hp.symm.trans hq)
    exact hne (hb'.eq_of_length_le hfront.length_le)
  · intro hshortest
    by_contra hne
    have hpb : p ≠ b := by
      rintro rfl
      exact hne hp
    exact hshortest p hprefix hpb s (hcongr p List.prefix_rfl)

/-- A strict prefix would be read through a prefix of its own. -/
theorem ReadsPrefix.detectsTruncation
    (h : ReadsPrefix toBytes fromBytes) :
    DetectsTruncation toBytes fromBytes := by
  intro b s hread
  obtain ⟨p, hp, hfront, _⟩ := h b s hread
  refine ⟨p, hp, ?_⟩
  intro b' hb' hne
  cases hread' : fromBytes b' with
  | error e =>
      exact ⟨e, rfl⟩
  | ok t =>
      obtain ⟨q, hq, hshort, hcongr⟩ := h b' t hread'
      -- the payload itself continues what the short prefix was read from
      have hst : s = t := by
        have hwhole := hcongr b ((hshort.trans hb').trans hfront)
        exact Except.ok.inj (hread.symm.trans hwhole)
      subst hst
      obtain rfl : p = q := Except.ok.inj (hp.symm.trans hq)
      exact absurd (hb'.eq_of_length_le hshort.length_le) hne

/-- Exact codecs and a check that keeps the fields read a prefix. -/
theorem readsPrefix_of_exact
    {c : Codec φ}
    (hc : c.Exact)
    {toFields : σ → φ}
    {next : φ → Except Error σ}
    (hnext : ∀ a s, next a = .ok s → toFields s = a) :
    ReadsPrefix
      (fun s =>
        ((Bincode.ofCodec c).serialize (toFields s)).mapError
          Error.serde)
      (fun bytes =>
        ((Bincode.ofCodec c).deserialize bytes).mapError
          Error.serde >>= next) := by
  intro b s hread
  cases hdecode : c.decode b with
  | none =>
      simp only [Bincode.ofCodec, hdecode] at hread
      cases hread
  | some decoded =>
      obtain ⟨a, rest⟩ := decoded
      simp only [Bincode.ofCodec, hdecode] at hread
      have hok : next a = .ok s := hread
      obtain ⟨hfits, rfl⟩ := hc b a rest hdecode
      obtain rfl := hnext a s hok
      refine ⟨c.encode (toFields s), ?_, List.prefix_append _ _, ?_⟩
      · simp [Bincode.ofCodec, hfits, Except.mapError]
      · rintro b' ⟨rest', rfl⟩
        simp only [Bincode.ofCodec, c.decode_encode _ hfits]
        exact hok

end Prefix

theorem HllSketch.readsPrefix :
    ReadsPrefix
      (toBytes (.ofCodec HllFields.codec))
      (fromBytes (.ofCodec HllFields.codec)) := by
  refine
    readsPrefix_of_exact
      ((Codec.exact_u8.pair Codec.exact_u8.vec).iso fun _ => rfl) ?_
  intro a s h
  unfold validate at h
  split_ifs at h
  simp only at h
  split_ifs at h
  cases h
  rfl

theorem CountMinSketch.readsPrefix :
    ReadsPrefix
      (toBytes (.ofCodec CountMinFields.codec))
      (fromBytes (.ofCodec CountMinFields.codec)) :=
  readsPrefix_of_exact
    ((Codec.exact_u32.pair
      (Codec.exact_u32.pair
        (Codec.exact_u32.vec.pair Codec.exact_u64))).iso
      fun _ => rfl)
    fun _ _ => toCountMinFields_of_validate

theorem BloomFilter.readsPrefix :
    ReadsPrefix
      (toBytes (.ofCodec BloomFields.codec))
      (fromBytes (.ofCodec BloomFields.codec)) := by
  refine
    readsPrefix_of_exact
      ((Codec.exact_u8.vec.pair
        (Codec.exact_u32.pair Codec.exact_u64)).iso fun _ => rfl) ?_
  intro a s h
  unfold validate at h
  split_ifs at h
  cases h
  rfl

theorem exact_f64 : f64.Exact :=
  Codec.exact_u64.iso fun _ => rfl

theorem EquiDepthHistogram.readsPrefix
    (display : F64 → String) :
    ReadsPrefix
      (toBytes (.ofCodec codec))
      (fromBytes display (.ofCodec codec)) := by
  refine
    @readsPrefix_of_exact _ _ codec
      ((exact_f64.vec.pair
        (Codec.exact_u64.vec.pair Codec.exact_u64)).iso fun _ => rfl)
      id (fun h => validate display h >>= fun _ => pure h) ?_
  intro a s h
  obtain ⟨_, _, hpure⟩ := except_bind_eq_ok h
  exact (Except.ok.inj hpure).symm

theorem CorrelatedHistogram2D.readsPrefix :
    ReadsPrefix
      (toBytes (.ofCodec CorrelatedFields.codec))
      (fromBytes (.ofCodec CorrelatedFields.codec)) := by
  refine
    readsPrefix_of_exact
      ((Codec.exact_u32.pair (Codec.exact_u32.pair (exact_f64.pair
        (exact_f64.pair (exact_f64.pair (exact_f64.pair
          (Codec.exact_u64.vec.pair Codec.exact_u64))))))).iso
        fun _ => rfl) ?_
  intro a s h
  unfold validate at h
  split_ifs at h
  split at h
  · cases h
  · split_ifs at h
    split at h
    · cases h
    · cases h
      rfl

/--
**Accepted payloads are re-encoded up to what follows the fields**, for every
kind of sketch: the encoding is a prefix of the payload, and all of it iff no
shorter prefix is accepted.
-/
theorem sketches_reencode_prefix
    (display : F64 → String) :
    ReencodesPrefix
      (HllSketch.toBytes (.ofCodec HllFields.codec))
      (HllSketch.fromBytes (.ofCodec HllFields.codec)) ∧
    ReencodesPrefix
      (CountMinSketch.toBytes (.ofCodec CountMinFields.codec))
      (CountMinSketch.fromBytes (.ofCodec CountMinFields.codec)) ∧
    ReencodesPrefix
      (BloomFilter.toBytes (.ofCodec BloomFields.codec))
      (BloomFilter.fromBytes (.ofCodec BloomFields.codec)) ∧
    ReencodesPrefix
      (EquiDepthHistogram.toBytes (.ofCodec EquiDepthHistogram.codec))
      (EquiDepthHistogram.fromBytes display
        (.ofCodec EquiDepthHistogram.codec)) ∧
    ReencodesPrefix
      (CorrelatedHistogram2D.toBytes (.ofCodec CorrelatedFields.codec))
      (CorrelatedHistogram2D.fromBytes
        (.ofCodec CorrelatedFields.codec)) :=
  ⟨HllSketch.readsPrefix.reencodes,
    CountMinSketch.readsPrefix.reencodes,
    BloomFilter.readsPrefix.reencodes,
    (EquiDepthHistogram.readsPrefix display).reencodes,
    CorrelatedHistogram2D.readsPrefix.reencodes⟩

/-- The empty filter of 64 bits and one hash, with a byte behind its fields. -/
def paddedFilter : Bytes :=
  [8, 0, 0, 0, 0, 0, 0, 0] ++ List.replicate 8 0 ++ [1, 0, 0, 0] ++
    [64, 0, 0, 0, 0, 0, 0, 0] ++ [7]

/-- It is accepted, and the byte behind the fields is not written back. -/
theorem paddedFilter_not_reencoded :
    ∃ s,
      BloomFilter.fromBytes (.ofCodec BloomFields.codec) paddedFilter =
        .ok s ∧
      s.toBytes (.ofCodec BloomFields.codec) ≠ .ok paddedFilter :=
  ⟨BloomFilter.fallback, by decide +kernel, by decide +kernel⟩

/--
**Truncated payloads are rejected**, for every kind of sketch: the encoding of a
sketch that a decoder returned has no strict prefix that the decoder accepts.
-/
theorem sketches_detect_truncation
    (display : F64 → String) :
    DetectsTruncation
      (HllSketch.toBytes (.ofCodec HllFields.codec))
      (HllSketch.fromBytes (.ofCodec HllFields.codec)) ∧
    DetectsTruncation
      (CountMinSketch.toBytes (.ofCodec CountMinFields.codec))
      (CountMinSketch.fromBytes (.ofCodec CountMinFields.codec)) ∧
    DetectsTruncation
      (BloomFilter.toBytes (.ofCodec BloomFields.codec))
      (BloomFilter.fromBytes (.ofCodec BloomFields.codec)) ∧
    DetectsTruncation
      (EquiDepthHistogram.toBytes (.ofCodec EquiDepthHistogram.codec))
      (EquiDepthHistogram.fromBytes display
        (.ofCodec EquiDepthHistogram.codec)) ∧
    DetectsTruncation
      (CorrelatedHistogram2D.toBytes (.ofCodec CorrelatedFields.codec))
      (CorrelatedHistogram2D.fromBytes
        (.ofCodec CorrelatedFields.codec)) :=
  ⟨HllSketch.readsPrefix.detectsTruncation,
    CountMinSketch.readsPrefix.detectsTruncation,
    BloomFilter.readsPrefix.detectsTruncation,
    (EquiDepthHistogram.readsPrefix display).detectsTruncation,
    CorrelatedHistogram2D.readsPrefix.detectsTruncation⟩

end Samkhya
