import Mathlib.Tactic

/-!
# Field-by-field binary codecs

Records written one field after another without padding: fixed-width integers
in little-endian order, sequences behind a 64-bit length.  A `Codec` bundles
the encoder with a decoder that consumes a prefix of its input, and with the
round trip of the two on the values that fit the format.  Records are built
from their fields with `pair` and `iso`.
-/

namespace Samkhya
namespace FieldCodec

universe u v

/-- A byte string. -/
abbrev Bytes := List UInt8

/-- An encoder, a prefix decoder, and their round trip on fitting values. -/
structure Codec (α : Type u) where
  encode : α → Bytes
  decode : Bytes → Option (α × Bytes)
  Fits : α → Prop
  decidableFits : DecidablePred Fits
  decode_encode :
    ∀ a, Fits a → ∀ rest,
      decode (encode a ++ rest) = some (a, rest)

/-- The `w` low bytes of a number, least significant first. -/
def encodeLE : Nat → Nat → Bytes
  | 0, _ => []
  | w + 1, n => UInt8.ofNat (n % 256) :: encodeLE w (n / 256)

/-- Read `w` bytes, least significant first. -/
def decodeLE : Nat → Bytes → Option (Nat × Bytes)
  | 0, bs => some (0, bs)
  | _ + 1, [] => none
  | w + 1, b :: bs =>
      match decodeLE w bs with
      | none => none
      | some (n, rest) => some (b.toNat + 256 * n, rest)

/-- What is left of a number when its low byte is written. -/
theorem div_lt_of_lt_pow_succ
    {w n : Nat}
    (hn : n < 256 ^ (w + 1)) :
    n / 256 < 256 ^ w := by
  rw [pow_succ] at hn
  exact Nat.div_lt_of_lt_mul (by omega)

theorem toNat_lowByte
    (n : Nat) :
    (UInt8.ofNat (n % 256)).toNat = n % 256 :=
  UInt8.toNat_ofNat_of_lt' (Nat.mod_lt n (by decide))

theorem decodeLE_encodeLE
    (w : Nat)
    {n : Nat}
    (hn : n < 256 ^ w)
    (rest : Bytes) :
    decodeLE w (encodeLE w n ++ rest) = some (n, rest) := by
  induction w generalizing n with
  | zero =>
      have hzero : n = 0 := by
        simpa using hn
      subst hzero
      rfl
  | succ w ih =>
      have hdiv := div_lt_of_lt_pow_succ hn
      rw [encodeLE, List.cons_append, decodeLE, ih hdiv]
      simp only [toNat_lowByte]
      rw [Nat.mod_add_div]

@[simp] theorem length_encodeLE
    (w n : Nat) :
    (encodeLE w n).length = w := by
  induction w generalizing n with
  | zero =>
      rfl
  | succ w ih =>
      rw [encodeLE, List.length_cons, ih]

/-- The number that a byte string spells, least significant byte first. -/
def leNat : Bytes → Nat
  | [] => 0
  | b :: bs => b.toNat + 256 * leNat bs

/-- `w` bytes spell a number below `256 ^ w`. -/
theorem leNat_lt
    (bs : Bytes) :
    leNat bs < 256 ^ bs.length := by
  induction bs with
  | nil =>
      simp [leNat]
  | cons b bs ih =>
      have hb : b.toNat < 256 := b.toNat_lt
      rw [leNat, List.length_cons, pow_succ]
      omega

/-- Reading a number back from its bytes. -/
theorem leNat_encodeLE
    (w : Nat)
    {n : Nat}
    (hn : n < 256 ^ w) :
    leNat (encodeLE w n) = n := by
  induction w generalizing n with
  | zero =>
      have hzero : n = 0 := by
        simpa using hn
      rw [hzero, encodeLE, leNat]
  | succ w ih =>
      have hdiv := div_lt_of_lt_pow_succ hn
      rw [encodeLE, leNat, ih hdiv, toNat_lowByte, Nat.mod_add_div]

/-- A byte string is determined by its length and the number it spells. -/
theorem encodeLE_leNat
    (bs : Bytes) :
    encodeLE bs.length (leNat bs) = bs := by
  induction bs with
  | nil =>
      rfl
  | cons b bs ih =>
      have hb : b.toNat < 256 := b.toNat_lt
      have hlow : (b.toNat + 256 * leNat bs) % 256 = b.toNat := by
        omega
      have hhigh : (b.toNat + 256 * leNat bs) / 256 = leNat bs := by
        omega
      rw [List.length_cons, leNat, encodeLE, hlow, hhigh, ih]
      simp

/-- Bytes that are read as a number are those that it is written as. -/
theorem eq_encodeLE_of_decodeLE
    {w : Nat}
    {bs rest : Bytes}
    {n : Nat}
    (h : decodeLE w bs = some (n, rest)) :
    n < 256 ^ w ∧ bs = encodeLE w n ++ rest := by
  induction w generalizing bs n with
  | zero =>
      cases h
      simp [encodeLE]
  | succ w ih =>
      cases bs with
      | nil =>
          cases h
      | cons b bs =>
          rw [decodeLE] at h
          split at h
          · cases h
          · next m tail htail =>
              cases h
              obtain ⟨hm, rfl⟩ := ih htail
              have hb : b.toNat < 256 := b.toNat_lt
              have hlow : (b.toNat + 256 * m) % 256 = b.toNat := by
                omega
              have hhigh : (b.toNat + 256 * m) / 256 = m := by
                omega
              rw [encodeLE, hlow, hhigh, pow_succ]
              refine ⟨by omega, ?_⟩
              simp

namespace Codec

variable {α : Type u} {β : Type v}

instance (c : Codec α) : DecidablePred c.Fits :=
  c.decidableFits

/-- A `u8` field. -/
def u8 : Codec UInt8 where
  encode n := encodeLE 1 n.toNat
  decode bs :=
    (decodeLE 1 bs).map (fun p => (UInt8.ofNat p.1, p.2))
  Fits _ := True
  decidableFits _ := isTrue trivial
  decode_encode := by
    intro a _ rest
    have ha : a.toNat < 256 ^ 1 := a.toNat_lt
    simp [decodeLE_encodeLE 1 ha]

/-- A `u32` field. -/
def u32 : Codec UInt32 where
  encode n := encodeLE 4 n.toNat
  decode bs :=
    (decodeLE 4 bs).map (fun p => (UInt32.ofNat p.1, p.2))
  Fits _ := True
  decidableFits _ := isTrue trivial
  decode_encode := by
    intro a _ rest
    have ha : a.toNat < 256 ^ 4 := a.toNat_lt
    simp [decodeLE_encodeLE 4 ha]

/-- A `u64` field. -/
def u64 : Codec UInt64 where
  encode n := encodeLE 8 n.toNat
  decode bs :=
    (decodeLE 8 bs).map (fun p => (UInt64.ofNat p.1, p.2))
  Fits _ := True
  decidableFits _ := isTrue trivial
  decode_encode := by
    intro a _ rest
    have ha : a.toNat < 256 ^ 8 := a.toNat_lt
    simp [decodeLE_encodeLE 8 ha]

/-- Read `n` consecutive values. -/
def decodeMany (c : Codec α) : Nat → Bytes → Option (List α × Bytes)
  | 0, bs => some ([], bs)
  | n + 1, bs =>
      match c.decode bs with
      | none => none
      | some (a, rest) =>
          match decodeMany c n rest with
          | none => none
          | some (as, rest) => some (a :: as, rest)

theorem decodeMany_encode
    (c : Codec α)
    {as : List α}
    (hfits : ∀ a ∈ as, c.Fits a)
    (rest : Bytes) :
    c.decodeMany as.length (as.flatMap c.encode ++ rest) =
      some (as, rest) := by
  induction as with
  | nil =>
      rfl
  | cons a as ih =>
      rw [List.flatMap_cons, List.append_assoc, List.length_cons,
        decodeMany,
        c.decode_encode a (hfits a List.mem_cons_self)]
      simp only
      rw [ih (fun b hb => hfits b (List.mem_cons_of_mem a hb))]

/-- A sequence behind a `u64` length. -/
def vec (c : Codec α) : Codec (List α) where
  encode as := encodeLE 8 as.length ++ as.flatMap c.encode
  decode bs :=
    match decodeLE 8 bs with
    | none => none
    | some (n, rest) => c.decodeMany n rest
  Fits as := as.length < 256 ^ 8 ∧ ∀ a ∈ as, c.Fits a
  decidableFits _ := inferInstanceAs (Decidable (_ ∧ _))
  decode_encode := by
    intro as hfits rest
    rw [List.append_assoc, decodeLE_encodeLE 8 hfits.1]
    exact c.decodeMany_encode hfits.2 rest

/-- Two fields, one after the other. -/
def pair (c : Codec α) (d : Codec β) : Codec (α × β) where
  encode p := c.encode p.1 ++ d.encode p.2
  decode bs :=
    match c.decode bs with
    | none => none
    | some (a, rest) =>
        match d.decode rest with
        | none => none
        | some (b, rest) => some ((a, b), rest)
  Fits p := c.Fits p.1 ∧ d.Fits p.2
  decidableFits _ := inferInstanceAs (Decidable (_ ∧ _))
  decode_encode := by
    rintro ⟨a, b⟩ ⟨ha, hb⟩ rest
    rw [List.append_assoc, c.decode_encode a ha]
    simp only
    rw [d.decode_encode b hb]

/-- A record read as the tuple of its fields. -/
def iso
    (c : Codec α)
    (toFields : β → α)
    (ofFields : α → β)
    (hround : ∀ b, ofFields (toFields b) = b) : Codec β where
  encode b := c.encode (toFields b)
  decode bs := (c.decode bs).map (fun p => (ofFields p.1, p.2))
  Fits b := c.Fits (toFields b)
  decidableFits b := c.decidableFits (toFields b)
  decode_encode := by
    intro b hb rest
    rw [c.decode_encode _ hb]
    simp [hround]

/-- What is decoded fits, and its encoding is what was read. -/
def Exact (c : Codec α) : Prop :=
  ∀ bs a rest, c.decode bs = some (a, rest) →
    c.Fits a ∧ bs = c.encode a ++ rest

theorem exact_u8 : u8.Exact := by
  intro bs a rest h
  obtain ⟨⟨n, tail⟩, hdecode, hpair⟩ := Option.map_eq_some_iff.mp h
  obtain ⟨hn, rfl⟩ := eq_encodeLE_of_decodeLE hdecode
  cases hpair
  refine ⟨trivial, ?_⟩
  change encodeLE 1 n ++ tail = encodeLE 1 (UInt8.ofNat n).toNat ++ tail
  rw [UInt8.toNat_ofNat_of_lt' (by simpa using hn)]

theorem exact_u32 : u32.Exact := by
  intro bs a rest h
  obtain ⟨⟨n, tail⟩, hdecode, hpair⟩ := Option.map_eq_some_iff.mp h
  obtain ⟨hn, rfl⟩ := eq_encodeLE_of_decodeLE hdecode
  cases hpair
  refine ⟨trivial, ?_⟩
  change encodeLE 4 n ++ tail = encodeLE 4 (UInt32.ofNat n).toNat ++ tail
  rw [UInt32.toNat_ofNat_of_lt' (by simpa using hn)]

theorem exact_u64 : u64.Exact := by
  intro bs a rest h
  obtain ⟨⟨n, tail⟩, hdecode, hpair⟩ := Option.map_eq_some_iff.mp h
  obtain ⟨hn, rfl⟩ := eq_encodeLE_of_decodeLE hdecode
  cases hpair
  refine ⟨trivial, ?_⟩
  change encodeLE 8 n ++ tail = encodeLE 8 (UInt64.ofNat n).toNat ++ tail
  rw [UInt64.toNat_ofNat_of_lt' (by simpa using hn)]

theorem Exact.decodeMany
    {c : Codec α}
    (hc : c.Exact)
    {n : Nat}
    {bs rest : Bytes}
    {as : List α}
    (h : c.decodeMany n bs = some (as, rest)) :
    as.length = n ∧ (∀ a ∈ as, c.Fits a) ∧
      bs = as.flatMap c.encode ++ rest := by
  induction n generalizing bs as with
  | zero =>
      cases h
      simp
  | succ n ih =>
      rw [Codec.decodeMany] at h
      split at h
      · cases h
      · next a tail ha =>
          split at h
          · cases h
          · next as' tail' has =>
              cases h
              obtain ⟨hfits, rfl⟩ := hc _ _ _ ha
              obtain ⟨hlength, hall, rfl⟩ := ih has
              refine ⟨by simp [hlength], ?_, by simp⟩
              intro b hb
              rcases List.mem_cons.mp hb with rfl | hb
              · exact hfits
              · exact hall b hb

theorem Exact.vec
    {c : Codec α}
    (hc : c.Exact) :
    c.vec.Exact := by
  intro bs as rest h
  simp only [Codec.vec] at h
  split at h
  · cases h
  · next n tail hn =>
      obtain ⟨hlt, rfl⟩ := eq_encodeLE_of_decodeLE hn
      obtain ⟨rfl, hall, rfl⟩ := hc.decodeMany h
      exact ⟨⟨hlt, hall⟩, (List.append_assoc _ _ _).symm⟩

theorem Exact.pair
    {c : Codec α}
    {d : Codec β}
    (hc : c.Exact)
    (hd : d.Exact) :
    (c.pair d).Exact := by
  intro bs p rest h
  simp only [Codec.pair] at h
  split at h
  · cases h
  · next a tail ha =>
      split at h
      · cases h
      · next b tail' hb =>
          cases h
          obtain ⟨hfits, rfl⟩ := hc _ _ _ ha
          obtain ⟨hfits', rfl⟩ := hd _ _ _ hb
          exact ⟨⟨hfits, hfits'⟩, (List.append_assoc _ _ _).symm⟩

theorem Exact.iso
    {c : Codec α}
    (hc : c.Exact)
    {toFields : β → α}
    {ofFields : α → β}
    {hround : ∀ b, ofFields (toFields b) = b}
    (hback : ∀ a, toFields (ofFields a) = a) :
    (c.iso toFields ofFields hround).Exact := by
  intro bs b rest h
  obtain ⟨⟨a, tail⟩, hdecode, hpair⟩ := Option.map_eq_some_iff.mp h
  obtain ⟨hfits, rfl⟩ := hc _ _ _ hdecode
  cases hpair
  have ha := hback a
  simp only [Codec.iso]
  rw [ha]
  exact ⟨hfits, rfl⟩

end Codec

end FieldCodec
end Samkhya
