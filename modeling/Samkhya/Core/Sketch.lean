import Samkhya.Foundations.FieldCodec

/-!
# Sketch payloads

What every sketch shares: the errors of its constructors, merges and decoders,
and the two entry points of the binary serializer behind `to_bytes` and
`from_bytes`.  The serializer is a parameter; what the sketches rely on is
that it reads back what it wrote.
-/

namespace Samkhya

open FieldCodec

universe u

/-- Failures of the sketch operations, with the texts of the source. -/
inductive Error
  | serde (message : String)
  | invalidSketch (message : String)
  | feedback (message : String)
deriving DecidableEq

/-- The bytes of a string, `String::into_bytes` and `str::as_bytes`. -/
def asBytes (s : String) : Bytes :=
  s.toUTF8.toList

/-- `bincode::serialize` and `bincode::deserialize` at one type. -/
structure Bincode (α : Type u) where
  serialize : α → Except String Bytes
  deserialize : Bytes → Except String α

namespace Bincode

variable {α : Type u}

/-- Reading back what was written gives the value written. -/
def RoundTrips (c : Bincode α) : Prop :=
  ∀ a bs, c.serialize a = .ok bs → c.deserialize bs = .ok a

/-- The serializer of a field-by-field codec; bytes that follow are ignored. -/
def ofCodec (c : Codec α) : Bincode α where
  serialize a :=
    if c.Fits a then
      .ok (c.encode a)
    else
      .error "the size limit has been reached"
  deserialize bs :=
    match c.decode bs with
    | some (a, _) => .ok a
    | none => .error "io error: unexpected end of file"

theorem ofCodec_roundTrips
    (c : Codec α) :
    (ofCodec c).RoundTrips := by
  intro a bs h
  simp only [ofCodec] at h ⊢
  split_ifs at h with hfits
  have hdecode := c.decode_encode a hfits []
  rw [List.append_nil, Except.ok.inj h] at hdecode
  rw [hdecode]

theorem deserialize_encode
    {c : Codec α}
    {a : α}
    (hfits : c.Fits a) :
    (ofCodec c).deserialize (c.encode a) = .ok a := by
  have hserialize : (ofCodec c).serialize a = .ok (c.encode a) :=
    if_pos hfits
  exact ofCodec_roundTrips c a _ hserialize

/-- Reading what was written goes on with the value that was written. -/
theorem hop_eq
    {φ σ : Type}
    {c : Codec φ}
    {a : φ}
    (hfits : c.Fits a)
    (next : φ → Except Error σ) :
    (((ofCodec c).serialize a).mapError Error.serde >>= fun bytes =>
        ((ofCodec c).deserialize bytes).mapError Error.serde >>=
          next) =
      next a := by
  have hserialize : (ofCodec c).serialize a = .ok (c.encode a) :=
    if_pos hfits
  rw [hserialize]
  change
    ((ofCodec c).deserialize (c.encode a)).mapError Error.serde >>=
      next = _
  rw [deserialize_encode hfits]
  rfl

/-- A hop that succeeds goes on with the value that was written. -/
theorem next_of_hop
    {φ σ : Type}
    {c : Bincode φ}
    (hround : c.RoundTrips)
    {a : φ}
    {next : φ → Except Error σ}
    {t : σ}
    (h :
      ((c.serialize a).mapError Error.serde >>= fun bytes =>
          (c.deserialize bytes).mapError Error.serde >>= next) =
        .ok t) :
    next a = .ok t := by
  cases hw : c.serialize a with
  | error e =>
      rw [hw] at h
      cases h
  | ok bytes =>
      rw [hw] at h
      change
        ((c.deserialize bytes).mapError Error.serde >>= next) = .ok t
        at h
      rwa [hround a bytes hw] at h

end Bincode

end Samkhya
