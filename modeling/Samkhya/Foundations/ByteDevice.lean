import Mathlib.Tactic
import Samkhya.Foundations.FieldCodec

/-!
# Byte sources and byte sinks

A source is a seekable file that is only read; a program over it runs in
`ReadM`, with the failures of the source beside its own errors.  Every seek,
read and buffer is logged, so that a bound on what a program touches is a
statement about its final state, whichever way it ends.

`Ends` is the weakest precondition of a program that keeps its state when it
fails, with one postcondition for values and one for failures.  `Stays` says that the bytes are unchanged and
that everything logged lies in the file and below a buffer cap; each primitive
has one rule that keeps it.

A sink is only appended to.  A write may be told to stop after any prefix of
its argument; later writes go on where it stopped.
-/

namespace Samkhya
namespace ByteDevice

open FieldCodec

/-- `length` bytes from `start` on. -/
def slice (bytes : Bytes) (start length : Nat) : Bytes :=
  (bytes.drop start).take length

theorem length_slice
    {bytes : Bytes}
    {start length : Nat}
    (h : start + length ≤ bytes.length) :
    (slice bytes start length).length = length := by
  simp only [slice, List.length_take, List.length_drop]
  omega

/-- The middle part of three. -/
theorem slice_eq
    {bytes a b c : Bytes}
    {start length : Nat}
    (hbytes : bytes = a ++ (b ++ c))
    (hstart : start = a.length)
    (hlength : length = b.length) :
    slice bytes start length = b := by
  subst hbytes hstart hlength
  simp [slice]

/-- What lies in a part of a file lies in the file. -/
theorem slice_append_left
    {bytes : Bytes}
    {start length : Nat}
    (h : start + length ≤ bytes.length)
    (rest : Bytes) :
    slice (bytes ++ rest) start length = slice bytes start length := by
  unfold slice
  rw [List.drop_append_of_le_length (by omega),
    List.take_append_of_le_length]
  rw [List.length_drop]
  omega

/-- What follows a position is a slice, then what follows that. -/
theorem drop_eq_slice_append
    (bytes : Bytes)
    (start length : Nat) :
    bytes.drop start =
      slice bytes start length ++ bytes.drop (start + length) := by
  rw [slice, ← List.drop_drop, List.take_append_drop]

/-- What a program asks of a source. -/
inductive Access
  | seek (position : Nat)
  | read (start length : Nat)
  | buffer (length : Nat)
deriving DecidableEq

/-- The access stays in a file of `size` bytes and below a buffer cap. -/
def Access.Within (size cap : Nat) : Access → Prop
  | seek position => position ≤ size
  | read start length => start + length ≤ size
  | buffer length => length ≤ cap

/-- A file that is read, with the log of the accesses made to it. -/
structure Source where
  bytes : Bytes
  position : Nat
  accesses : List Access

/-- How a program over a source ends without a value. -/
inductive Failure (ε : Type)
  | error (e : ε)
  | io
  | underflow

/-- Programs over a source. -/
abbrev ReadM (ε : Type) (α : Type) :=
  EStateM (Failure ε) Source α

section Primitives

variable {ε : Type}

/-- Go to a position, which may lie past the end. -/
def seekStart (position : Nat) : ReadM ε Nat := fun s =>
  .ok position
    { s with
      position := position
      accesses := s.accesses ++ [.seek position] }

/-- Go back from the end; a position before the start is refused. -/
def seekEnd (back : Nat) : ReadM ε Nat := fun s =>
  if back ≤ s.bytes.length then
    seekStart (s.bytes.length - back) s
  else
    .error .io s

/-- Read exactly `length` bytes; a short read fails. -/
def readExact (length : Nat) : ReadM ε Bytes := fun s =>
  let accesses := s.accesses ++ [.read s.position length]
  if s.position + length ≤ s.bytes.length then
    .ok (slice s.bytes s.position length)
      { s with
        position := s.position + length
        accesses := accesses }
  else
    .error .io { s with accesses := accesses }

/-- Allocate a buffer. -/
def buffer (length : Nat) : ReadM ε Unit := fun s =>
  .ok () { s with accesses := s.accesses ++ [.buffer length] }

/-- Unsigned subtraction. -/
def sub (a b : Nat) : ReadM ε Nat := fun s =>
  if b ≤ a then .ok (a - b) s else .error .underflow s

/-- Give up with an error of the program. -/
def fail {α : Type} (e : ε) : ReadM ε α := fun s =>
  .error (.error e) s

/-- Give up when a condition holds. -/
def refuseIf (c : Prop) [Decidable c] (e : ε) : ReadM ε Unit :=
  if c then fail e else pure ()

end Primitives

section Programs

variable {ε σ α β : Type}

/-- Weakest precondition: what holds of the value, what of the failure. -/
def Ends
    (m : EStateM ε σ α)
    (s : σ)
    (onOk : α → σ → Prop)
    (onFail : ε → σ → Prop) : Prop :=
  match m s with
  | .ok a t => onOk a t
  | .error e t => onFail e t

variable {s : σ} {Q : β → σ → Prop} {E : ε → σ → Prop}

theorem Ends.pure
    {b : β}
    (h : Q b s) :
    Ends (pure b : EStateM ε σ β) s Q E :=
  h

theorem Ends.throw
    {e : ε}
    (h : E e s) :
    Ends (throw e : EStateM ε σ β) s Q E :=
  h

/-- Sequencing, through what the first half establishes. -/
theorem Ends.bind
    {m : EStateM ε σ α}
    {f : α → EStateM ε σ β}
    {R : α → σ → Prop}
    (hm : Ends m s R E)
    (hf : ∀ a t, R a t → Ends (f a) t Q E) :
    Ends (m >>= f) s Q E := by
  unfold Ends at hm ⊢
  change
    match EStateM.bind m f s with
    | .ok b t => Q b t
    | .error e t => E e t
  unfold EStateM.bind
  cases h : m s with
  | ok a t =>
      rw [h] at hm
      exact hf a t hm
  | error e t =>
      rw [h] at hm
      exact hm

/-- Reading the state. -/
theorem Ends.get
    {f : σ → EStateM ε σ β}
    (h : Ends (f s) s Q E) :
    Ends (get >>= f) s Q E :=
  h

/-- A run that is known to return a value. -/
theorem ends_of_ok
    {m : EStateM ε σ β}
    {b : β}
    {t : σ}
    (h : m s = .ok b t) :
    Ends m s Q E ↔ Q b t := by
  unfold Ends
  rw [h]

/-- A run that is known to fail. -/
theorem ends_of_error
    {m : EStateM ε σ β}
    {e : ε}
    {t : σ}
    (h : m s = .error e t) :
    Ends m s Q E ↔ E e t := by
  unfold Ends
  rw [h]

/-- Postconditions may be weakened. -/
theorem Ends.mono
    {m : EStateM ε σ β}
    {Q' : β → σ → Prop}
    {E' : ε → σ → Prop}
    (hm : Ends m s Q E)
    (hQ : ∀ b t, Q b t → Q' b t)
    (hE : ∀ e t, E e t → E' e t) :
    Ends m s Q' E' := by
  unfold Ends at hm ⊢
  cases h : m s with
  | ok b t =>
      rw [h] at hm
      exact hQ b t hm
  | error e t =>
      rw [h] at hm
      exact hE e t hm

end Programs

section Rules

variable {ε : Type} {β : Type}

variable
  {s : Source}
  {Q : β → Source → Prop}
  {E : Failure ε → Source → Prop}

theorem Ends.fail
    {e : ε}
    (h : E (.error e) s) :
    Ends (fail e : ReadM ε β) s Q E :=
  h

/-- A check either ends the program or lets it go on. -/
theorem Ends.refuseIf
    {c : Prop}
    [Decidable c]
    {e : ε}
    {f : Unit → ReadM ε β}
    (hrefused : c → E (.error e) s)
    (hpassed : ¬ c → Ends (f ()) s Q E) :
    Ends (refuseIf c e >>= f) s Q E := by
  by_cases hc : c
  · rw [ByteDevice.refuseIf, if_pos hc]
    exact hrefused hc
  · rw [ByteDevice.refuseIf, if_neg hc]
    exact hpassed hc

/-- The file is `bytes`, and everything logged stays within it and the cap. -/
structure Stays (bytes : Bytes) (cap : Nat) (s : Source) : Prop where
  bytes_eq : s.bytes = bytes
  within : ∀ a ∈ s.accesses, a.Within bytes.length cap

variable {bytes : Bytes} {cap : Nat}

theorem Stays.fresh
    (bytes : Bytes)
    (position cap : Nat) :
    Stays bytes cap ⟨bytes, position, []⟩ where
  bytes_eq := rfl
  within := by
    intro a ha
    exact absurd ha List.not_mem_nil

/-- A larger buffer cap. -/
theorem Stays.mono
    {larger : Nat}
    {s : Source}
    (h : Stays bytes cap s)
    (hle : cap ≤ larger) :
    Stays bytes larger s where
  bytes_eq := h.bytes_eq
  within := by
    intro a ha
    have hwithin := h.within a ha
    cases a with
    | seek position => exact hwithin
    | read start length => exact hwithin
    | buffer length => exact Nat.le_trans hwithin hle

theorem Stays.log
    (hs : Stays bytes cap s)
    {a : Access}
    (ha : a.Within bytes.length cap)
    (position : Nat) :
    Stays bytes cap
      { s with
        position := position
        accesses := s.accesses ++ [a] } where
  bytes_eq := hs.bytes_eq
  within := by
    intro b hb
    rcases List.mem_append.mp hb with hb | hb
    · exact hs.within b hb
    · rw [List.mem_singleton.mp hb]
      exact ha

theorem Stays.seekStart
    (hs : Stays bytes cap s)
    {position : Nat}
    (h : position ≤ bytes.length) :
    Ends (seekStart position : ReadM ε Nat) s
      (fun n t =>
        n = position ∧ t.position = position ∧ Stays bytes cap t)
      E :=
  ⟨rfl, rfl, hs.log (a := .seek position) h position⟩

theorem Stays.seekEnd
    (hs : Stays bytes cap s)
    {back : Nat}
    (h : back ≤ bytes.length) :
    Ends (seekEnd back : ReadM ε Nat) s
      (fun n t =>
        n = bytes.length - back ∧
          t.position = bytes.length - back ∧ Stays bytes cap t)
      E := by
  have hseek :
      (ByteDevice.seekEnd back : ReadM ε Nat) s =
        ByteDevice.seekStart (bytes.length - back) s := by
    simp [ByteDevice.seekEnd, hs.bytes_eq, h]
  have hstart :=
    hs.seekStart (ε := ε) (E := E) (Nat.sub_le bytes.length back)
  unfold Ends at hstart ⊢
  rw [hseek]
  exact hstart

theorem Stays.readExact
    (hs : Stays bytes cap s)
    {length : Nat}
    (h : s.position + length ≤ bytes.length) :
    Ends (readExact length : ReadM ε Bytes) s
      (fun bs t =>
        bs = slice bytes s.position length ∧ Stays bytes cap t)
      E := by
  have hread :
      (ByteDevice.readExact length : ReadM ε Bytes) s =
        .ok (slice bytes s.position length)
          { s with
            position := s.position + length
            accesses := s.accesses ++ [.read s.position length] } := by
    simp [ByteDevice.readExact, hs.bytes_eq, h]
  unfold Ends
  rw [hread]
  exact ⟨rfl, hs.log (a := .read s.position length) h _⟩

theorem Stays.buffer
    (hs : Stays bytes cap s)
    {length : Nat}
    (h : length ≤ cap) :
    Ends (buffer length : ReadM ε Unit) s
      (fun _ t => t.position = s.position ∧ Stays bytes cap t)
      E :=
  ⟨rfl, hs.log (a := .buffer length) h s.position⟩

theorem Ends.sub
    {a b : Nat}
    (h : b ≤ a) :
    Ends (sub a b : ReadM ε Nat) s
      (fun n t => n = a - b ∧ t = s)
      E := by
  have hsub :
      (ByteDevice.sub a b : ReadM ε Nat) s = .ok (a - b) s := by
    simp [ByteDevice.sub, h]
  unfold Ends
  rw [hsub]
  exact ⟨rfl, rfl⟩

end Rules

/-- Most bytes a sink can hold: file positions are signed 64-bit. -/
def capacity : Nat :=
  2 ^ 63 - 1

/--
A sink with what was written to it.  Each write consumes one entry of
`faults`: `some n` stops it after `n` bytes, `none` or an empty list lets it
through.
-/
structure Sink where
  written : Bytes
  faults : List (Option Nat)

namespace Sink

/-- An empty sink whose writes are stopped only by its capacity. -/
def fresh : Sink where
  written := []
  faults := []

/-- How many bytes the next write may append. -/
def allowance (s : Sink) (length : Nat) : Nat :=
  min ((s.faults.headD none).getD length)
    (capacity - s.written.length)

/-- Whether the next write of `length` bytes goes through. -/
def accepts (s : Sink) (length : Nat) : Bool :=
  (s.faults.headD none).isNone &&
    length ≤ capacity - s.written.length

/-- Append the bytes, or as many as the sink lets through. -/
def append (s : Sink) (bytes : Bytes) : Sink where
  written := s.written ++ bytes.take (s.allowance bytes.length)
  faults := s.faults.tail

/-- A write that goes through appends its whole argument. -/
theorem append_written
    {s : Sink}
    {bytes : Bytes}
    (h : s.accepts bytes.length = true) :
    (s.append bytes).written = s.written ++ bytes := by
  unfold accepts at h
  rw [Bool.and_eq_true, Option.isNone_iff_eq_none,
    decide_eq_true_eq] at h
  unfold append allowance
  rw [h.1, Option.getD_none, min_eq_left h.2, List.take_length]

/-- A write appends some prefix of its argument. -/
theorem append_written_take
    (s : Sink)
    (bytes : Bytes) :
    ∃ n, (s.append bytes).written = s.written ++ bytes.take n :=
  ⟨s.allowance bytes.length, rfl⟩

/-- No write exceeds the capacity. -/
theorem length_append_le
    {s : Sink}
    (h : s.written.length ≤ capacity)
    (bytes : Bytes) :
    (s.append bytes).written.length ≤ capacity := by
  have hallowance :
      s.allowance bytes.length ≤ capacity - s.written.length :=
    Nat.min_le_right _ _
  simp only [append, List.length_append, List.length_take]
  omega

/-- What goes through fits the capacity. -/
theorem add_le_of_accepts
    {s : Sink}
    {length : Nat}
    (hwritten : s.written.length ≤ capacity)
    (h : s.accepts length = true) :
    s.written.length + length ≤ capacity := by
  unfold accepts at h
  rw [Bool.and_eq_true, decide_eq_true_eq] at h
  omega

/-- A sink that is not told to stop takes whatever fits. -/
theorem accepts_of_fits
    {s : Sink}
    {length : Nat}
    (hfaults : s.faults = [])
    (h : s.written.length + length ≤ capacity) :
    s.accepts length = true := by
  unfold accepts
  rw [hfaults, Bool.and_eq_true, decide_eq_true_eq]
  exact ⟨rfl, by omega⟩

end Sink

end ByteDevice
end Samkhya
