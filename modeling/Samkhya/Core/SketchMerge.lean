import Mathlib
import Samkhya.Core.CountMinMass
import Samkhya.Core.Hll
import Samkhya.Foundations.InPlace
import Samkhya.Foundations.OrderFree

/-!
# Merging sketches in any order

A HyperLogLog register holds the largest rank among the items that address it
(`Records`), a function of the set of items; a Count-Min sketch is a function of
the counts added.  Any tree of constructions, additions and merges of one shape
therefore ends in the sketch that one pass over all updates builds, field by
field.  The merges themselves run on the receiver: the shape is compared before
the first cell is written, so a merge that fails changes nothing.
-/

namespace Samkhya

open CellArray FieldCodec InPlace Saturating

namespace HllSketch

/-- A register holds the largest rank among the items that address it. -/
structure Records
    (hash : ItemHash)
    (p : UInt8)
    (items : List Bytes)
    (s : HllSketch) : Prop where
  precision_eq : s.precision = p
  upper :
    ∀ i < s.registers.length, ∀ item ∈ items,
      registerIndex s.precision (hash item) = i →
      registerRank s.precision (hash item) ≤ s.registers.getD i 0
  attained :
    ∀ i < s.registers.length,
      s.registers.getD i 0 = 0 ∨
      ∃ item ∈ items,
        registerIndex s.precision (hash item) = i ∧
        registerRank s.precision (hash item) = s.registers.getD i 0

section Steps

variable
  {hash : ItemHash}
  {p : UInt8}
  {items items' : List Bytes}
  {s t r : HllSketch}

theorem le_raise_left
    (a b : UInt8) :
    a ≤ raise a b := by
  unfold raise
  split_ifs with h
  · exact UInt8.le_of_lt h
  · exact UInt8.le_refl a

theorem le_raise_right
    (a b : UInt8) :
    b ≤ raise a b := by
  unfold raise
  split_ifs with h
  · exact UInt8.le_refl b
  · exact UInt8.not_lt.mp h

theorem records_tryNew
    (h : tryNew p = .ok s) :
    s.Records hash p [] where
  precision_eq := (getD_registers_tryNew h 0).1
  upper := by
    intro i _ item hitem
    cases hitem
  attained := by
    intro i _
    exact Or.inl (getD_registers_tryNew h i).2

theorem length_registers
    (h : s.precision = t.precision) :
    s.registers.length = t.registers.length := by
  rw [s.wellFormed.length_eq, t.wellFormed.length_eq, h]

theorem Records.add
    (hs : s.Records hash p items)
    (item : Bytes) :
    (s.add hash item).Records hash p (items ++ [item]) := by
  have hprecision := precision_add hash s item
  have hlength := length_registers hprecision
  refine ⟨hprecision.trans hs.precision_eq, ?_, ?_⟩
  · intro i hi other hother hidx
    rw [hlength] at hi
    rw [hprecision] at hidx ⊢
    rw [getD_registers_add hash s item hi]
    rcases List.mem_append.mp hother with hother | hother
    · have hold := hs.upper i hi other hother hidx
      split_ifs
      · exact UInt8.le_trans hold (le_raise_left _ _)
      · exact hold
    · obtain rfl := List.mem_singleton.mp hother
      rw [if_pos hidx]
      exact le_raise_right _ _
  · intro i hi
    rw [hlength] at hi
    rw [hprecision, getD_registers_add hash s item hi]
    have hkeep :
        s.registers.getD i 0 = 0 ∨
        ∃ x ∈ items ++ [item],
          registerIndex s.precision (hash x) = i ∧
          registerRank s.precision (hash x) =
            s.registers.getD i 0 := by
      rcases hs.attained i hi with hzero | ⟨x, hx, hrank⟩
      · exact Or.inl hzero
      · exact Or.inr ⟨x, List.mem_append_left _ hx, hrank⟩
    split_ifs with hidx
    · rcases raise_eq_or (s.registers.getD i 0)
          (registerRank s.precision (hash item)) with h | h
      · rw [h]
        exact hkeep
      · rw [h]
        exact Or.inr ⟨item, by simp, hidx, rfl⟩
    · exact hkeep

theorem Records.merge
    (hs : s.Records hash p items)
    (ht : t.Records hash p items')
    (h : s.merge t = .ok r) :
    r.Records hash p (items ++ items') := by
  obtain ⟨hst, hr, hregister⟩ := getD_registers_merge h
  have hlength := length_registers hr
  have hlength' := length_registers hst
  refine ⟨hr.trans hs.precision_eq, ?_, ?_⟩
  · intro i hi item hitem hidx
    rw [hlength] at hi
    rw [hr] at hidx ⊢
    rw [hregister i hi]
    rcases List.mem_append.mp hitem with hitem | hitem
    · exact
        UInt8.le_trans (hs.upper i hi item hitem hidx)
          (le_raise_left _ _)
    · rw [hst] at hidx ⊢
      exact
        UInt8.le_trans (ht.upper i (hlength' ▸ hi) item hitem hidx)
          (le_raise_right _ _)
  · intro i hi
    rw [hlength] at hi
    rw [hr, hregister i hi]
    rcases raise_eq_or (s.registers.getD i 0)
        (t.registers.getD i 0) with h | h
    · rw [h]
      rcases hs.attained i hi with hzero | ⟨x, hx, hrank⟩
      · exact Or.inl hzero
      · exact Or.inr ⟨x, List.mem_append_left _ hx, hrank⟩
    · rw [h, hst]
      rcases ht.attained i (hlength' ▸ hi) with hzero | ⟨x, hx, hrank⟩
      · exact Or.inl hzero
      · exact Or.inr ⟨x, List.mem_append_right _ hx, hrank⟩

/-- The register of one sketch is at most that of one with the same items. -/
theorem Records.getD_le
    (hmem : ∀ x, x ∈ items → x ∈ items')
    (hs : s.Records hash p items)
    (ht : t.Records hash p items')
    {i : Nat}
    (hi : i < s.registers.length) :
    s.registers.getD i 0 ≤ t.registers.getD i 0 := by
  have hprecision := hs.precision_eq.trans ht.precision_eq.symm
  rcases hs.attained i hi with hzero | ⟨x, hx, hidx, hrank⟩
  · rw [hzero]
    exact UInt8.zero_le
  · rw [← hrank, hprecision]
    rw [hprecision] at hidx
    exact
      ht.upper i (length_registers hprecision ▸ hi) x (hmem x hx) hidx

/-- Sketches of one precision with the same set of items are equal. -/
theorem Records.unique
    (hmem : ∀ x, x ∈ items ↔ x ∈ items')
    (hs : s.Records hash p items)
    (ht : t.Records hash p items') :
    s = t := by
  have hprecision := hs.precision_eq.trans ht.precision_eq.symm
  have hlength := length_registers hprecision
  have hregisters : s.registers = t.registers := by
    apply List.ext_getElem hlength
    intro i hi hi'
    have hle := hs.getD_le (fun x => (hmem x).mp) ht hi
    have hge := ht.getD_le (fun x => (hmem x).mpr) hs hi'
    have heq := UInt8.le_antisymm hle hge
    rwa [List.getD_eq_getElem _ _ hi, List.getD_eq_getElem _ _ hi']
      at heq
  obtain ⟨⟨_, _⟩, _⟩ := s
  obtain ⟨⟨_, _⟩, _⟩ := t
  cases hprecision
  cases hregisters
  rfl

end Steps

/-- Additions and merges of one precision may be reordered and repeated. -/
theorem summary_orderFree
    (hash : ItemHash) :
    (summary hash).OrderFree
      (fun items items' => ∀ x, x ∈ items ↔ x ∈ items')
      (fun p items s => s.Records hash p items) where
  fresh := by
    intro p s h
    exact records_tryNew h
  step := by
    intro p items s item hs
    exact ⟨_, rfl, hs.add item⟩
  merge := by
    intro p items s items' t hs ht
    have hst : ¬ s.precision ≠ t.precision := by
      simp [hs.precision_eq, ht.precision_eq]
    obtain ⟨r, hr⟩ : ∃ r, s.merge t = .ok r := ⟨_, if_neg hst⟩
    exact ⟨r, hr, hs.merge ht hr⟩
  unique := by
    intro p items s items' t hmem hs ht
    exact hs.unique hmem ht

/-- `merge` on the receiver: the precision is compared, then the loop runs. -/
def mergeInPlace
    (other : HllFields) : EStateM Error HllFields Unit := do
  let s ← get
  if s.precision ≠ other.precision then
    throw (.invalidSketch "HLL precision mismatch in merge")
  forEach other.registers.zipIdx fun b s =>
    { s with
      registers := s.registers.modify b.2 (fun a => raise a b.1) }

/-- The loop writes the registers that `merge` returns. -/
theorem run_mergeLoop
    (s : HllFields)
    (registers : List UInt8) :
    (forEach registers.zipIdx
        (fun b (s : HllFields) =>
          { s with
            registers :=
              s.registers.modify b.2 (fun a => raise a b.1) }) :
        EStateM Error HllFields Unit).run s =
      .ok ()
        { s with registers := zipInto raise s.registers registers } :=
  run_forEach_zipIdx HllFields.registers
    (fun s registers => { s with registers := registers })
    (fun _ _ => rfl) (fun _ _ _ => rfl) (fun _ => rfl) raise registers s

theorem mergeInPlace_computes
    (s other : HllSketch) :
    Computes (mergeInPlace other.toHllFields) s.toHllFields
      ((s.merge other).map HllSketch.toHllFields) := by
  by_cases h : s.precision = other.precision
  · simp [Computes, mergeInPlace, merge, h, Except.map, run_mergeLoop]
  · simp [Computes, mergeInPlace, merge, h, Except.map]

/-- The precision is compared before a register is written. -/
theorem eq_of_mergeInPlace_error
    (s other t : HllFields)
    (e : Error)
    (h : (mergeInPlace other).run s = .error e t) :
    t = s := by
  by_cases hprecision : s.precision = other.precision
  · simp [mergeInPlace, hprecision, run_forEach] at h
  · simp [mergeInPlace, hprecision] at h
    exact h.2.symm

end HllSketch

namespace CountMinSketch

/-- `merge` on the receiver: the shape is compared, then the loop runs. -/
def mergeInPlace
    (other : CountMinFields) : EStateM Error CountMinFields Unit := do
  let s ← get
  if s.depth ≠ other.depth ∨ s.width ≠ other.width then
    throw (.invalidSketch "CMS depth/width mismatch in merge")
  forEach other.counters.zipIdx fun b s =>
    { s with
      counters :=
        s.counters.modify b.2 (fun a => saturatingAddU32 a b.1) }
  modify fun s =>
    { s with total := saturatingAddU64 s.total other.total }

/-- The loop writes the counters that `merge` returns. -/
theorem run_mergeLoop
    (s : CountMinFields)
    (counters : List UInt32) :
    (forEach counters.zipIdx
        (fun b (s : CountMinFields) =>
          { s with
            counters :=
              s.counters.modify b.2
                (fun a => saturatingAddU32 a b.1) }) :
        EStateM Error CountMinFields Unit).run s =
      .ok ()
        { s with
          counters := zipInto saturatingAddU32 s.counters counters } :=
  run_forEach_zipIdx CountMinFields.counters
    (fun s counters => { s with counters := counters })
    (fun _ _ => rfl) (fun _ _ _ => rfl) (fun _ => rfl)
    saturatingAddU32 counters s

theorem mergeInPlace_computes
    (s other : CountMinSketch) :
    Computes (mergeInPlace other.toCountMinFields) s.toCountMinFields
      ((s.merge other).map CountMinSketch.toCountMinFields) := by
  by_cases h : s.depth ≠ other.depth ∨ s.width ≠ other.width
  · simp [Computes, mergeInPlace, merge, h, Except.map]
  · simp [Computes, mergeInPlace, merge, h, Except.map, run_mergeLoop]

/-- The shape is compared before a counter is written. -/
theorem eq_of_mergeInPlace_error
    (s other t : CountMinFields)
    (e : Error)
    (h : (mergeInPlace other).run s = .error e t) :
    t = s := by
  by_cases hshape : s.depth ≠ other.depth ∨ s.width ≠ other.width
  · simp [mergeInPlace, hshape] at h
    exact h.2.symm
  · simp [mergeInPlace, hshape, run_forEach] at h

end CountMinSketch

/--
**Sketch merges form a homomorphism.**  Whatever the split of the updates into
parts and the bracketing of the merges, the result is the sketch that one pass
over the updates builds, for Count-Min in any order and for HyperLogLog also
when updates are repeated.  A merge that fails leaves its receiver as it was.
-/
theorem sketch_merge_homomorphism :
    (∀ (hash : ItemHash) (p : UInt8) (s₀ : HllSketch),
      HllSketch.tryNew p = .ok s₀ →
      ∀ (h : History UInt8 Bytes) (items : List Bytes),
        (∀ q ∈ h.params, q = p) →
        (∀ x, x ∈ h.ops ↔ x ∈ items) →
        h.run (HllSketch.summary hash) =
          .ok (items.foldl (fun s x => s.add hash x) s₀)) ∧
    (∀ (hash : RowHash) (p : UInt32 × UInt32) (s₀ : CountMinSketch),
      CountMinSketch.tryNew p.1 p.2 = .ok s₀ →
      ∀ (h : History (UInt32 × UInt32) CountMinSketch.Update)
        (us : List CountMinSketch.Update),
        (∀ q ∈ h.params, q = p) →
        h.ops.Perm us →
        h.run (CountMinSketch.updates hash) =
          .ok (us.foldl (fun s u => s.add hash u.1 u.2) s₀)) ∧
    (∀ s other : HllSketch,
      Computes (HllSketch.mergeInPlace other.toHllFields)
        s.toHllFields ((s.merge other).map HllSketch.toHllFields)) ∧
    (∀ (s other t : HllFields) (e : Error),
      (HllSketch.mergeInPlace other).run s = .error e t → t = s) ∧
    (∀ s other : CountMinSketch,
      Computes (CountMinSketch.mergeInPlace other.toCountMinFields)
        s.toCountMinFields
        ((s.merge other).map CountMinSketch.toCountMinFields)) ∧
    (∀ (s other t : CountMinFields) (e : Error),
      (CountMinSketch.mergeInPlace other).run s = .error e t →
        t = s) := by
  refine ⟨?_, ?_, HllSketch.mergeInPlace_computes,
    HllSketch.eq_of_mergeInPlace_error,
    CountMinSketch.mergeInPlace_computes,
    CountMinSketch.eq_of_mergeInPlace_error⟩
  · intro hash p s₀ hp h items hparams hmem
    have hrun :=
      (HllSketch.summary_orderFree hash).run_eq_foldlM hp hparams hmem
    rw [hrun]
    exact List.foldlM_pure
  · intro hash p s₀ hp h us hparams hperm
    have hrun :=
      (CountMinSketch.updates_orderFree hash).run_eq_foldlM hp hparams
        hperm
    rw [hrun]
    exact List.foldlM_pure

section RepeatedItem

/-- Registers are chosen by the length of the item. -/
def lengthItemHash : ItemHash :=
  fun item => UInt64.ofNat item.length <<< 60

def emptyCountMin : CountMinSketch where
  depth := 2
  width := 3
  counters := List.replicate 6 0
  total := 0
  wellFormed := ⟨by decide, by decide, rfl⟩

/-- Two parts that share an item, merged. -/
def repeatedItem : History UInt8 Bytes :=
  .merge
    (.step (.step (.fresh 4) [1]) [1, 2])
    (.step (.fresh 4) [1])

theorem sketch_merge_homomorphism_repeatedItem :
    repeatedItem.run (HllSketch.summary lengthItemHash) =
      .ok ((emptyHll.add lengthItemHash [1, 2]).add lengthItemHash [1]) ∧
    massPair.run (CountMinSketch.updates lengthHash) =
      .ok
        (((emptyCountMin.add lengthHash [7] 2).add lengthHash [1, 2]
          4).add lengthHash [7] 1) := by
  have h := sketch_merge_homomorphism
  constructor
  · refine
      h.1 lengthItemHash 4 emptyHll (by decide +kernel) repeatedItem
        [[1, 2], [1]] (by simp [repeatedItem, History.params]) ?_
    intro x
    simp [repeatedItem, History.ops]
    tauto
  · exact
      h.2.1 lengthHash (2, 3) emptyCountMin (by decide +kernel) massPair
        [([7], 2), ([1, 2], 4), ([7], 1)]
        (by simp [massPair, History.params]) (by decide +kernel)

end RepeatedItem

end Samkhya
