import Mathlib

/-!
# Records with keys that may not repeat

Some records of a list are read, and one that is read has a key or is refused.
A list is clean when none is refused and no two that are read share a key.
This depends neither on the order of the records nor on those that are skipped,
and it is what a loop with a set of seen keys checks (`Scans.ok_iff`).
-/

namespace Samkhya
namespace KeyedRecords

universe u v w

section Clean

variable {α : Type u} {κ : Type v}

/-- No record that is read is refused or repeats a key. -/
structure Clean
    (read : α → Bool)
    (key : α → Option κ)
    (records : List α) : Prop where
  keyed : ∀ a ∈ records, read a = true → key a ≠ none
  nodup : ((records.filter read).map key).Nodup

variable
  {read : α → Bool}
  {key : α → Option κ}
  {records records' : List α}
  {a b : α}

/-- Neither the order nor the skipped records matter. -/
theorem Clean.of_perm
    (h : Clean read key records)
    (hperm : (records.filter read).Perm (records'.filter read)) :
    Clean read key records' where
  keyed := by
    intro a ha hread
    have hmem : a ∈ records.filter read :=
      hperm.mem_iff.mpr (List.mem_filter.mpr ⟨ha, hread⟩)
    exact h.keyed a (List.mem_of_mem_filter hmem) hread
  nodup := (hperm.map key).nodup_iff.mp h.nodup

theorem clean_congr
    (hperm : (records.filter read).Perm (records'.filter read)) :
    Clean read key records ↔ Clean read key records' :=
  ⟨fun h => h.of_perm hperm, fun h => h.of_perm hperm.symm⟩

theorem clean_nil :
    Clean read key [] where
  keyed := by simp
  nodup := by simp

/-- A record that is skipped changes nothing. -/
theorem clean_cons_of_skipped
    (hread : read a = false) :
    Clean read key (a :: records) ↔ Clean read key records := by
  refine clean_congr (List.Perm.of_eq ?_)
  rw [List.filter_cons_of_neg (by simp [hread])]

/-- A record that is read has a key that the rest does not repeat. -/
theorem clean_cons_of_read
    (hread : read a = true) :
    Clean read key (a :: records) ↔
      key a ≠ none ∧
        (∀ b ∈ records, read b = true → key b ≠ key a) ∧
        Clean read key records := by
  constructor
  · intro h
    have hnodup := h.nodup
    rw [List.filter_cons_of_pos hread, List.map_cons,
      List.nodup_cons] at hnodup
    refine ⟨h.keyed a List.mem_cons_self hread, ?_, ?_, hnodup.2⟩
    · intro b hb hrb hsame
      refine hnodup.1 (List.mem_map.mpr ⟨b, ?_, hsame⟩)
      exact List.mem_filter.mpr ⟨hb, hrb⟩
    · intro b hb
      exact h.keyed b (List.mem_cons_of_mem a hb)
  · rintro ⟨hkey, hnew, h⟩
    constructor
    · intro b hb hrb
      rcases List.mem_cons.mp hb with rfl | hb
      · exact hkey
      · exact h.keyed b hb hrb
    · rw [List.filter_cons_of_pos hread, List.map_cons, List.nodup_cons]
      refine ⟨?_, h.nodup⟩
      intro hmem
      obtain ⟨b, hb, hsame⟩ := List.mem_map.mp hmem
      obtain ⟨hb, hrb⟩ := List.mem_filter.mp hb
      exact hnew b hb hrb hsame

/-- A key of a clean list names one record. -/
theorem Clean.eq_of_key
    (h : Clean read key records)
    (ha : a ∈ records)
    (hb : b ∈ records)
    (hra : read a = true)
    (hrb : read b = true)
    (hkey : key a = key b) :
    a = b :=
  List.inj_on_of_nodup_map h.nodup (List.mem_filter.mpr ⟨ha, hra⟩)
    (List.mem_filter.mpr ⟨hb, hrb⟩) hkey

/-- No two places of a clean list have records with one key. -/
theorem nodup_iff :
    ((records.filter read).map key).Nodup ↔
      ∀ (i j : Nat) (a b : α), i < j →
        records[i]? = some a → records[j]? = some b →
        read a = true → read b = true → key a ≠ key b := by
  rw [List.Nodup, List.pairwise_map, List.pairwise_filter,
    List.pairwise_iff_getElem]
  constructor
  · intro h i j a b hij hi hj
    obtain ⟨hilt, rfl⟩ := List.getElem?_eq_some_iff.mp hi
    obtain ⟨hjlt, rfl⟩ := List.getElem?_eq_some_iff.mp hj
    exact h i j hilt hjlt hij
  · intro h i j hi hj hij
    exact
      h i j _ _ hij (List.getElem?_eq_getElem hi)
        (List.getElem?_eq_getElem hj)

/-- One record is enough to make a list unclean. -/
theorem not_clean_iff :
    ¬ Clean read key records ↔
      ∃ (i : Nat) (a : α),
        records[i]? = some a ∧ read a = true ∧
        (key a = none ∨
          ∃ (j : Nat) (b : α), j ≠ i ∧
            records[j]? = some b ∧ read b = true ∧
            key b = key a) := by
  constructor
  · intro h
    by_cases hkeyed : ∀ a ∈ records, read a = true → key a ≠ none
    · have hnodup : ¬ ((records.filter read).map key).Nodup :=
        fun hnodup => h ⟨hkeyed, hnodup⟩
      rw [nodup_iff] at hnodup
      push Not at hnodup
      obtain ⟨i, j, a, b, hij, hi, hj, hra, hrb, hkey⟩ := hnodup
      exact
        ⟨i, a, hi, hra, Or.inr ⟨j, b, hij.ne', hj, hrb, hkey.symm⟩⟩
    · push Not at hkeyed
      obtain ⟨a, ha, hread, hnone⟩ := hkeyed
      obtain ⟨i, hi⟩ := List.mem_iff_getElem?.mp ha
      exact ⟨i, a, hi, hread, Or.inl hnone⟩
  · rintro ⟨i, a, hi, hread, hnone | ⟨j, b, hij, hj, hrb, hkey⟩⟩ h
    · exact h.keyed a (List.mem_of_getElem? hi) hread hnone
    · rcases lt_or_gt_of_ne hij with hlt | hlt
      · exact
          nodup_iff.mp h.nodup j i b a hlt hj hi hrb hread hkey
      · exact
          nodup_iff.mp h.nodup i j a b hlt hi hj hread hrb hkey.symm

end Clean

section Scans

variable {α : Type u} {κ : Type v} {ε : Type w}

/-- A loop body that remembers the keys it has seen. -/
structure Scans
    (read : α → Bool)
    (key : α → Option κ)
    (step : List κ → α → Except ε (List κ)) : Prop where
  skipped :
    ∀ seen a, read a = false → step seen a = .ok seen
  refused :
    ∀ seen a, read a = true → key a = none →
      ∃ e, step seen a = .error e
  repeated :
    ∀ seen a k, read a = true → key a = some k → k ∈ seen →
      ∃ e, step seen a = .error e
  fresh :
    ∀ seen a k, read a = true → key a = some k → k ∉ seen →
      step seen a = .ok (k :: seen)

variable
  {read : α → Bool}
  {key : α → Option κ}
  {step : List κ → α → Except ε (List κ)}

/-- Clean, and with no key among those seen before. -/
def CleanAfter
    (read : α → Bool)
    (key : α → Option κ)
    (seen : List κ)
    (records : List α) : Prop :=
  Clean read key records ∧
    ∀ a ∈ records, read a = true → ∀ k ∈ seen, key a ≠ some k

variable {seen : List κ} {a : α} {rest : List α}

theorem cleanAfter_cons_of_skipped
    (hread : read a = false) :
    CleanAfter read key seen (a :: rest) ↔
      CleanAfter read key seen rest := by
  simp [CleanAfter, clean_cons_of_skipped hread, hread]

theorem not_cleanAfter_cons_of_refused
    (hread : read a = true)
    (hkey : key a = none) :
    ¬ CleanAfter read key seen (a :: rest) := by
  rintro ⟨hclean, _⟩
  exact hclean.keyed a List.mem_cons_self hread hkey

/-- A new key is one more that has been seen. -/
theorem cleanAfter_cons_of_key
    (hread : read a = true)
    {k : κ}
    (hkey : key a = some k) :
    CleanAfter read key seen (a :: rest) ↔
      k ∉ seen ∧ CleanAfter read key (k :: seen) rest := by
  simp only [CleanAfter, clean_cons_of_read hread, hkey,
    List.forall_mem_cons]
  constructor
  · rintro ⟨⟨_, hnew, hclean⟩, hhead, hrest⟩
    refine ⟨fun hmem => hhead hread k hmem rfl, hclean, ?_⟩
    exact fun b hb hrb => ⟨hnew b hb hrb, hrest b hb hrb⟩
  · rintro ⟨hseen, hclean, hrest⟩
    refine ⟨⟨by simp, fun b hb hrb => (hrest b hb hrb).1, hclean⟩, ?_, ?_⟩
    · rintro _ k' hk' heq
      rw [← Option.some.inj heq] at hk'
      exact hseen hk'
    · exact fun b hb hrb => (hrest b hb hrb).2

/-- The loop goes through iff the list is clean and its keys are new. -/
theorem Scans.ok_iff_of_seen
    (h : Scans read key step)
    (records : List α)
    (seen : List κ) :
    (∃ seen', records.foldlM step seen = .ok seen') ↔
      CleanAfter read key seen records := by
  induction records generalizing seen with
  | nil =>
      exact
        ⟨fun _ => ⟨clean_nil, by simp⟩, fun _ => ⟨seen, rfl⟩⟩
  | cons a rest ih =>
      rw [List.foldlM_cons]
      have hstop :
          (∃ e, step seen a = .error e) →
            ¬ ∃ seen',
              (step seen a >>= fun s => rest.foldlM step s) =
                .ok seen' := by
        rintro ⟨e, he⟩ ⟨seen', hok⟩
        rw [he] at hok
        cases hok
      cases hread : read a with
      | false =>
          rw [h.skipped seen a hread, cleanAfter_cons_of_skipped hread]
          exact ih seen
      | true =>
          cases hkey : key a with
          | none =>
              exact
                iff_of_false (hstop (h.refused seen a hread hkey))
                  (not_cleanAfter_cons_of_refused hread hkey)
          | some k =>
              rw [cleanAfter_cons_of_key hread hkey]
              by_cases hseen : k ∈ seen
              · exact
                  iff_of_false
                    (hstop (h.repeated seen a k hread hkey hseen))
                    fun hnew => hnew.1 hseen
              · rw [h.fresh seen a k hread hkey hseen,
                  and_iff_right hseen]
                exact ih (k :: seen)

/-- The loop goes through exactly for the clean lists. -/
theorem Scans.ok_iff
    (h : Scans read key step)
    (records : List α) :
    (∃ seen, records.foldlM step [] = .ok seen) ↔
      Clean read key records := by
  rw [h.ok_iff_of_seen]
  simp [CleanAfter]

end Scans

section Collect

variable {α : Type u} {β : Type v}

open Classical in
/-- All values or none. -/
theorem mapM_eq_ite
    (f : α → Option β)
    (l : List α) :
    l.mapM f =
      if ∀ a ∈ l, f a ≠ none then some (l.filterMap f) else none := by
  induction l with
  | nil =>
      simp
  | cons a rest ih =>
      rw [List.mapM_cons, ih]
      cases ha : f a with
      | none =>
          simp [ha]
      | some b =>
          by_cases hall : ∀ a ∈ rest, f a ≠ none
          · simp only [if_pos hall, List.filterMap_cons, ha]
            rw [if_pos (by simpa [ha] using hall)]
            rfl
          · rw [if_neg hall, if_neg (by simpa [ha] using hall)]
            rfl

/-- What is collected of two orders of a list differs in order only. -/
theorem mapM_perm
    {f : α → Option β}
    {l l' : List α}
    (hperm : l.Perm l') :
    Option.Rel List.Perm (l.mapM f) (l'.mapM f) := by
  rw [mapM_eq_ite, mapM_eq_ite]
  have hiff : (∀ a ∈ l, f a ≠ none) ↔ ∀ a ∈ l', f a ≠ none := by
    simp only [hperm.mem_iff]
  by_cases hall : ∀ a ∈ l, f a ≠ none
  · rw [if_pos hall, if_pos (hiff.mp hall)]
    exact Option.Rel.some (hperm.filterMap f)
  · rw [if_neg hall, if_neg (fun h => hall (hiff.mpr h))]
    exact Option.Rel.none

end Collect

end KeyedRecords
end Samkhya
