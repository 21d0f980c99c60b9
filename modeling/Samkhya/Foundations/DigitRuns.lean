import Mathlib

/-!
# The first run of digits

Searching for one or more characters of a class, leftmost and greedy, matches
the first maximal run of them.  Two searches of one text by different classes,
and the search of a text in another encoding, are compared here.
-/

namespace Samkhya
namespace DigitRuns

universe u v

variable {α : Type u} {β : Type v} {p q : α → Bool}

/-- The first maximal run of the characters that have `p`. -/
def firstRun (p : α → Bool) (s : List α) : List α :=
  (s.dropWhile fun c => !p c).takeWhile p

/-- The match of a search for one or more of them. -/
def search (p : α → Bool) (s : List α) : Option (List α) :=
  if firstRun p s = [] then none else some (firstRun p s)

@[simp] theorem firstRun_nil
    (p : α → Bool) :
    firstRun p [] = [] :=
  rfl

theorem firstRun_cons_of_pos
    {c : α}
    (h : p c)
    (s : List α) :
    firstRun p (c :: s) = c :: s.takeWhile p := by
  simp [firstRun, h]

theorem firstRun_cons_of_neg
    {c : α}
    (h : ¬ p c)
    (s : List α) :
    firstRun p (c :: s) = firstRun p s := by
  simp [firstRun, h]

/-- There is no run just when no character has the property. -/
theorem firstRun_eq_nil_iff
    {s : List α} :
    firstRun p s = [] ↔ ∀ c ∈ s, ¬ p c := by
  induction s with
  | nil =>
      simp
  | cons c s ih =>
      by_cases hc : p c
      · simp [firstRun_cons_of_pos hc, hc]
      · rw [firstRun_cons_of_neg hc, ih]
        simp [hc]

theorem of_mem_firstRun
    {s : List α}
    {c : α}
    (h : c ∈ firstRun p s) :
    p c :=
  List.mem_takeWhile_imp h

section Classes

variable (hqp : ∀ c, q c → p c)

include hqp

theorem takeWhile_eq_of_forall
    {s : List α}
    (h : ∀ c ∈ s.takeWhile p, q c) :
    s.takeWhile q = s.takeWhile p := by
  induction s with
  | nil =>
      rfl
  | cons c s ih =>
      by_cases hc : p c
      · rw [List.takeWhile_cons_of_pos hc] at h ⊢
        rw [List.takeWhile_cons_of_pos (h c List.mem_cons_self)]
        rw [ih fun d hd => h d (List.mem_cons_of_mem c hd)]
      · have hq : ¬ q c := fun hq => hc (hqp c hq)
        rw [List.takeWhile_cons_of_neg hc, List.takeWhile_cons_of_neg hq]

/-- A run of the larger class within the smaller one is its run too. -/
theorem firstRun_eq_of_forall
    {s : List α}
    (h : ∀ c ∈ firstRun p s, q c) :
    firstRun q s = firstRun p s := by
  induction s with
  | nil =>
      rfl
  | cons c s ih =>
      by_cases hc : p c
      · rw [firstRun_cons_of_pos hc] at h ⊢
        rw [firstRun_cons_of_pos (h c List.mem_cons_self)]
        rw [takeWhile_eq_of_forall hqp fun d hd =>
          h d (List.mem_cons_of_mem c hd)]
      · have hq : ¬ q c := fun hq => hc (hqp c hq)
        rw [firstRun_cons_of_neg hc] at h ⊢
        rw [firstRun_cons_of_neg hq]
        exact ih h

end Classes

section Encodings

variable {f : α → List β} {r : β → Bool}

/-- An encoding that keeps a class: its characters become one unit each. -/
structure Keeps (f : α → List β) (p : α → Bool) (r : β → Bool) : Prop where
  pos : ∀ c, p c → ∃ b, f c = [b] ∧ r b
  neg : ∀ c, ¬ p c → f c ≠ [] ∧ ∀ b ∈ f c, ¬ r b

theorem Keeps.takeWhile_flatMap
    (h : Keeps f p r)
    (s : List α) :
    (s.flatMap f).takeWhile r = (s.takeWhile p).flatMap f := by
  induction s with
  | nil =>
      rfl
  | cons c s ih =>
      by_cases hc : p c
      · obtain ⟨b, hb, hr⟩ := h.pos c hc
        rw [List.takeWhile_cons_of_pos hc, List.flatMap_cons,
          List.flatMap_cons, hb, List.singleton_append,
          List.takeWhile_cons_of_pos hr, ih]
        rfl
      · obtain ⟨hne, hr⟩ := h.neg c hc
        rw [List.takeWhile_cons_of_neg hc, List.flatMap_cons]
        cases hf : f c with
        | nil => exact absurd hf hne
        | cons b rest =>
            have hb : ¬ r b := hr b (by simp [hf])
            rw [List.cons_append, List.takeWhile_cons_of_neg hb]
            rfl

theorem dropWhile_append_of_forall
    {x y : List β}
    (h : ∀ b ∈ x, ¬ r b) :
    (x ++ y).dropWhile (fun b => !r b) = y.dropWhile fun b => !r b := by
  rw [List.dropWhile_append_of_pos]
  simpa using h

/-- The run of an encoded text is the encoded run. -/
theorem Keeps.firstRun_flatMap
    (h : Keeps f p r)
    (s : List α) :
    firstRun r (s.flatMap f) = (firstRun p s).flatMap f := by
  induction s with
  | nil =>
      rfl
  | cons c s ih =>
      by_cases hc : p c
      · obtain ⟨b, hb, hr⟩ := h.pos c hc
        rw [firstRun_cons_of_pos hc, List.flatMap_cons, List.flatMap_cons,
          hb, List.singleton_append, firstRun_cons_of_pos hr,
          h.takeWhile_flatMap]
        rfl
      · rw [firstRun_cons_of_neg hc, ← ih, List.flatMap_cons]
        unfold firstRun
        rw [dropWhile_append_of_forall (h.neg c hc).2]

/-- A class taken out of the text before or after encoding. -/
theorem Keeps.filter_flatMap
    (h : Keeps f p r)
    (s : List α) :
    (s.flatMap f).filter (fun b => !r b) =
      (s.filter fun c => !p c).flatMap f := by
  induction s with
  | nil =>
      rfl
  | cons c s ih =>
      rw [List.flatMap_cons, List.filter_append, ih]
      by_cases hc : p c
      · obtain ⟨b, hb, hr⟩ := h.pos c hc
        simp [hb, hr, hc]
      · rw [List.filter_eq_self.mpr]
        · simp [hc]
        · simpa using (h.neg c hc).2

theorem Keeps.flatMap_eq_nil_iff
    (h : Keeps f p r)
    {s : List α} :
    s.flatMap f = [] ↔ s = [] := by
  cases s with
  | nil =>
      simp
  | cons c s =>
      by_cases hc : p c
      · obtain ⟨b, hb, _⟩ := h.pos c hc
        simp [hb]
      · simp [(h.neg c hc).1]

end Encodings

section Numbers

/-- The number that the digits of a run spell, most significant first. -/
def spelled (value : α → Nat) (run : List α) : Nat :=
  Nat.ofDigits 10 (run.map value).reverse

/-- Reading the digits from the left. -/
def readDigits (value : α → Nat) (run : List α) : Nat :=
  run.foldl (fun acc c => acc * 10 + value c) 0

theorem readDigits_append_singleton
    (value : α → Nat)
    (run : List α)
    (c : α) :
    readDigits value (run ++ [c]) = readDigits value run * 10 + value c := by
  simp [readDigits]

theorem readDigits_eq_spelled
    (value : α → Nat)
    (run : List α) :
    readDigits value run = spelled value run := by
  induction run using List.reverseRecOn with
  | nil =>
      rfl
  | append_singleton run c ih =>
      rw [readDigits_append_singleton, ih]
      simp only [spelled, List.map_append, List.map_cons, List.map_nil,
        List.reverse_append, List.reverse_cons, List.reverse_nil,
        List.nil_append, List.singleton_append, Nat.ofDigits_cons]
      ring

theorem readDigits_congr
    {value : α → Nat}
    {value' : β → Nat}
    {run : List α}
    {run' : List β}
    (h : run.map value = run'.map value') :
    readDigits value run = readDigits value' run' := by
  rw [readDigits_eq_spelled, readDigits_eq_spelled, spelled, spelled, h]

end Numbers

end DigitRuns
end Samkhya
