import Mathlib

/-!
# Growing a spanning tree along weighted arcs

A growth attaches one vertex after the other, each through an arc that leaves
the vertices reached so far.  It is greedy when no arc that leaves them weighs
less than the one it takes.

An arc may weigh something else than its reverse, and then a greedy growth need
not be the lightest.  It is when the weights are `Balanced`: an arc whose ends
stay connected without it weighs the same in both directions.  Both kinds of
growth are compared by the number of their arcs above a threshold, which counts
the classes of vertices that lighter arcs connect.
-/

namespace Samkhya
namespace SpanningGrowth

universe u

/-- Arcs by source, target and weight. -/
abbrev Arcs (α : Type u) := α → α → Nat → Prop

section Growths

variable {α : Type u} [DecidableEq α] {arc : Arcs α} {S : Finset α}

/-- Attach vertices one after the other, each with the weight of its arc. -/
inductive Growth (arc : Arcs α) : Finset α → List (α × Nat) → Prop
  | done (S : Finset α) :
      Growth arc S []
  | attach
      {S : Finset α} {u v : α} {w : Nat} {rest : List (α × Nat)}
      (harc : arc u v w)
      (hu : u ∈ S)
      (hv : v ∉ S)
      (hrest : Growth arc (insert v S) rest) :
      Growth arc S ((v, w) :: rest)

/-- A growth that always takes the least weight that leaves its vertices. -/
inductive Greedy (arc : Arcs α) : Finset α → List (α × Nat) → Prop
  | done (S : Finset α) :
      Greedy arc S []
  | attach
      {S : Finset α} {u v : α} {w : Nat} {rest : List (α × Nat)}
      (harc : arc u v w)
      (hu : u ∈ S)
      (hv : v ∉ S)
      (hleast :
        ∀ u' ∈ S, ∀ v' ∉ S, ∀ w', arc u' v' w' → w ≤ w')
      (hrest : Greedy arc (insert v S) rest) :
      Greedy arc S ((v, w) :: rest)

/-- The vertices that a growth ends with. -/
def reached (S : Finset α) (steps : List (α × Nat)) : Finset α :=
  S ∪ (steps.map Prod.fst).toFinset

/-- The weights of the arcs that were taken. -/
def weights (steps : List (α × Nat)) : List Nat :=
  steps.map Prod.snd

@[simp] theorem reached_nil
    (S : Finset α) :
    reached S [] = S := by
  simp [reached]

theorem reached_cons
    (S : Finset α)
    (v : α)
    (w : Nat)
    (rest : List (α × Nat)) :
    reached S ((v, w) :: rest) = reached (insert v S) rest := by
  ext x
  simp [reached]

theorem Greedy.growth
    {steps : List (α × Nat)}
    (h : Greedy arc S steps) :
    Growth arc S steps := by
  induction h with
  | done S => exact .done S
  | attach harc hu hv _ _ ih => exact .attach harc hu hv ih

/-- A growth can go on from what another has reached. -/
theorem Growth.append
    {steps steps' : List (α × Nat)}
    (h : Growth arc S steps)
    (h' : Growth arc (reached S steps) steps') :
    Growth arc S (steps ++ steps') := by
  induction h with
  | done S =>
      rw [reached_nil] at h'
      exact h'
  | attach harc hu hv _ ih =>
      rw [reached_cons] at h'
      exact .attach harc hu hv (ih h')

theorem reached_append
    (S : Finset α)
    (steps steps' : List (α × Nat)) :
    reached S (steps ++ steps') = reached (reached S steps) steps' := by
  simp [reached, Finset.union_assoc]

/-- Every step attaches a new vertex through an arc. -/
theorem Growth.of_mem
    {steps : List (α × Nat)}
    (h : Growth arc S steps)
    {p : α × Nat}
    (hp : p ∈ steps) :
    p.1 ∉ S ∧ ∃ u, arc u p.1 p.2 := by
  induction h with
  | done S =>
      cases hp
  | @attach S u v w rest harc hu hv _ ih =>
      rcases List.mem_cons.mp hp with rfl | hp
      · exact ⟨hv, u, harc⟩
      · obtain ⟨hnot, hex⟩ := ih hp
        exact ⟨fun hS => hnot (Finset.mem_insert_of_mem hS), hex⟩

/--
The weights of a growth as a factor for each vertex: the given ones where it
starts, and the weight of an incoming arc where it attaches.
-/
theorem Growth.exists_factors
    {steps : List (α × Nat)}
    (h : Growth arc S steps)
    (x : α → Nat) :
    ∃ y : α → Nat,
      (∀ v ∈ S, y v = x v) ∧
      (∀ v ∈ reached S steps, v ∉ S → ∃ u, arc u v (y v)) ∧
      ∏ v ∈ reached S steps, y v =
        (∏ v ∈ S, x v) * (weights steps).prod := by
  induction h generalizing x with
  | done S =>
      refine ⟨x, fun v _ => rfl, ?_, by simp [weights]⟩
      intro v hv hnot
      rw [reached_nil] at hv
      exact absurd hv hnot
  | @attach S u v w rest harc hu hv hrest ih =>
      obtain ⟨y, hstart, harcs, hprod⟩ := ih (Function.update x v w)
      have hkept : ∀ z ∈ S, Function.update x v w z = x z := by
        intro z hz
        have hne : z ≠ v := fun h => hv (h ▸ hz)
        exact Function.update_of_ne hne _ _
      have hy : ∀ z ∈ S, y z = x z := by
        intro z hz
        rw [hstart z (Finset.mem_insert_of_mem hz), hkept z hz]
      have hyv : y v = w := by
        rw [hstart v (Finset.mem_insert_self v S),
          Function.update_self]
      refine ⟨y, hy, ?_, ?_⟩
      · intro z hz hnot
        rw [reached_cons] at hz
        by_cases hzv : z = v
        · rw [hzv, hyv]
          exact ⟨u, harc⟩
        · exact harcs z hz (by simp [hzv, hnot])
      · rw [reached_cons, hprod, Finset.prod_insert hv,
          Function.update_self, Finset.prod_congr rfl hkept]
        simp only [weights, List.map_cons, List.prod_cons]
        ring

theorem Growth.nodup
    {steps : List (α × Nat)}
    (h : Growth arc S steps) :
    (steps.map Prod.fst).Nodup := by
  induction h with
  | done S =>
      exact List.nodup_nil
  | @attach S u v w rest harc hu hv hrest ih =>
      rw [List.map_cons, List.nodup_cons]
      refine ⟨?_, ih⟩
      intro hmem
      obtain ⟨p, hp, hpv⟩ := List.mem_map.mp hmem
      apply (hrest.of_mem hp).1
      rw [hpv]
      exact Finset.mem_insert_self v S

/-- Every step reaches a new vertex. -/
theorem Growth.card_reached
    {steps : List (α × Nat)}
    (h : Growth arc S steps) :
    (reached S steps).card = S.card + steps.length := by
  induction h with
  | done S => simp
  | @attach S u v w rest harc hu hv hrest ih =>
      rw [reached_cons, ih, Finset.card_insert_of_notMem hv,
        List.length_cons]
      omega

end Growths

/-- What related elements agree on, connected ones agree on. -/
theorem iff_of_eqvGen
    {α : Type u}
    {r : α → α → Prop}
    {p : α → Prop}
    (h : ∀ x y, r x y → (p x ↔ p y))
    {x y : α}
    (hxy : Relation.EqvGen r x y) :
    p x ↔ p y := by
  induction hxy with
  | rel x y hrel => exact h x y hrel
  | refl x => exact Iff.rfl
  | symm x y _ ih => exact ih.symm
  | trans x y z _ _ ih ih' => exact ih.trans ih'

section Thresholds

variable {α : Type u} {arc : Arcs α} {S : Finset α}

/-- An arc of weight at most `t`. -/
def Light (arc : Arcs α) (t : Nat) (u v : α) : Prop :=
  ∃ w ≤ t, arc u v w

/-- The vertices that light arcs connect with a vertex. -/
def lightClass (arc : Arcs α) (t : Nat) (v : α) :
    Quotient (Relation.EqvGen.setoid (Light arc t)) :=
  Quotient.mk _ v

open Classical in
/-- Number of classes of light arcs among the vertices. -/
noncomputable def classes
    (arc : Arcs α)
    (t : Nat)
    (S : Finset α) : Nat :=
  (S.image (lightClass arc t)).card

/-- Number of weights above `t`. -/
def heavy (t : Nat) (ws : List Nat) : Nat :=
  ws.countP (fun w => t < w)

theorem lightClass_eq_iff
    {t : Nat}
    {u v : α} :
    lightClass arc t u = lightClass arc t v ↔
      Relation.EqvGen (Light arc t) u v :=
  Quotient.eq

theorem heavy_cons
    (t w : Nat)
    (ws : List Nat) :
    heavy t (w :: ws) = heavy t ws + if t < w then 1 else 0 := by
  simp [heavy, List.countP_cons]

variable [DecidableEq α]

/-- Every new class costs a heavy arc. -/
theorem Growth.classes_le
    {steps : List (α × Nat)}
    (t : Nat)
    (h : Growth arc S steps) :
    classes arc t (reached S steps) ≤
      classes arc t S + heavy t (weights steps) := by
  classical
  induction h with
  | done S =>
      simp
  | @attach S u v w rest harc hu hv hrest ih =>
      have hstep :
          classes arc t (insert v S) ≤
            classes arc t S + if t < w then 1 else 0 := by
        unfold classes
        rw [Finset.image_insert]
        split_ifs with hw
        · exact Finset.card_insert_le _ _
        · have hclass : lightClass arc t u = lightClass arc t v :=
            lightClass_eq_iff.mpr
              (.rel u v ⟨w, not_lt.mp hw, harc⟩)
          have hmem :
              lightClass arc t v ∈ S.image (lightClass arc t) :=
            Finset.mem_image.mpr ⟨u, hu, hclass⟩
          rw [Finset.insert_eq_of_mem hmem]
          exact Nat.le_add_right _ _
      have hweights : weights ((v, w) :: rest) = w :: weights rest :=
        rfl
      rw [reached_cons, hweights, heavy_cons]
      omega

/-- A class that meets a set and its complement has a light arc between them. -/
theorem exists_light_of_eqvGen
    {t : Nat}
    (hsymm : ∀ u v w, arc u v w → arc v u w)
    {x y : α}
    (h : Relation.EqvGen (Light arc t) x y)
    (hx : x ∈ S)
    (hy : y ∉ S) :
    ∃ u ∈ S, ∃ v ∉ S, Light arc t u v := by
  by_contra hnone
  push Not at hnone
  have hstay : ∀ u v, Light arc t u v → (u ∈ S ↔ v ∈ S) := by
    rintro u v ⟨w, hw, harc⟩
    constructor
    · intro hu
      by_contra hv
      exact hnone u hu v hv ⟨w, hw, harc⟩
    · intro hv
      by_contra hu
      exact hnone v hv u hu ⟨w, hw, hsymm u v w harc⟩
  exact hy ((iff_of_eqvGen hstay h).mp hx)

/-- A greedy growth takes a heavy arc only into a new class. -/
theorem Greedy.le_classes
    {steps : List (α × Nat)}
    (t : Nat)
    (hsymm : ∀ u v w, arc u v w → arc v u w)
    (h : Greedy arc S steps) :
    classes arc t S + heavy t (weights steps) ≤
      classes arc t (reached S steps) := by
  classical
  induction h with
  | done S =>
      simp [weights, heavy]
  | @attach S u v w rest harc hu hv hleast hrest ih =>
      have hstep :
          classes arc t S + (if t < w then 1 else 0) ≤
            classes arc t (insert v S) := by
        unfold classes
        rw [Finset.image_insert]
        split_ifs with hw
        · have hnew :
              lightClass arc t v ∉ S.image (lightClass arc t) := by
            intro hmem
            obtain ⟨x, hx, hclass⟩ := Finset.mem_image.mp hmem
            obtain ⟨u', hu', v', hv', w', hw', harc'⟩ :=
              exists_light_of_eqvGen hsymm
                (lightClass_eq_iff.mp hclass) hx hv
            exact
              absurd ((hleast u' hu' v' hv' w' harc').trans hw')
                (not_le.mpr hw)
          exact (Finset.card_insert_of_notMem hnew).ge
        · exact Finset.card_le_card (Finset.subset_insert _ _)
      have hweights : weights ((v, w) :: rest) = w :: weights rest :=
        rfl
      rw [reached_cons, hweights, heavy_cons]
      omega

/-- Among symmetric weights a greedy growth takes the fewest heavy arcs. -/
theorem Greedy.heavy_le_of_symm
    {steps steps' : List (α × Nat)}
    (hsymm : ∀ u v w, arc u v w → arc v u w)
    (h : Greedy arc S steps)
    (h' : Growth arc S steps')
    (hreached : reached S steps = reached S steps')
    (t : Nat) :
    heavy t (weights steps) ≤ heavy t (weights steps') := by
  have hgreedy := h.le_classes t hsymm
  have hgrowth := h'.classes_le t
  rw [hreached] at hgreedy
  omega

end Thresholds

section Balanced

variable {α : Type u} {arc : Arcs α} {S : Finset α} {r : α}

/-- Connected by arcs that do not run between `u` and `v`. -/
def Detour (arc : Arcs α) (u v : α) : α → α → Prop :=
  Relation.EqvGen fun x y =>
    (∃ w, arc x y w) ∧ ¬ (x = u ∧ y = v) ∧ ¬ (x = v ∧ y = u)

/-- An arc on a cycle weighs the same in both directions. -/
def Balanced (arc : Arcs α) : Prop :=
  ∀ u v w, arc u v w → arc v u w ∨ ¬ Detour arc u v u v

/-- An arc that a growth from `r` can take. -/
def Outward (arc : Arcs α) (r u v : α) (w : Nat) : Prop :=
  arc u v w ∧ (Detour arc u v u v ∨ Detour arc u v r u)

/-- The outward arcs in both directions. -/
def outwardArcs (arc : Arcs α) (r : α) : Arcs α :=
  fun u v w => Outward arc r u v w ∨ Outward arc r v u w

/-- All vertices of the set are connected with `r` inside the set. -/
def Inner (arc : Arcs α) (S : Finset α) (r : α) : Prop :=
  ∀ x ∈ S,
    Relation.EqvGen
      (fun a b => a ∈ S ∧ b ∈ S ∧ ∃ w, arc a b w) r x

theorem Detour.swap
    {u v x y : α}
    (h : Detour arc u v x y) :
    Detour arc v u x y := by
  refine Relation.EqvGen.mono ?_ _ _ h
  rintro a b ⟨harc, hne, hne'⟩
  exact ⟨harc, hne', hne⟩

/-- Within the set there is no need to leave it. -/
theorem Inner.detour
    (h : Inner arc S r)
    {u v : α}
    (hu : u ∈ S)
    (hv : v ∉ S) :
    Detour arc u v r u := by
  refine Relation.EqvGen.mono ?_ _ _ (h u hu)
  rintro a b ⟨ha, hb, harc⟩
  refine ⟨harc, ?_, ?_⟩
  · rintro ⟨_, rfl⟩
    exact hv hb
  · rintro ⟨rfl, _⟩
    exact hv ha

/-- An outward arc that leaves the set is an arc, if weights are balanced. -/
theorem Balanced.arc_of_outward
    (hbalanced : Balanced arc)
    (hinner : Inner arc S r)
    {u v : α}
    {w : Nat}
    (h : outwardArcs arc r u v w)
    (hu : u ∈ S)
    (hv : v ∉ S) :
    arc u v w := by
  rcases h with ⟨harc, _⟩ | ⟨harc, hout⟩
  · exact harc
  · rcases hbalanced v u w harc with hback | hbridge
    · exact hback
    · -- the set holds one end of a bridge, so `r` is on that side
      have hr := hout.resolve_left hbridge
      have hru := (hinner.detour hu hv).swap
      exact
        absurd ((hr.symm _ _).trans _ _ _ hru) hbridge

variable [DecidableEq α]

theorem Inner.insert
    (h : Inner arc S r)
    {u v : α}
    {w : Nat}
    (harc : arc u v w)
    (hu : u ∈ S) :
    Inner arc (insert v S) r := by
  have hmono :
      ∀ x ∈ S,
        Relation.EqvGen
          (fun a b =>
            a ∈ Insert.insert v S ∧ b ∈ Insert.insert v S ∧
              ∃ w, arc a b w) r x := by
    intro x hx
    refine Relation.EqvGen.mono ?_ _ _ (h x hx)
    rintro a b ⟨ha, hb, harc⟩
    exact
      ⟨Finset.mem_insert_of_mem ha, Finset.mem_insert_of_mem hb,
        harc⟩
  intro x hx
  rcases Finset.mem_insert.mp hx with rfl | hx
  · refine (hmono u hu).trans _ _ _ (.rel _ _ ?_)
    exact
      ⟨Finset.mem_insert_of_mem hu, Finset.mem_insert_self _ _, w,
        harc⟩
  · exact hmono x hx

/-- A growth from `r` takes outward arcs. -/
theorem Growth.outward
    {steps : List (α × Nat)}
    (h : Growth arc S steps)
    (hinner : Inner arc S r) :
    Growth (outwardArcs arc r) S steps := by
  induction h with
  | done S => exact .done S
  | attach harc hu hv _ ih =>
      exact
        .attach (Or.inl ⟨harc, Or.inr (hinner.detour hu hv)⟩) hu hv
          (ih (hinner.insert harc hu))

theorem Greedy.outward
    {steps : List (α × Nat)}
    (h : Greedy arc S steps)
    (hbalanced : Balanced arc)
    (hinner : Inner arc S r) :
    Greedy (outwardArcs arc r) S steps := by
  induction h with
  | done S => exact .done S
  | attach harc hu hv hleast _ ih =>
      refine
        .attach (Or.inl ⟨harc, Or.inr (hinner.detour hu hv)⟩) hu hv ?_
          (ih (hinner.insert harc hu))
      intro u' hu' v' hv' w' harc'
      exact
        hleast u' hu' v' hv' w'
          (hbalanced.arc_of_outward hinner harc' hu' hv')

/-- **Among balanced weights a greedy growth takes the fewest heavy arcs.** -/
theorem Greedy.heavy_le
    {steps steps' : List (α × Nat)}
    (hbalanced : Balanced arc)
    (h : Greedy arc {r} steps)
    (h' : Growth arc {r} steps')
    (hreached : reached {r} steps = reached {r} steps')
    (t : Nat) :
    heavy t (weights steps) ≤ heavy t (weights steps') := by
  have hinner : Inner arc {r} r := by
    intro x hx
    rw [Finset.mem_singleton.mp hx]
    exact .refl r
  exact
    (h.outward hbalanced hinner).heavy_le_of_symm
      (fun u v w => Or.symm) (h'.outward hinner) hreached t

end Balanced

section Products

variable {ws ws' : List Nat}

/-- A list with a largest element in front. -/
theorem exists_perm_max
    (hne : ws ≠ []) :
    ∃ m rest, ws.Perm (m :: rest) ∧ ∀ w ∈ ws, w ≤ m := by
  obtain ⟨w, hw⟩ := List.exists_mem_of_ne_nil ws hne
  obtain ⟨m, hm, hmax⟩ :=
    ws.toFinset.exists_max_image id ⟨w, List.mem_toFinset.mpr hw⟩
  refine ⟨m, ws.erase m, ?_, ?_⟩
  · exact List.perm_cons_erase (List.mem_toFinset.mp hm)
  · intro x hx
    exact hmax x (List.mem_toFinset.mpr hx)

theorem heavy_perm
    (h : ws.Perm ws')
    (t : Nat) :
    heavy t ws = heavy t ws' :=
  h.countP_eq _

theorem heavy_eq_zero
    {t : Nat}
    (h : ∀ w ∈ ws, w ≤ t) :
    heavy t ws = 0 := by
  apply List.countP_eq_zero.mpr
  intro w hw
  simpa using h w hw

/-- Fewer heavy weights make a smaller product. -/
theorem prod_le_of_heavy
    (hlength : ws.length = ws'.length)
    (hheavy : ∀ t, heavy t ws ≤ heavy t ws') :
    ws.prod ≤ ws'.prod := by
  induction hn : ws.length generalizing ws ws' with
  | zero =>
      rw [List.length_eq_zero_iff.mp hn,
        List.length_eq_zero_iff.mp (hlength.symm.trans hn)]
  | succ n ih =>
      obtain ⟨m, rest, hperm, hmax⟩ :=
        exists_perm_max (List.ne_nil_of_length_eq_add_one hn)
      obtain ⟨m', rest', hperm', hmax'⟩ :=
        exists_perm_max
          (List.ne_nil_of_length_eq_add_one (hlength.symm.trans hn))
      -- both lists lose their largest weight
      have hm : m ≤ m' := by
        by_contra hlt
        rw [not_le] at hlt
        have hnone := heavy_eq_zero hmax'
        have hsome := hheavy m'
        rw [heavy_perm hperm, heavy_cons, if_pos hlt, hnone] at hsome
        omega
      have hrest : ∀ t, heavy t rest ≤ heavy t rest' := by
        intro t
        have hle := hheavy t
        rw [heavy_perm hperm, heavy_perm hperm', heavy_cons,
          heavy_cons] at hle
        by_cases ht : t < m
        · rw [if_pos ht, if_pos (ht.trans_le hm)] at hle
          omega
        · have hnone : heavy t rest = 0 := by
            apply heavy_eq_zero
            intro w hw
            exact
              (hmax w
                (hperm.mem_iff.mpr (List.mem_cons_of_mem m hw))).trans
                (not_lt.mp ht)
          rw [hnone]
          exact Nat.zero_le _
      have hlen := hperm.length_eq
      have hlen' := hperm'.length_eq
      rw [List.length_cons] at hlen hlen'
      rw [hperm.prod_eq, hperm'.prod_eq, List.prod_cons,
        List.prod_cons]
      exact Nat.mul_le_mul hm (ih (by omega) hrest (by omega))

theorem weights_append
    {α : Type u}
    (steps steps' : List (α × Nat)) :
    weights (steps ++ steps') = weights steps ++ weights steps' :=
  List.map_append

/-- Weights that the attached vertices bound multiply to less. -/
theorem prod_weights_le
    {α : Type u}
    {steps : List (α × Nat)}
    {f : α → Nat}
    (h : ∀ p ∈ steps, p.2 ≤ f p.1) :
    (weights steps).prod ≤ ((steps.map Prod.fst).map f).prod := by
  rw [weights, List.map_map]
  exact List.prod_le_prod' h

end Products

section Comparison

variable {α : Type u} [DecidableEq α] {arc arc' : Arcs α}

/-- A growth attaches what it ends with and did not start with. -/
theorem Growth.mem_attached_iff
    {S : Finset α}
    {steps : List (α × Nat)}
    (h : Growth arc S steps)
    (v : α) :
    v ∈ steps.map Prod.fst ↔ v ∈ reached S steps ∧ v ∉ S := by
  constructor
  · intro hv
    obtain ⟨p, hp, rfl⟩ := List.mem_map.mp hv
    refine ⟨?_, (h.of_mem hp).1⟩
    exact Finset.mem_union_right _ (List.mem_toFinset.mpr hv)
  · rintro ⟨hreached, hnot⟩
    rcases Finset.mem_union.mp hreached with hv | hv
    · exact absurd hv hnot
    · exact List.mem_toFinset.mp hv

/-- Growths between the same sets take equally many steps. -/
theorem Growth.length_eq
    {S : Finset α}
    {steps steps' : List (α × Nat)}
    (h : Growth arc S steps)
    (h' : Growth arc' S steps')
    (hreached : reached S steps = reached S steps') :
    steps.length = steps'.length := by
  have hcard := h.card_reached
  rw [hreached, h'.card_reached] at hcard
  omega

/-- **Among balanced weights a greedy growth is the lightest.** -/
theorem Greedy.prod_le
    {r : α}
    {steps steps' : List (α × Nat)}
    (hbalanced : Balanced arc)
    (h : Greedy arc {r} steps)
    (h' : Growth arc {r} steps')
    (hreached : reached {r} steps = reached {r} steps') :
    (weights steps).prod ≤ (weights steps').prod := by
  apply prod_le_of_heavy
  · rw [weights, weights, List.length_map, List.length_map]
    exact h.growth.length_eq h' hreached
  · exact h.heavy_le hbalanced h' hreached

/-- The same vertices can be attached along lighter arcs. -/
theorem Growth.lighten
    {S : Finset α}
    {steps : List (α × Nat)}
    (hlighter :
      ∀ u v w, arc u v w → ∃ w' ≤ w, arc' u v w')
    (h : Growth arc S steps) :
    ∃ steps',
      Growth arc' S steps' ∧
      reached S steps' = reached S steps ∧
      List.Forall₂ (· ≤ ·) (weights steps') (weights steps) := by
  induction h with
  | done S =>
      exact ⟨[], .done S, rfl, .nil⟩
  | @attach S u v w rest harc hu hv _ ih =>
      obtain ⟨w', hle, harc'⟩ := hlighter u v w harc
      obtain ⟨rest', hgrowth, hreached, hweights⟩ := ih
      refine ⟨(v, w') :: rest', .attach harc' hu hv hgrowth, ?_, ?_⟩
      · rw [reached_cons, reached_cons, hreached]
      · exact .cons hle hweights

end Comparison

end SpanningGrowth
end Samkhya
