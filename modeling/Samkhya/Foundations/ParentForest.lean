import Mathlib.Data.Finset.Card
import Mathlib.Data.Finset.Range
import Mathlib.Data.List.GetD
import Mathlib.Tactic

/-!
# Forests as parent arrays

A disjoint-set structure kept as one parent index per node, a root being its
own parent.  `Ranked` is the invariant that makes every upward walk end: a rank
that strictly increases along parent links and is bounded, together with the
number of roots, by the number of nodes.  Path halving keeps the rank, and
linking one root under another trades one root for one more rank level, so the
bound survives both.

`Root` is the root that a walk from a node ends at.  Path halving does not
change it; a link redirects the nodes of one root to another.
-/

namespace Samkhya
namespace ParentForest

/-- Parent of a node; a node outside the array is its own parent. -/
def parentOf (parent : List Nat) (x : Nat) : Nat :=
  parent.getD x x

/-- Roots among the first `n` nodes. -/
def roots (n : Nat) (parent : List Nat) : Finset Nat :=
  (Finset.range n).filter (fun x => parentOf parent x = x)

theorem mem_roots
    {n : Nat}
    {parent : List Nat}
    {x : Nat} :
    x ∈ roots n parent ↔ x < n ∧ parentOf parent x = x := by
  simp [roots]

/-- Parents stay in range and strictly gain rank. -/
structure Ranked
    (n : Nat)
    (parent : List Nat)
    (rank : Nat → Nat) : Prop where
  length_eq : parent.length = n
  parent_lt : ∀ x < n, parentOf parent x < n
  rank_lt :
    ∀ x < n,
      parentOf parent x ≠ x → rank x < rank (parentOf parent x)
  rank_bound : ∀ x < n, rank x + (roots n parent).card ≤ n

/-- A parent array without cycles. -/
def IsForest (n : Nat) (parent : List Nat) : Prop :=
  ∃ rank, Ranked n parent rank

/-- The walk up from a node ends at a root. -/
inductive Root (parent : List Nat) : Nat → Nat → Prop
  | self {r : Nat}
      (hself : parentOf parent r = r) :
      Root parent r r
  | up {x r : Nat}
      (hne : parentOf parent x ≠ x)
      (hroot : Root parent (parentOf parent x) r) :
      Root parent x r

/-- The roots of all nodes. -/
def Represents
    (n : Nat)
    (parent : List Nat)
    (rep : Nat → Nat) : Prop :=
  ∀ x < n, Root parent x (rep x)

theorem getElem?_eq_parentOf
    {parent : List Nat}
    {x : Nat}
    (hx : x < parent.length) :
    parent[x]? = some (parentOf parent x) := by
  unfold parentOf
  rw [List.getD_eq_getElem _ _ hx]
  exact List.getElem?_eq_getElem hx

/-- Overwriting one entry changes the parent of that node only. -/
theorem parentOf_set
    {parent : List Nat}
    {x : Nat}
    (hx : x < parent.length)
    (p y : Nat) :
    parentOf (parent.set x p) y =
      if y = x then p else parentOf parent y := by
  unfold parentOf
  simp only [List.getD_eq_getElem?_getD, List.getElem?_set]
  by_cases hxy : x = y
  · subst hxy
    simp [hx]
  · simp [hxy, Ne.symm hxy]

theorem parentOf_range
    (n x : Nat) :
    parentOf (List.range n) x = x := by
  unfold parentOf
  by_cases hx : x < n
  · rw [List.getD_eq_getElem _ _ (by simpa using hx)]
    exact List.getElem_range _
  · exact List.getD_eq_default _ _ (by simpa using hx)

/-- Before any link every node is a root. -/
theorem ranked_range
    (n : Nat) :
    Ranked n (List.range n) (fun _ => 0) := by
  refine ⟨List.length_range, ?_, ?_, ?_⟩
  · intro x hx
    rw [parentOf_range]
    exact hx
  · intro x _ hne
    exact absurd (parentOf_range n x) hne
  · intro x _
    rw [Nat.zero_add]
    exact
      (Finset.card_filter_le _ _).trans
        (Finset.card_range n).le

namespace Ranked

variable {n : Nat} {parent : List Nat} {rank : Nat → Nat}

theorem lt_length
    (h : Ranked n parent rank)
    {x : Nat}
    (hx : x < n) :
    x < parent.length := by
  rw [h.length_eq]
  exact hx

/-- The grandparent of a non-root ranks above the node. -/
theorem rank_lt_grandparent
    (h : Ranked n parent rank)
    {x : Nat}
    (hx : x < n)
    (hroot : parentOf parent x ≠ x) :
    rank x < rank (parentOf parent (parentOf parent x)) := by
  have hparent := h.rank_lt x hx hroot
  by_cases hp :
      parentOf parent (parentOf parent x) = parentOf parent x
  · rw [hp]
    exact hparent
  · exact
      hparent.trans
        (h.rank_lt _ (h.parent_lt x hx) hp)

/-- Path halving at a non-root makes and unmakes no root. -/
theorem roots_halve
    (h : Ranked n parent rank)
    {x : Nat}
    (hx : x < n)
    (hroot : parentOf parent x ≠ x) :
    roots n
        (parent.set x (parentOf parent (parentOf parent x))) =
      roots n parent := by
  have hgrand := h.rank_lt_grandparent hx hroot
  apply Finset.filter_congr
  intro y _
  rw [parentOf_set (h.lt_length hx)]
  by_cases hyx : y = x
  · subst hyx
    have hne : parentOf parent (parentOf parent y) ≠ y := by
      intro heq
      rw [heq] at hgrand
      exact lt_irrefl _ hgrand
    simp [hne, hroot]
  · simp [hyx]

/-- Path halving at a non-root keeps the rank. -/
theorem halve
    (h : Ranked n parent rank)
    {x : Nat}
    (hx : x < n)
    (hroot : parentOf parent x ≠ x) :
    Ranked n
      (parent.set x (parentOf parent (parentOf parent x)))
      rank := by
  have hlen := h.lt_length hx
  have hgrand := h.rank_lt_grandparent hx hroot
  refine ⟨?_, ?_, ?_, ?_⟩
  · rw [List.length_set]
    exact h.length_eq
  · intro y hy
    rw [parentOf_set hlen]
    split_ifs with hyx
    · exact h.parent_lt _ (h.parent_lt x hx)
    · exact h.parent_lt y hy
  · intro y hy hne
    rw [parentOf_set hlen] at hne ⊢
    split_ifs at hne ⊢ with hyx
    · subst hyx
      exact hgrand
    · exact h.rank_lt y hy hne
  · intro y hy
    rw [h.roots_halve hx hroot]
    exact h.rank_bound y hy

/-- Linking a root under another root keeps a ranked forest. -/
theorem link
    (h : Ranked n parent rank)
    {a b : Nat}
    (hroota : a ∈ roots n parent)
    (hrootb : b ∈ roots n parent)
    (hab : a ≠ b) :
    IsForest n (parent.set a b) := by
  obtain ⟨ha, _⟩ := mem_roots.mp hroota
  obtain ⟨hb, hbself⟩ := mem_roots.mp hrootb
  have hlen := h.lt_length ha
  have hroots :
      roots n (parent.set a b) = (roots n parent).erase a := by
    ext y
    simp only [roots, Finset.mem_filter, Finset.mem_range,
      Finset.mem_erase, parentOf_set hlen]
    by_cases hya : y = a
    · subst hya
      simp [Ne.symm hab]
    · simp [hya]
  have hcard :
      (roots n (parent.set a b)).card + 1 =
        (roots n parent).card := by
    rw [hroots]
    exact Finset.card_erase_add_one hroota
  -- only the new parent has to climb, by at most one level
  refine
    ⟨fun y => if y = b then max (rank b) (rank a + 1) else rank y,
      ?_, ?_, ?_, ?_⟩
  · rw [List.length_set]
    exact h.length_eq
  · intro y hy
    rw [parentOf_set hlen]
    split_ifs with hya
    · exact hb
    · exact h.parent_lt y hy
  · intro y hy hne
    rw [parentOf_set hlen] at hne ⊢
    by_cases hya : y = a
    · subst hya
      simp only [if_true, if_neg hab]
      omega
    · rw [if_neg hya] at hne ⊢
      have hyb : y ≠ b := by
        rintro rfl
        exact hne hbself
      have hrank := h.rank_lt y hy hne
      rw [if_neg hyb]
      split_ifs with hpb
      · rw [hpb] at hrank
        omega
      · exact hrank
  · intro y hy
    have hy' := h.rank_bound y hy
    have ha' := h.rank_bound a ha
    have hb' := h.rank_bound b hb
    split_ifs <;> omega

end Ranked

section Roots

variable {n : Nat} {parent : List Nat} {rank rep : Nat → Nat}

theorem represents_range
    (n : Nat) :
    Represents n (List.range n) id :=
  fun x _ => .self (parentOf_range n x)

theorem Root.unique
    {x r r' : Nat}
    (h : Root parent x r)
    (h' : Root parent x r') :
    r = r' := by
  induction h with
  | self hself =>
      cases h' with
      | self _ => rfl
      | up hne _ => exact absurd hself hne
  | up hne _ ih =>
      cases h' with
      | self hself => exact absurd hself hne
      | up _ hroot => exact ih hroot

/-- A node and its parent have one root. -/
theorem Represents.parent_eq
    (h : Represents n parent rep)
    {x : Nat}
    (hx : x < n)
    (hp : parentOf parent x < n) :
    rep (parentOf parent x) = rep x := by
  have hroot := h x hx
  have hparent := h _ hp
  generalize rep x = r at hroot ⊢
  generalize rep (parentOf parent x) = r' at hparent ⊢
  cases hroot with
  | self hself =>
      rw [hself] at hparent
      exact hparent.unique (.self hself)
  | up _ hup =>
      exact hparent.unique hup

/-- Path halving ends at the same root. -/
theorem Root.halve
    {y r : Nat}
    (h : Root parent y r)
    (hranked : Ranked n parent rank)
    {x : Nat}
    (hx : x < n)
    (hne : parentOf parent x ≠ x) :
    Root (parent.set x (parentOf parent (parentOf parent x))) y r := by
  have hgrand := hranked.rank_lt_grandparent hx hne
  have hlen := hranked.lt_length hx
  induction h with
  | @self r hself =>
      apply Root.self
      rw [parentOf_set hlen, if_neg]
      · exact hself
      · rintro rfl
        exact hne hself
  | @up y r hup hroot ih =>
      by_cases hyx : y = x
      · subst hyx
        have hparent :
            parentOf
                (parent.set y (parentOf parent (parentOf parent y)))
                y =
              parentOf parent (parentOf parent y) := by
          rw [parentOf_set hlen, if_pos rfl]
        have hskip :
            parentOf
                (parent.set y (parentOf parent (parentOf parent y)))
                (parentOf parent y) =
              parentOf parent (parentOf parent y) := by
          rw [parentOf_set hlen, if_neg hup]
        apply Root.up
        · rw [hparent]
          intro heq
          rw [heq] at hgrand
          exact lt_irrefl _ hgrand
        · rw [hparent]
          -- the walk from the parent already goes this way
          cases ih with
          | self hfixed =>
              rw [hskip] at hfixed
              rw [hfixed] at hskip ⊢
              exact .self hskip
          | up _ hrest =>
              rw [hskip] at hrest
              exact hrest
      · apply Root.up
        · rw [parentOf_set hlen, if_neg hyx]
          exact hup
        · rw [parentOf_set hlen, if_neg hyx]
          exact ih

/-- A link redirects the nodes below the linked root. -/
theorem Root.link
    {y r : Nat}
    (h : Root parent y r)
    {a b : Nat}
    (hlen : a < parent.length)
    (ha : parentOf parent a = a)
    (hb : parentOf parent b = b)
    (hab : a ≠ b) :
    Root (parent.set a b) y (if r = a then b else r) := by
  have hparenta : parentOf (parent.set a b) a = b := by
    rw [parentOf_set hlen, if_pos rfl]
  have hparent :
      ∀ y ≠ a, parentOf (parent.set a b) y = parentOf parent y := by
    intro y hy
    rw [parentOf_set hlen, if_neg hy]
  have hrootb : Root (parent.set a b) b b := by
    apply Root.self
    rw [hparent b hab.symm, hb]
  induction h with
  | @self r hself =>
      split_ifs with hra
      · subst hra
        apply Root.up
        · rw [hparenta]
          exact hab.symm
        · rw [hparenta]
          exact hrootb
      · apply Root.self
        rw [hparent r hra]
        exact hself
  | @up y r hup hroot ih =>
      have hya : y ≠ a := by
        rintro rfl
        exact hup ha
      apply Root.up
      · rw [hparent y hya]
        exact hup
      · rw [hparent y hya]
        exact ih

end Roots

end ParentForest
end Samkhya
