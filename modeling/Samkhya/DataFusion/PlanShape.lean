import Mathlib
import Samkhya.DataFusion.Plan

/-!
# Counting the operators of a plan

`countFilters` and `joinDepth` recurse over the tree.  Both are numbers of
operators: the filters among all nodes in pre-order, and the most joins on one
branch from the root to a leaf.  A branch splits the nodes of the plan into
those on it and those beside it.
-/

namespace Samkhya

open Saturating

namespace Plan

variable {ο χ : Type}

/-- All nodes, parents before children, children from left to right. -/
def nodes : Plan ο χ → List (Plan ο χ)
  | node op children =>
      node op children :: (children.map nodes).flatten
  | statsExec input stats => statsExec input stats :: input.nodes

/--
A branch from the root to a leaf: `on` are the nodes on it and `beside` the
nodes of the subtrees that it leaves to its left and right.
-/
inductive Branch :
    Plan ο χ → List (Plan ο χ) → List (Plan ο χ) → Prop
  | leaf
      (op : Operator ο) :
      Branch (.node op []) [.node op []] []
  | node
      (op : Operator ο)
      (before after : List (Plan ο χ))
      (child : Plan ο χ)
      {on beside : List (Plan ο χ)}
      (branch : Branch child on beside) :
      Branch (.node op (before ++ child :: after))
        (.node op (before ++ child :: after) :: on)
        ((before.map nodes).flatten ++ beside
          ++ (after.map nodes).flatten)
  | statsExec
      (input : Plan ο χ)
      (stats : Statistics χ)
      {on beside : List (Plan ο χ)}
      (branch : Branch input on beside) :
      Branch (.statsExec input stats)
        (.statsExec input stats :: on) beside

/-- A branch and its sides are the whole plan. -/
theorem Branch.countP_nodes
    {plan : Plan ο χ}
    {on beside : List (Plan ο χ)}
    (branch : Branch plan on beside)
    (p : Plan ο χ → Bool) :
    plan.nodes.countP p = on.countP p + beside.countP p := by
  induction branch with
  | leaf op =>
      simp [nodes]
  | node op before after child branch ih =>
      simp only [nodes, List.map_append, List.map_cons,
        List.flatten_append, List.flatten_cons, List.countP_cons,
        List.countP_append, ih]
      omega
  | statsExec input stats branch ih =>
      simp only [nodes, List.countP_cons, ih]
      omega

section Filters

/-- The filters of a list of plans, counted with saturation. -/
theorem foldl_countFilters
    (children : List (Plan ο χ))
    (a : UInt32)
    (hchildren :
      ∀ child ∈ children,
        child.countFilters.toNat =
          min (child.nodes.countP isFilter) u32Max) :
    ((children.map countFilters).foldl saturatingAddU32 a).toNat =
      min
        (a.toNat + (children.map nodes).flatten.countP isFilter)
        u32Max := by
  induction children generalizing a with
  | nil =>
      have ha : a.toNat ≤ u32Max := Nat.le_of_lt_succ a.toNat_lt
      simpa using ha
  | cons child children ih =>
      have hhead := hchildren child List.mem_cons_self
      have htail :=
        ih (saturatingAddU32 a child.countFilters)
          (fun c hc => hchildren c (List.mem_cons_of_mem _ hc))
      simp only [List.map_cons, List.foldl_cons, List.flatten_cons,
        List.countP_append, htail, toNat_saturatingAddU32, satAdd, hhead]
      omega

/-- The number of filters is the number of filters, cut off once. -/
theorem toNat_countFilters
    (plan : Plan ο χ) :
    plan.countFilters.toNat =
      min (plan.nodes.countP isFilter) u32Max := by
  induction plan with
  | node op children ih =>
      have hfold :=
        foldl_countFilters children
          (if op.kind == .filter then 1 else 0) ih
      simp only [countFilters, nodes, List.countP_cons, hfold]
      cases hfilter : (op.kind == OperatorKind.filter)
      · simp [isFilter, hfilter]
      · simp [isFilter, hfilter, Nat.add_comm]
  | statsExec input stats ih =>
      simp [countFilters, nodes, isFilter, toNat_saturatingAddU32,
        satAdd, ih]

end Filters

section Nesting

/-- The depth of the deepest child bounds the depth of each. -/
theorem joinDepth_le_max
    {children : List (Plan ο χ)}
    {child : Plan ο χ}
    (hchild : child ∈ children) :
    child.joinDepth.toNat ≤
      ((children.map joinDepth).max?.getD 0).toNat := by
  have hmem : child.joinDepth ∈ children.map joinDepth :=
    List.mem_map_of_mem hchild
  cases hmax : (children.map joinDepth).max? with
  | none =>
      have hnil := List.max?_eq_none_iff.mp hmax
      simp [hnil] at hmem
  | some depth =>
      have hle := (List.max?_le_iff hmax).mp (UInt32.le_refl depth)
      exact UInt32.le_iff_toNat_le.mp (hle _ hmem)

/-- Some child has the depth of the deepest one. -/
theorem exists_joinDepth_eq_max
    {children : List (Plan ο χ)}
    (hchildren : children ≠ []) :
    ∃ child ∈ children,
      child.joinDepth = (children.map joinDepth).max?.getD 0 := by
  cases hmax : (children.map joinDepth).max? with
  | none =>
      have hnil := List.max?_eq_none_iff.mp hmax
      simp [hchildren] at hnil
  | some depth =>
      have hmem := List.max?_mem hmax
      obtain ⟨child, hchild, hdepth⟩ := List.mem_map.mp hmem
      exact ⟨child, hchild, hdepth⟩

/-- One more level of the tree, in the number of joins on a branch. -/
theorem toNat_joinDepth_node
    (op : Operator ο)
    (children : List (Plan ο χ)) :
    (joinDepth (.node op children)).toNat =
      min
        (((children.map joinDepth).max?.getD 0).toNat +
          op.kind.isJoin.toNat)
        u32Max := by
  have hle := toNat_le_u32Max ((children.map joinDepth).max?.getD 0)
  cases hjoin : op.kind.isJoin
  · simp [joinDepth, hjoin, hle]
  · simp [joinDepth, hjoin, satAdd]

/-- No branch carries more joins than the depth says. -/
theorem Branch.min_countP_le_joinDepth
    {plan : Plan ο χ}
    {on beside : List (Plan ο χ)}
    (branch : Branch plan on beside) :
    min (on.countP isJoin) u32Max ≤ plan.joinDepth.toNat := by
  induction branch with
  | leaf op =>
      rw [toNat_joinDepth_node]
      cases hjoin : op.kind.isJoin <;> simp [isJoin, hjoin]
  | node op before after child branch ih =>
      have hmax :=
        joinDepth_le_max
          (List.mem_append_right before
            (List.mem_cons_self (a := child) (l := after)))
      rw [toNat_joinDepth_node]
      cases hjoin : op.kind.isJoin
      · simp only [List.countP_cons, isJoin, hjoin, Bool.toNat_false]
        simp only [Bool.false_eq_true, if_false]
        omega
      · simp only [List.countP_cons, isJoin, hjoin, Bool.toNat_true]
        simp only [if_true]
        omega
  | statsExec input stats branch ih =>
      simpa [joinDepth, isJoin] using ih

/-- Some branch carries as many joins as the depth says. -/
theorem exists_branch_joinDepth_eq
    (plan : Plan ο χ) :
    ∃ on beside,
      Branch plan on beside ∧
        plan.joinDepth.toNat = min (on.countP isJoin) u32Max := by
  induction plan with
  | node op children ih =>
      rw [toNat_joinDepth_node]
      rcases eq_or_ne children [] with rfl | hchildren
      · refine ⟨_, _, .leaf op, ?_⟩
        cases hjoin : op.kind.isJoin <;> simp [isJoin, hjoin]
      · obtain ⟨child, hchild, hdepth⟩ :=
          exists_joinDepth_eq_max hchildren
        obtain ⟨on, beside, branch, hon⟩ := ih child hchild
        obtain ⟨before, after, rfl⟩ := List.append_of_mem hchild
        refine ⟨_, _, .node op before after child branch, ?_⟩
        rw [← hdepth, hon]
        cases hjoin : op.kind.isJoin
        · simp [isJoin, hjoin]
        · simp only [List.countP_cons, isJoin, hjoin, Bool.toNat_true]
          simp only [if_true]
          omega
  | statsExec input stats ih =>
      obtain ⟨on, beside, branch, hon⟩ := ih
      refine ⟨_, _, .statsExec input stats branch, ?_⟩
      simpa [joinDepth, isJoin] using hon

/-- A branch with as many joins as any. -/
def Deepest
    (plan : Plan ο χ)
    (on beside : List (Plan ο χ)) : Prop :=
  Branch plan on beside ∧
    ∀ on' beside',
      Branch plan on' beside' → on'.countP isJoin ≤ on.countP isJoin

/-- Every plan has a deepest branch. -/
theorem exists_deepest
    (plan : Plan ο χ) :
    ∃ on beside, Deepest plan on beside := by
  let depths : Set Nat :=
    {n | ∃ on beside, Branch plan on beside ∧ on.countP isJoin = n}
  have hbounded : BddAbove depths := by
    refine ⟨plan.nodes.countP isJoin, ?_⟩
    rintro n ⟨on, beside, branch, rfl⟩
    have hsplit := branch.countP_nodes isJoin
    omega
  have hnonempty : depths.Nonempty := by
    obtain ⟨on, beside, branch, _⟩ := exists_branch_joinDepth_eq plan
    exact ⟨_, on, beside, branch, rfl⟩
  obtain ⟨on, beside, branch, hon⟩ := Nat.sSup_mem hnonempty hbounded
  refine ⟨on, beside, branch, fun on' beside' branch' => ?_⟩
  rw [hon]
  exact le_csSup hbounded ⟨on', beside', branch', rfl⟩

/-- The depth is the number of joins on a deepest branch, cut off once. -/
theorem Deepest.toNat_joinDepth
    {plan : Plan ο χ}
    {on beside : List (Plan ο χ)}
    (deepest : Deepest plan on beside) :
    plan.joinDepth.toNat = min (on.countP isJoin) u32Max := by
  have hle := deepest.1.min_countP_le_joinDepth
  obtain ⟨on', beside', branch', hon'⟩ := exists_branch_joinDepth_eq plan
  have hmax := deepest.2 on' beside' branch'
  omega

end Nesting

end Plan

end Samkhya
