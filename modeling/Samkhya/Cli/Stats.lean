import Mathlib
import Samkhya.Core.Feedback
import Samkhya.Foundations.GroupFold

/-!
# The per-template summary of the CLI

`samkhya stats` reads the observations in the order of their template and
folds them into one line a template: the number of rows, the average and the
largest q-error.  The sum takes finite q-errors only, the average divides it
by all rows, so a template with both kinds of rows gets a wrong average.
-/

namespace Samkhya

open GroupFold

/-- The q-error as an exact number; `⊤` when either side is zero. -/
def Observation.qError {ρ : Type} (obs : Observation ρ) : WithTop ℚ :=
  if obs.estRows = 0 ∨ obs.actualRows = 0 then
    ⊤
  else
    let r : ℚ := obs.actualRows.toNat / obs.estRows.toNat
    if 1 ≤ r then ((r : ℚ) : WithTop ℚ) else ((1 / r : ℚ) : WithTop ℚ)

theorem Observation.qError_eq_top_iff
    {ρ : Type}
    (obs : Observation ρ) :
    obs.qError = ⊤ ↔ obs.estRows = 0 ∨ obs.actualRows = 0 := by
  unfold Observation.qError
  split
  · simp [*]
  · dsimp only
    split <;> simp_all

/-- A q-error is never below one. -/
theorem Observation.one_le_qError
    {ρ : Type}
    (obs : Observation ρ) :
    1 ≤ obs.qError := by
  unfold Observation.qError
  split
  · exact le_top
  case isFalse hzero =>
    push Not at hzero
    have hest : (0 : ℚ) < obs.estRows.toNat := by
      have h := UInt64.toNat_inj.not.mpr hzero.1
      exact_mod_cast Nat.pos_of_ne_zero h
    have hactual : (0 : ℚ) < obs.actualRows.toNat := by
      have h := UInt64.toNat_inj.not.mpr hzero.2
      exact_mod_cast Nat.pos_of_ne_zero h
    dsimp only
    split
    case isTrue hle =>
      exact_mod_cast hle
    case isFalse hle =>
      have hr : (0 : ℚ) < obs.actualRows.toNat / obs.estRows.toNat :=
        div_pos hactual hest
      have h := one_le_one_div hr (not_le.mp hle).le
      exact_mod_cast h

namespace Stats

/-- A row of the query that is ordered by `template_hash`. -/
structure Row where
  templateHash : String
  estRows : UInt64
  actualRows : UInt64

/-- The observation that the loop asks for its q-error. -/
def Row.observation (row : Row) : Observation Unit where
  templateHash := row.templateHash
  planFingerprint := ""
  estRows := row.estRows
  actualRows := row.actualRows
  latencyMs := none

def Row.qError (row : Row) : WithTop ℚ :=
  row.observation.qError

/-- A line of the summary. -/
structure TemplateRow where
  templateHash : String
  n : Nat
  avgQ : ℚ
  maxQ : WithTop ℚ
deriving DecidableEq

/-- The variables of the loop in `run`. -/
structure Fold where
  acc : List TemplateRow
  curHash : Option String
  curN : Nat
  curSum : ℚ
  curMax : WithTop ℚ

namespace Fold

def start : Fold where
  acc := []
  curHash := none
  curN := 0
  curSum := 0
  curMax := 0

/-- The line of the current template. -/
def flush (f : Fold) (h : String) : TemplateRow where
  templateHash := h
  n := f.curN
  avgQ := if 0 < f.curN then f.curSum / f.curN else 0
  maxQ := f.curMax

/-- A further row of the current template. -/
def extend (f : Fold) (q : WithTop ℚ) : Fold :=
  if q ≠ ⊤ then
    { f with
      curN := f.curN + 1
      curSum := f.curSum + q.untopD 0
      curMax := if f.curMax < q then q else f.curMax }
  else
    { f with curN := f.curN + 1, curMax := ⊤ }

/-- The first row of a template. -/
def restart
    (acc : List TemplateRow)
    (h : String)
    (q : WithTop ℚ) : Fold where
  acc := acc
  curHash := some h
  curN := 1
  curSum := if q ≠ ⊤ then q.untopD 0 else 0
  curMax := q

/-- The body of the loop. -/
def step (f : Fold) (row : Row) : Fold :=
  match f.curHash with
  | some h =>
      if h = row.templateHash then
        f.extend row.qError
      else
        restart (f.acc ++ [f.flush h]) row.templateHash row.qError
  | none => restart f.acc row.templateHash row.qError

/-- The lines after the loop. -/
def finish (f : Fold) : List TemplateRow :=
  match f.curHash with
  | some h => f.acc ++ [f.flush h]
  | none => f.acc

end Fold

/-- The lines that `run` prints for the rows of its query. -/
def summarize (rows : List Row) : List TemplateRow :=
  (rows.foldl Fold.step .start).finish

section Grouping

/-- The counters of one template. -/
structure Tally where
  n : Nat
  sum : ℚ
  max : WithTop ℚ

def Tally.first (row : Row) : Tally where
  n := 1
  sum := row.qError.untopD 0
  max := row.qError

def Tally.next (t : Tally) (row : Row) : Tally where
  n := t.n + 1
  sum := t.sum + row.qError.untopD 0
  max := t.max ⊔ row.qError

/-- The line that is printed of a template's counters. -/
def Tally.line (h : String) (t : Tally) : TemplateRow where
  templateHash := h
  n := t.n
  avgQ := if 0 < t.n then t.sum / t.n else 0
  maxQ := t.max

/-- The loop's variables hold these groups. -/
structure Holds (f : Fold) (g : Grouping String Tally) : Prop where
  acc : f.acc = g.done.map fun line => line.2.line line.1
  curHash : f.curHash = g.current.map Prod.fst
  counters :
    ∀ line, g.current = some line →
      (⟨f.curN, f.curSum, f.curMax⟩ : Tally) = line.2

theorem Holds.flush
    {f : Fold}
    {g : Grouping String Tally}
    (h : Holds f g)
    {template : String}
    {t : Tally}
    (hcurrent : g.current = some (template, t)) :
    f.flush template = t.line template := by
  have ht := h.counters _ hcurrent
  dsimp only at ht
  rw [← ht]
  rfl

theorem holds_restart
    {acc : List TemplateRow}
    {done : List (String × Tally)}
    (hacc : acc = done.map fun line => line.2.line line.1)
    (row : Row) :
    Holds (Fold.restart acc row.templateHash row.qError)
      ⟨done, some (row.templateHash, Tally.first row)⟩ where
  acc := hacc
  curHash := rfl
  counters line hline := by
    rw [← Option.some.inj hline]
    by_cases htop : row.qError = ⊤
    · simp [Fold.restart, Tally.first, htop]
    · simp [Fold.restart, Tally.first, htop]

theorem Holds.extend
    {f : Fold}
    {g : Grouping String Tally}
    (h : Holds f g)
    {t : Tally}
    (row : Row)
    (hcurrent : g.current = some (row.templateHash, t)) :
    Holds (f.extend row.qError)
      ⟨g.done, some (row.templateHash, t.next row)⟩ := by
  have hhash := h.curHash
  have hcounters := h.counters _ hcurrent
  rw [hcurrent] at hhash
  subst hcounters
  by_cases htop : row.qError = ⊤
  · refine ⟨?_, ?_, ?_⟩
    · simpa [Fold.extend, htop] using h.acc
    · simpa [Fold.extend, htop] using hhash
    · simp [Fold.extend, Tally.next, htop]
  · refine ⟨?_, ?_, ?_⟩
    · simpa [Fold.extend, htop] using h.acc
    · simpa [Fold.extend, htop] using hhash
    · simp only [Fold.extend, Tally.next, ne_eq, htop, not_false_eq_true,
        if_true, Option.some.injEq, forall_eq', Tally.mk.injEq, true_and]
      split
      case isTrue hlt => exact (sup_eq_right.mpr hlt.le).symm
      case isFalse hle => exact (sup_eq_left.mpr (not_lt.mp hle)).symm

/-- The loop body is a step of the grouping. -/
theorem Holds.step
    {f : Fold}
    {g : Grouping String Tally}
    (h : Holds f g)
    (row : Row) :
    Holds (f.step row)
      (g.step Row.templateHash Tally.first Tally.next row) := by
  have hhash := h.curHash
  unfold Fold.step Grouping.step
  cases hcurrent : g.current with
  | none =>
      rw [hcurrent] at hhash
      simp only [hhash, Option.map_none]
      exact holds_restart h.acc row
  | some line =>
      obtain ⟨template, t⟩ := line
      rw [hcurrent] at hhash
      simp only [hhash, Option.map_some]
      by_cases heq : template = row.templateHash
      · subst heq
        simp only [if_true]
        exact h.extend row hcurrent
      · simp only [if_neg heq]
        refine holds_restart ?_ row
        rw [List.map_append, ← h.acc, h.flush hcurrent]
        rfl

theorem holds_run
    (rows : List Row) :
    Holds (rows.foldl Fold.step .start)
      (rows.foldl
        (Grouping.step Row.templateHash Tally.first Tally.next)
        .empty) := by
  induction rows using List.reverseRecOn with
  | nil =>
      exact ⟨rfl, rfl, fun _ hline => nomatch hline⟩
  | append_singleton rows row ih =>
      rw [List.foldl_append, List.foldl_append]
      exact ih.step row

theorem Holds.finish
    {f : Fold}
    {g : Grouping String Tally}
    (h : Holds f g) :
    f.finish = g.lines.map fun line => line.2.line line.1 := by
  have hhash := h.curHash
  unfold Fold.finish Grouping.lines
  cases hcurrent : g.current with
  | none =>
      rw [hcurrent] at hhash
      simp [hhash, h.acc]
  | some line =>
      rw [hcurrent] at hhash
      simp [hhash, h.acc, h.flush hcurrent]

end Grouping

section Summary

/-- The rows of one template. -/
def group (rows : List Row) (h : String) : List Row :=
  rows.filter fun row => row.templateHash = h

/-- The finite q-errors of some rows. -/
def finiteErrors (rows : List Row) : List ℚ :=
  (rows.filter fun row => row.qError ≠ ⊤).map fun row =>
    row.qError.untopD 0

/-- What the line of a template should say of its rows. -/
structure CorrectLine (rows : List Row) (line : TemplateRow) : Prop where
  n : line.n = rows.length
  avgQ : line.avgQ = (finiteErrors rows).sum / (finiteErrors rows).length
  one_le_avgQ : finiteErrors rows ≠ [] → 1 ≤ line.avgQ
  maxQ : IsGreatest {q | ∃ row ∈ rows, row.qError = q} line.maxQ

/-- One correct line for each template, in order. -/
structure CorrectSummary
    (rows : List Row)
    (lines : List TemplateRow) : Prop where
  increasing :
    lines.Pairwise fun a b => a.templateHash < b.templateHash
  templates :
    ∀ h, h ∈ lines.map TemplateRow.templateHash ↔
      ∃ row ∈ rows, row.templateHash = h
  correct :
    ∀ line ∈ lines, CorrectLine (group rows line.templateHash) line
  total : (lines.map TemplateRow.n).sum = rows.length

/-- No template has both a row with a zero side and one without. -/
def Unmixed (rows : List Row) : Prop :=
  ∀ a ∈ rows, ∀ b ∈ rows, a.templateHash = b.templateHash →
    (a.estRows = 0 ∨ a.actualRows = 0 ↔
      b.estRows = 0 ∨ b.actualRows = 0)

theorem Row.qError_eq_top_iff
    (row : Row) :
    row.qError = ⊤ ↔ row.estRows = 0 ∨ row.actualRows = 0 :=
  row.observation.qError_eq_top_iff

theorem one_le_of_mem_finiteErrors
    {rows : List Row}
    {q : ℚ}
    (h : q ∈ finiteErrors rows) :
    1 ≤ q := by
  obtain ⟨row, hrow, rfl⟩ := List.mem_map.mp h
  have hfinite : row.qError ≠ ⊤ := by
    simpa using (List.mem_filter.mp hrow).2
  have hone : 1 ≤ row.qError := row.observation.one_le_qError
  obtain ⟨q, hq⟩ := WithTop.ne_top_iff_exists.mp hfinite
  rw [← hq] at hone ⊢
  exact_mod_cast hone

/-- What the counters of a group hold. -/
structure Counts (rows : List Row) (t : Tally) : Prop where
  n : t.n = rows.length
  sum : t.sum = (finiteErrors rows).sum
  max : IsGreatest {q | ∃ row ∈ rows, row.qError = q} t.max

theorem sum_finiteErrors_append_singleton
    (rows : List Row)
    (row : Row) :
    (finiteErrors (rows ++ [row])).sum =
      (finiteErrors rows).sum + row.qError.untopD 0 := by
  by_cases htop : row.qError = ⊤
  · simp [finiteErrors, htop]
  · simp [finiteErrors, htop]

theorem counts_first
    (row : Row) :
    Counts [row] (Tally.first row) where
  n := rfl
  sum := by
    have h := sum_finiteErrors_append_singleton [] row
    rw [List.nil_append] at h
    rw [h]
    simp [finiteErrors, Tally.first]
  max := by simp [Tally.first, IsGreatest, upperBounds]

theorem Counts.next
    {rows : List Row}
    {t : Tally}
    (h : Counts rows t)
    (row : Row) :
    Counts (rows ++ [row]) (t.next row) where
  n := by simp [Tally.next, h.n]
  sum := by
    rw [sum_finiteErrors_append_singleton, ← h.sum]
    rfl
  max := by
    have hmax := h.max.union (isGreatest_singleton (a := row.qError))
    have heq :
        {q | ∃ b ∈ rows ++ [row], b.qError = q} =
          {q | ∃ b ∈ rows, b.qError = q} ∪ {row.qError} := by
      ext q
      simp [or_and_right, exists_or, or_comm, eq_comm]
    rw [heq]
    exact hmax

/-- The counters of a group, whatever its rows. -/
theorem counts_of_foldGroup
    {rows : List Row}
    {t : Tally}
    (h : foldGroup Tally.first Tally.next rows = some t) :
    Counts rows t :=
  foldGroup_induction counts_first (fun _ _ row ht => ht.next row) h

/-- The average of a group with rows of both kinds is too small. -/
theorem average_lt_mean
    {rows : List Row}
    (hfinite : ∃ row ∈ rows, row.qError ≠ ⊤)
    (htop : ∃ row ∈ rows, row.qError = ⊤) :
    (finiteErrors rows).sum / rows.length <
      (finiteErrors rows).sum / (finiteErrors rows).length := by
  have hlength : (finiteErrors rows).length < rows.length := by
    rw [finiteErrors, List.length_map,
      List.length_filter_lt_length_iff_exists]
    simpa using htop
  have hpos : 0 < (finiteErrors rows).length := by
    obtain ⟨row, hrow, hne⟩ := hfinite
    refine List.length_pos_of_mem (a := row.qError.untopD 0) ?_
    exact List.mem_map_of_mem (List.mem_filter.mpr ⟨hrow, by simpa⟩)
  have hsum : (0 : ℚ) < (finiteErrors rows).sum := by
    have hle := List.card_nsmul_le_sum (finiteErrors rows) 1
      fun _ hq => one_le_of_mem_finiteErrors hq
    have hcast : (0 : ℚ) < (finiteErrors rows).length :=
      Nat.cast_pos.mpr hpos
    simp only [nsmul_eq_mul, mul_one] at hle
    exact hcast.trans_le hle
  exact div_lt_div_of_pos_left hsum (Nat.cast_pos.mpr hpos)
    (Nat.cast_lt.mpr hlength)

theorem finiteErrors_of_top
    {rows : List Row}
    (h : ∀ row ∈ rows, row.qError = ⊤) :
    finiteErrors rows = [] := by
  rw [finiteErrors, List.map_eq_nil_iff, List.filter_eq_nil_iff]
  simpa using h

theorem length_finiteErrors_of_ne_top
    {rows : List Row}
    (h : ∀ row ∈ rows, row.qError ≠ ⊤) :
    (finiteErrors rows).length = rows.length := by
  rw [finiteErrors, List.length_map, List.filter_eq_self.mpr]
  simpa using h

/-- The mean of numbers from one on is from one on. -/
theorem one_le_mean
    {rows : List Row}
    (h : finiteErrors rows ≠ []) :
    1 ≤ (finiteErrors rows).sum / (finiteErrors rows).length := by
  have hpos : (0 : ℚ) < (finiteErrors rows).length :=
    Nat.cast_pos.mpr (List.length_pos_iff.mpr h)
  rw [one_le_div hpos]
  have hle := List.card_nsmul_le_sum (finiteErrors rows) 1
    fun _ hq => one_le_of_mem_finiteErrors hq
  simpa using hle

/-- A group's line is correct when its rows are all of one kind. -/
theorem Counts.correctLine_iff
    {rows : List Row}
    {t : Tally}
    (h : Counts rows t)
    (hrows : rows ≠ [])
    (template : String) :
    CorrectLine rows (t.line template) ↔
      (∀ row ∈ rows, row.qError ≠ ⊤) ∨ ∀ row ∈ rows, row.qError = ⊤ := by
  have hn : 0 < t.n := by
    rw [h.n]
    exact List.length_pos_iff.mpr hrows
  have havg :
      (t.line template).avgQ = (finiteErrors rows).sum / rows.length := by
    rw [← h.sum, ← h.n]
    exact if_pos hn
  constructor
  · intro hline
    by_contra hmixed
    push Not at hmixed
    obtain ⟨⟨a, ha, htop⟩, b, hb, hfinite⟩ := hmixed
    refine (average_lt_mean ⟨b, hb, hfinite⟩ ⟨a, ha, htop⟩).ne ?_
    rw [← havg, hline.avgQ]
  · intro hkind
    have hmean :
        (t.line template).avgQ =
          (finiteErrors rows).sum / (finiteErrors rows).length := by
      rw [havg]
      rcases hkind with hfinite | htop
      · rw [length_finiteErrors_of_ne_top hfinite]
      · simp [finiteErrors_of_top htop]
    exact
      { n := h.n
        avgQ := hmean
        one_le_avgQ := fun hne => hmean ▸ one_le_mean hne
        maxQ := h.max }

theorem mem_group_iff
    {rows : List Row}
    {template : String}
    {row : Row} :
    row ∈ group rows template ↔
      row ∈ rows ∧ row.templateHash = template := by
  simp [group]

/-- The groups behind the lines of a summary. -/
def groups (rows : List Row) : Grouping String Tally :=
  rows.foldl (Grouping.step Row.templateHash Tally.first Tally.next) .empty

theorem summarize_eq
    (rows : List Row) :
    summarize rows =
      (groups rows).lines.map fun line => line.2.line line.1 :=
  (holds_run rows).finish

theorem templates_summarize
    (rows : List Row) :
    (summarize rows).map TemplateRow.templateHash =
      (groups rows).lines.map Prod.fst := by
  rw [summarize_eq, List.map_map]
  rfl

/-- The counts of a summary are those of its rows. -/
theorem total_summarize
    (rows : List Row) :
    ((summarize rows).map TemplateRow.n).sum = rows.length := by
  rw [summarize_eq, List.map_map]
  exact sum_lines_run Tally.n (fun _ => rfl) (fun _ _ => rfl) rows

/-- The groups of sorted rows. -/
theorem tracks_groups
    {rows : List Row}
    (hsorted : rows.Pairwise fun a b => a.templateHash ≤ b.templateHash) :
    Tracks Row.templateHash Tally.first Tally.next rows (groups rows) :=
  tracks_run hsorted

/-- Each line is that of the counters of its template's rows. -/
theorem exists_counts
    {rows : List Row}
    (hsorted : rows.Pairwise fun a b => a.templateHash ≤ b.templateHash)
    {line : TemplateRow}
    (hline : line ∈ summarize rows) :
    group rows line.templateHash ≠ [] ∧
      ∃ t, Counts (group rows line.templateHash) t ∧
        line = t.line line.templateHash := by
  rw [summarize_eq] at hline
  obtain ⟨⟨template, t⟩, hmem, rfl⟩ := List.mem_map.mp hline
  have hfolded := (tracks_groups hsorted).folded _ hmem
  change foldGroup Tally.first Tally.next (group rows template) =
    some t at hfolded
  refine ⟨?_, t, counts_of_foldGroup hfolded, rfl⟩
  intro hnil
  change group rows template = [] at hnil
  rw [hnil] at hfolded
  cases hfolded

theorem unmixed_iff
    (rows : List Row) :
    Unmixed rows ↔
      ∀ template,
        (∀ row ∈ group rows template, row.qError ≠ ⊤) ∨
          ∀ row ∈ group rows template, row.qError = ⊤ := by
  constructor
  · intro h template
    by_contra hmixed
    push Not at hmixed
    obtain ⟨⟨a, hga, htop⟩, b, hgb, hfinite⟩ := hmixed
    obtain ⟨ha, htemplate⟩ := mem_group_iff.mp hga
    obtain ⟨hb, rfl⟩ := mem_group_iff.mp hgb
    refine hfinite (b.qError_eq_top_iff.mpr ?_)
    exact (h a ha b hb htemplate).mp (a.qError_eq_top_iff.mp htop)
  · intro h a ha b hb htemplate
    rw [← a.qError_eq_top_iff, ← b.qError_eq_top_iff]
    have hga := mem_group_iff.mpr ⟨ha, htemplate⟩
    have hgb := mem_group_iff.mpr ⟨hb, rfl⟩
    rcases h b.templateHash with hfinite | htop
    · exact iff_of_false (hfinite a hga) (hfinite b hgb)
    · exact iff_of_true (htop a hga) (htop b hgb)

/-- The summary is correct when no template mixes both kinds of rows. -/
theorem correctSummary_iff
    (rows : List Row)
    (hsorted : rows.Pairwise fun a b => a.templateHash ≤ b.templateHash) :
    CorrectSummary rows (summarize rows) ↔ Unmixed rows := by
  have htracks := tracks_groups hsorted
  have htemplates :
      ∀ h, h ∈ (summarize rows).map TemplateRow.templateHash ↔
        ∃ row ∈ rows, row.templateHash = h := by
    rw [templates_summarize]
    exact htracks.mem_iff
  rw [unmixed_iff]
  constructor
  · intro h template
    by_cases hempty : group rows template = []
    · left
      simp [hempty]
    · obtain ⟨row, hrow⟩ := List.exists_mem_of_ne_nil _ hempty
      obtain ⟨line, hline, rfl⟩ :=
        List.mem_map.mp ((htemplates template).mpr
          ⟨row, mem_group_iff.mp hrow⟩)
      obtain ⟨hne, t, ht, heq⟩ := exists_counts hsorted hline
      have hcorrect := h.correct line hline
      rw [heq] at hcorrect
      exact (ht.correctLine_iff hne _).mp hcorrect
  · intro h
    constructor
    · have hincreasing := htracks.increasing
      rw [← templates_summarize, List.pairwise_map] at hincreasing
      exact hincreasing
    · exact htemplates
    · intro line hline
      obtain ⟨hne, t, ht, heq⟩ := exists_counts hsorted hline
      rw [heq]
      exact (ht.correctLine_iff hne _).mpr (h line.templateHash)
    · exact total_summarize rows

/-- Two templates, the second with unbounded rows only. -/
theorem correctSummary_twoTemplates :
    CorrectSummary
      [⟨"a", 10, 100⟩, ⟨"a", 4, 2⟩, ⟨"b", 0, 7⟩]
      (summarize [⟨"a", 10, 100⟩, ⟨"a", 4, 2⟩, ⟨"b", 0, 7⟩]) :=
  (correctSummary_iff _ (by simp)).mpr (by simp [Unmixed])

/-- An exact estimate and an empty result, both of one template. -/
def mixedRows : List Row :=
  [⟨"t", 1, 1⟩, ⟨"t", 5, 0⟩]

/-- Their q-errors, one and unbounded, average to one half. -/
theorem mixedRows_not_correctSummary :
    mixedRows.Pairwise (fun a b => a.templateHash ≤ b.templateHash) ∧
      summarize mixedRows = [⟨"t", 2, 1 / 2, ⊤⟩] ∧
      ¬ CorrectSummary mixedRows (summarize mixedRows) := by
  have hlines : summarize mixedRows = [⟨"t", 2, 1 / 2, ⊤⟩] := by
    decide +kernel
  refine ⟨by simp [mixedRows], hlines, fun h => ?_⟩
  rw [hlines] at h
  have hline := h.correct _ (List.mem_singleton_self _)
  have hone := hline.one_le_avgQ (by decide +kernel)
  norm_num at hone

end Summary

end Stats

end Samkhya
