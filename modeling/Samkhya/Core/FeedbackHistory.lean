import Mathlib
import Samkhya.Core.FeedbackOpen

/-!
# What a feedback store gives back

A store represents a list of entries when its rows hold, in order, what each
entry puts into the columns.  Recording appends an entry or, when the ids are
used up, changes nothing; opening again changes nothing; and the two readers
see the entries through a projection each (`Represents.history_eq`,
`Represents.planHistory_eq`).
-/

namespace Samkhya

open Sqlite

variable {ρ : Type}

/-- What a row was recorded from. -/
inductive Entry (ρ : Type)
  | plain (obs : Observation ρ)
  | plan (obs : PlanObservation ρ)

namespace Entry

/-- What an entry contributes to the history of its template. -/
def observation : Entry ρ → Observation ρ
  | plain obs => obs
  | plan obs => obs.toObservation

/-- The plan observation, if it is one. -/
def plan? : Entry ρ → Option (PlanObservation ρ)
  | plain _ => none
  | plan obs => some obs

end Entry

/-- Calls on a store; recording takes the clock of the database along. -/
inductive FeedbackCall (ρ : Type)
  | record (now : String) (obs : Observation ρ)
  | recordPlan (now : String) (obs : PlanObservation ρ)
  | reopen

namespace FeedbackCall

/-- Make the call. -/
def run : FeedbackCall ρ → StoreM ρ Unit
  | record now obs => do
      let _ ← FeedbackStore.record now obs
      pure ()
  | recordPlan now obs => do
      let _ ← FeedbackStore.recordPlan now obs
      pure ()
  | reopen => FeedbackStore.open

/-- What a call records when it returns `Ok`. -/
def entries : FeedbackCall ρ → List (Entry ρ)
  | record _ obs => [.plain obs]
  | recordPlan _ obs => [.plan obs]
  | reopen => []

end FeedbackCall

namespace FeedbackStore

/-- Make calls in order, whatever each returns; what was recorded. -/
def runCalls :
    Database ρ → List (FeedbackCall ρ) → List (Entry ρ) × Database ρ
  | db, [] => ([], db)
  | db, call :: calls =>
      match call.run db with
      | .ok _ db' =>
          let (entries, final) := runCalls db' calls
          (call.entries ++ entries, final)
      | .error _ db' => runCalls db' calls

/-- The values of the first columns. -/
def baseValues (obs : Observation ρ) (now : String) : List (Value ρ) :=
  [.text obs.templateHash, .text obs.planFingerprint,
    .integer obs.estRows.toInt64, .integer obs.actualRows.toInt64,
    (obs.latencyMs.map Value.real).getD .null, .text now]

/-- The values of the feature columns. -/
def featureValues : Entry ρ → List (Value ρ)
  | .plain _ => List.replicate 6 .null
  | .plan obs =>
      [optionalValue obs.features.leftInputRows,
        optionalValue obs.features.rightInputRows,
        optionalValue obs.features.leftDistinct,
        optionalValue obs.features.rightDistinct,
        .integer obs.features.predicateCount.toUInt64.toInt64,
        .integer obs.features.joinDepth.toUInt64.toInt64]

/-- A row holds an entry. -/
def Holds (row : StoredRow ρ) (e : Entry ρ) : Prop :=
  ∃ now, row.values = baseValues e.observation now ++ featureValues e

/-- The rows of a complete store hold the entries, one each. -/
structure Represents
    (db : Database ρ)
    (t : Table ρ)
    (entries : List (Entry ρ)) : Prop where
  complete : Complete db t
  rows : List.Forall₂ Holds t.rows entries
  counted : (entries.length : Int) ≤ t.sequence.toInt

section Recording

variable
  {db : Database ρ}
  {t : Table ρ}
  {entries : List (Entry ρ)}

/-- The next id, while there is one. -/
theorem toInt_succ
    {n : Int64}
    (h : n < n + 1) :
    (n + 1).toInt = n.toInt + 1 := by
  rw [Int64.lt_iff_toInt_lt, Int64.toInt_add] at h
  rw [Int64.toInt_add]
  have hlt := Int64.toInt_lt n
  have hle := Int64.le_toInt n
  have hone : (1 : Int64).toInt = 1 := by decide
  rw [hone] at h ⊢
  rw [Int.bmod_def] at h ⊢
  omega

/-- Without a next id all of them are used. -/
theorem toInt_eq_of_not_lt_succ
    {n : Int64}
    (h : ¬ n < n + 1) :
    n.toInt = 2 ^ 63 - 1 := by
  rw [Int64.lt_iff_toInt_lt, Int64.toInt_add] at h
  have hlt := Int64.toInt_lt n
  have hle := Int64.le_toInt n
  have hone : (1 : Int64).toInt = 1 := by decide
  rw [hone, Int.bmod_def] at h
  omega

/-- Columns of an entry as an insert leaves them. -/
structure Fills
    (given : List (String × Value ρ))
    (e : Entry ρ) : Prop where
  known : ∀ g ∈ given, Ident.of g.1 ∈ storeColumns.map Column.ident
  notNull : ∀ now, nullViolation now given storeColumns = none
  values :
    ∀ now,
      storeColumns.map (columnValue now given) =
        baseValues e.observation now ++ featureValues e

theorem fills_observation
    (obs : Observation ρ) :
    Fills (observationValues obs) (.plain obs) where
  known := by
    simp [observationValues, storeColumns, v1Columns, featureColumns,
      Column.nullable, Column.ident]
  notNull := by
    intro now
    simp [nullViolation, storeColumns, v1Columns, featureColumns,
      columnValue, observationValues, Column.nullable, Column.ident,
      Ident.of, List.find?, Value.isNull]
  values := by
    intro now
    simp [storeColumns, v1Columns, featureColumns, columnValue,
      observationValues, Column.nullable, Column.ident, Ident.of,
      List.find?, baseValues, featureValues, Entry.observation]

theorem fills_plan
    (obs : PlanObservation ρ) :
    Fills (planValues obs) (.plan obs) where
  known := by
    simp [planValues, storeColumns, v1Columns, featureColumns,
      Column.nullable, Column.ident]
  notNull := by
    intro now
    simp [nullViolation, storeColumns, v1Columns, featureColumns,
      columnValue, planValues, Column.nullable, Column.ident, Ident.of,
      List.find?, Value.isNull]
  values := by
    intro now
    simp [storeColumns, v1Columns, featureColumns, columnValue,
      planValues, Column.nullable, Column.ident, Ident.of, List.find?,
      baseValues, featureValues, Entry.observation,
      PlanObservation.toObservation]

/-- An insert appends the entry, or all ids are used and nothing changes. -/
theorem Represents.insert
    {given : List (String × Value ρ)}
    {e : Entry ρ}
    (h : Represents db t entries)
    (hgiven : Fills given e)
    (now : String) :
    (∃ id db' t',
      mapSqlite (Sqlite.insert "observations" now given) db =
          .ok id db' ∧
        Represents db' t' (entries ++ [e]) ∧
        t'.sequence.toInt = t.sequence.toInt + 1) ∨
      (∃ error,
        mapSqlite (Sqlite.insert "observations" now given) db =
          .error error db) ∧
        t.sequence.toInt = 2 ^ 63 - 1 := by
  have hcolumns := h.complete.columns
  rcases
    @insert_eq ρ db t "observations" now given h.complete.table
      (by rw [hcolumns]; exact hgiven.known)
      (by rw [hcolumns]; exact hgiven.notNull now) with
    ⟨t', hrun, hkey, hcolumns', hsequence, hid, hrows⟩ | ⟨hrun, hfull⟩
  · refine Or.inl ⟨_, _, t', mapSqlite_of_ok hrun, ?_, ?_⟩
    · constructor
      · constructor
        · simp
        · rw [hkey, h.complete.key]
        · rw [hcolumns', hcolumns]
        · simpa [observations_ne_template] using
            h.complete.templateName
        · simpa [observations_ne_plan] using h.complete.planName
        · exact h.complete.templateIndex
        · exact h.complete.planIndex
        · exact h.complete.version
      · rw [hrows]
        refine List.rel_append h.rows ?_
        refine List.Forall₂.cons ⟨now, ?_⟩ List.Forall₂.nil
        rw [hcolumns]
        exact hgiven.values now
      · have hcounted := h.counted
        rw [hsequence, toInt_succ hid, List.length_append]
        push_cast
        simpa using hcounted
    · rw [hsequence, toInt_succ hid]
  · exact
      Or.inr
        ⟨⟨_, mapSqlite_of_error hrun⟩, toInt_eq_of_not_lt_succ hfull⟩

/-- One call: it records its entry, or it fails on a full store. -/
theorem Represents.call
    (h : Represents db t entries)
    (call : FeedbackCall ρ) :
    (∃ db' t',
      call.run db = .ok () db' ∧
        Represents db' t' (entries ++ call.entries) ∧
        t'.sequence.toInt ≤ t.sequence.toInt + 1) ∨
      (∃ error, call.run db = .error error db) ∧
        t.sequence.toInt = 2 ^ 63 - 1 := by
  cases call with
  | record now obs =>
      rcases h.insert (fills_observation obs) now with
        ⟨id, db', t', hrun, ht', hsequence⟩ | ⟨⟨e, hrun⟩, hfull⟩
      · exact Or.inl ⟨db', t', bind_of_ok hrun, ht', hsequence.le⟩
      · exact Or.inr ⟨⟨e, bind_of_error hrun⟩, hfull⟩
  | recordPlan now obs =>
      rcases h.insert (fills_plan obs) now with
        ⟨id, db', t', hrun, ht', hsequence⟩ | ⟨⟨e, hrun⟩, hfull⟩
      · exact Or.inl ⟨db', t', bind_of_ok hrun, ht', hsequence.le⟩
      · exact Or.inr ⟨⟨e, bind_of_error hrun⟩, hfull⟩
  | reopen =>
      refine Or.inl ⟨db, t, h.complete.open_eq, ?_, by omega⟩
      rw [FeedbackCall.entries, List.append_nil]
      exact h

/-- A run: the store represents what was recorded, in order. -/
theorem Represents.runCalls
    (h : Represents db t entries)
    (calls : List (FeedbackCall ρ)) :
    (∃ t',
      Represents (runCalls db calls).2 t'
        (entries ++ (runCalls db calls).1)) ∧
      (t.sequence.toInt + calls.length < 2 ^ 63 →
        (FeedbackStore.runCalls db calls).1 =
          calls.flatMap FeedbackCall.entries) := by
  induction calls generalizing db t entries with
  | nil =>
      refine ⟨⟨t, ?_⟩, fun _ => rfl⟩
      rw [FeedbackStore.runCalls, List.append_nil]
      exact h
  | cons call calls ih =>
      rcases h.call call with
        ⟨db', t', hrun, ht', hsequence⟩ | ⟨⟨e, hrun⟩, hfull⟩
      · obtain ⟨⟨t'', ht''⟩, hall⟩ := ih ht'
        simp only [FeedbackStore.runCalls, hrun]
        refine ⟨⟨t'', ?_⟩, fun hroom => ?_⟩
        · rw [← List.append_assoc]
          exact ht''
        · rw [List.flatMap_cons, hall]
          rw [List.length_cons] at hroom
          push_cast at hroom
          omega
      · obtain ⟨hrest, _⟩ := ih h
        simp only [FeedbackStore.runCalls, hrun]
        refine ⟨hrest, fun hroom => ?_⟩
        rw [List.length_cons] at hroom
        push_cast at hroom
        omega

end Recording

section Reading

variable
  {db : Database ρ}
  {t : Table ρ}
  {row : StoredRow ρ}
  {e : Entry ρ}
  {entries : List (Entry ρ)}

theorem columnIdents_eq
    (h : Complete db t) :
    t.columnIdents = .of "id" :: storeColumns.map Column.ident := by
  rw [Table.columnIdents, Table.columnNames, h.key, h.columns,
    List.map_cons, List.map_map]
  rfl

theorem nodup_columnIdents
    (h : Complete db t) :
    t.columnIdents.Nodup := by
  rw [columnIdents_eq h]
  exact nodup_storeIdents

/-- A query of a complete store may name its columns. -/
theorem ident_mem_columnIdents
    (h : Complete db t)
    {name : String}
    (hname : name ∈ storeColumns.map Column.name) :
    Ident.of name ∈ t.columnIdents := by
  rw [columnIdents_eq h]
  obtain ⟨c, hc, rfl⟩ := List.mem_map.mp hname
  exact List.mem_cons_of_mem _ (List.mem_map_of_mem hc)

theorem length_values
    {now : String}
    (hrow :
      row.values = baseValues e.observation now ++ featureValues e) :
    row.values.length = storeColumns.length := by
  rw [hrow]
  cases e with
  | plain obs => rfl
  | plan obs => rfl

/-- All cells of a row. -/
theorem map_cell_storeColumns
    (h : Complete db t)
    {now : String}
    (hrow :
      row.values = baseValues e.observation now ++ featureValues e) :
    (storeColumns.map Column.name).map (t.cell row) =
      baseValues e.observation now ++ featureValues e := by
  have hlength := length_values hrow
  rw [← h.columns] at hlength ⊢
  rw [Table.map_cell_columns (nodup_columnIdents h) hlength, hrow]

/-- The first columns of a row, as both readers select them. -/
theorem map_cell_observationColumns
    (h : Complete db t)
    {now : String}
    (hrow :
      row.values = baseValues e.observation now ++ featureValues e) :
    observationColumns.map (t.cell row) =
      (baseValues e.observation now).take 5 := by
  have hfirst :
      observationColumns = (storeColumns.map Column.name).take 5 :=
    rfl
  rw [hfirst, List.map_take, map_cell_storeColumns h hrow]
  rfl

/-- The feature columns of a row. -/
theorem map_cell_featureColumns
    (h : Complete db t)
    {now : String}
    (hrow :
      row.values = baseValues e.observation now ++ featureValues e) :
    (featureColumns.map Prod.fst).map (t.cell row) =
      featureValues e := by
  have hlast :
      featureColumns.map Prod.fst =
        (storeColumns.map Column.name).drop 6 :=
    rfl
  rw [hlast, List.map_drop, map_cell_storeColumns h hrow]
  rfl

theorem getOptReal_latency
    (latency : Option ρ) :
    getOptReal ((latency.map Value.real).getD .null) = .ok latency := by
  cases latency with
  | none => rfl
  | some r => rfl

theorem getOptU64_optionalValue
    (v : Option UInt64) :
    getOptU64 (optionalValue v : Value ρ) = .ok v := by
  cases v with
  | none => rfl
  | some n => simp [optionalValue, getOptU64]

/-- A row reads back as the observation that was put into it. -/
theorem readObservation_baseValues
    (obs : Observation ρ)
    (now : String) :
    readObservation ((baseValues obs now).take 5) = .ok obs := by
  simp only [readObservation, baseValues, List.take_succ_cons,
    List.take_zero, List.getD_cons_zero, List.getD_cons_succ, getText,
    getI64, getOptReal_latency, bind, Except.bind, pure, Except.pure,
    UInt64.toUInt64_toInt64]

/-- A row of a plan record reads back with all its features. -/
theorem readPlanObservation_values
    (obs : PlanObservation ρ)
    (now : String) :
    readPlanObservation
        ((baseValues obs.toObservation now).take 5 ++
          featureValues (.plan obs)) =
      .ok obs := by
  simp only [readPlanObservation, baseValues, featureValues,
    PlanObservation.toObservation, List.take_succ_cons, List.take_zero,
    List.cons_append, List.nil_append, List.getD_cons_zero,
    List.getD_cons_succ, getText, getI64, getOptReal_latency,
    getOptU64_optionalValue, bind, Except.bind, pure, Except.pure,
    UInt64.toUInt64_toInt64, UInt32.toUInt32_toUInt64]

/-- A reader of the matching rows sees the matching entries. -/
theorem mapM_filter_of_forall₂
    {β : Type}
    {rows : List (StoredRow ρ)}
    {p : StoredRow ρ → Bool}
    {cells : StoredRow ρ → List (Value ρ)}
    {read : List (Value ρ) → Except Error β}
    {shown : Entry ρ → Option β}
    (h : List.Forall₂ Holds rows entries)
    (hshown :
      ∀ row e, Holds row e →
        match shown e with
        | some b => p row = true ∧ read (cells row) = .ok b
        | none => p row = false) :
    ((rows.filter p).map cells).mapM read =
      .ok (entries.filterMap shown) := by
  induction h with
  | nil =>
      rfl
  | @cons row e rows entries hrow _ ih =>
      have hone := hshown row e hrow
      cases hb : shown e with
      | none =>
          simp only [hb] at hone
          rw [List.filter_cons_of_neg (by simp [hone]),
            List.filterMap_cons_none hb, ih]
      | some b =>
          simp only [hb] at hone
          rw [List.filter_cons_of_pos hone.1,
            List.filterMap_cons_some hb, List.map_cons, List.mapM_cons,
            hone.2, ih]
          rfl

/-- The cell of a store column. -/
theorem cell_eq
    (h : Complete db t)
    {i : Nat}
    {c : Column}
    (hc : storeColumns[i]? = some c)
    (row : StoredRow ρ) :
    t.cell row c.name = row.values.getD i .null := by
  rw [← h.columns] at hc
  exact Table.cell_of_getElem? (nodup_columnIdents h) hc row

/-- The condition on the template, on a row that holds an entry. -/
theorem holds_equals_template
    (h : Complete db t)
    (hrow : Holds row e)
    (template : String) :
    (WhereClause.equals "template_hash" template).holds t row =
      decide (e.observation.templateHash = template) := by
  obtain ⟨now, hvalues⟩ := hrow
  have hcell : t.cell row "template_hash" = row.values.getD 0 .null :=
    cell_eq h (c := ⟨"template_hash", "TEXT", true, .null⟩) rfl row
  rw [WhereClause.holds, hcell, hvalues]
  rfl

/-- Only a plan record has a predicate count. -/
theorem holds_isNotNull_predicateCount
    (h : Complete db t)
    (hrow : Holds row e) :
    (WhereClause.isNotNull "predicate_count").holds t row =
      e.plan?.isSome := by
  obtain ⟨now, hvalues⟩ := hrow
  have hcell : t.cell row "predicate_count" = row.values.getD 10 .null :=
    cell_eq h (c := Column.nullable "predicate_count" "INTEGER") rfl row
  rw [WhereClause.holds, hcell, hvalues]
  cases e with
  | plain obs => rfl
  | plan obs => rfl

theorem filterMap_if_eq_filter
    {α β : Type}
    (f : α → β)
    (p : β → Prop)
    [DecidablePred p]
    (l : List α) :
    (l.filterMap fun a => if p (f a) then some (f a) else none) =
      (l.map f).filter p := by
  induction l with
  | nil =>
      rfl
  | cons a l ih =>
      by_cases ha : p (f a)
      · simp [ha, ih]
      · simp [ha, ih]

/-- The history of a template is the entries of that template. -/
theorem Represents.history_eq
    (h : Represents db t entries)
    (template : String) :
    history template db =
      .ok
        ((entries.map Entry.observation).filter fun obs =>
          obs.templateHash = template) := by
  have hselect :=
    @select_eq ρ db t "observations" observationColumns
      (.equals "template_hash" template) h.complete.table
      (by
        intro c hc
        apply ident_mem_columnIdents h.complete
        revert c hc
        simp [observationColumns, WhereClause.columns, storeColumns,
          v1Columns])
  unfold history
  rw [hselect]
  change
    ((t.rows.filter _).map _).mapM readObservation = _
  rw [← filterMap_if_eq_filter Entry.observation
    (fun obs => obs.templateHash = template)]
  refine mapM_filter_of_forall₂ h.rows ?_
  intro row e hrow
  have hcondition := holds_equals_template h.complete hrow template
  obtain ⟨now, hvalues⟩ := hrow
  by_cases htemplate : e.observation.templateHash = template
  · simp only [if_pos htemplate]
    refine ⟨by rw [hcondition, decide_eq_true_eq]; exact htemplate, ?_⟩
    rw [map_cell_observationColumns h.complete hvalues]
    exact readObservation_baseValues _ _
  · simp only [if_neg htemplate]
    rw [hcondition, decide_eq_false_iff_not]
    exact htemplate

/-- The plan history is the plan records of the template. -/
theorem Represents.planHistory_eq
    (h : Represents db t entries)
    (template : String) :
    planHistory template db =
      .ok
        ((entries.filterMap Entry.plan?).filter fun obs =>
          obs.templateHash = template) := by
  have hselect :=
    @select_eq ρ db t "observations"
      (observationColumns ++ featureColumns.map Prod.fst)
      (.and (.equals "template_hash" template)
        (.isNotNull "predicate_count"))
      h.complete.table
      (by
        intro c hc
        apply ident_mem_columnIdents h.complete
        revert c hc
        simp [observationColumns, WhereClause.columns, storeColumns,
          v1Columns, featureColumns, Column.nullable])
  have hfilter :
      (entries.filterMap Entry.plan?).filter
          (fun obs => obs.templateHash = template) =
        entries.filterMap fun e =>
          e.plan?.filter fun obs => obs.templateHash = template := by
    rw [List.filter_filterMap]
  unfold planHistory
  rw [hselect, hfilter]
  change
    ((t.rows.filter _).map _).mapM readPlanObservation = _
  refine mapM_filter_of_forall₂ h.rows ?_
  intro row e hrow
  have htemplate := holds_equals_template h.complete hrow template
  have hplan := holds_isNotNull_predicateCount h.complete hrow
  obtain ⟨now, hvalues⟩ := hrow
  cases e with
  | plain obs =>
      simp only [Entry.plan?, Option.filter_none]
      rw [WhereClause.holds, hplan]
      simp [Entry.plan?]
  | plan obs =>
      have hsame :
          (Entry.plan obs).observation.templateHash =
            obs.templateHash :=
        rfl
      by_cases hmatch : obs.templateHash = template
      · simp only [Entry.plan?, Option.filter_some, hmatch,
          decide_true, if_true]
        refine ⟨?_, ?_⟩
        · rw [WhereClause.holds, htemplate, hplan, hsame]
          simp [hmatch, Entry.plan?]
        · rw [List.map_append,
            map_cell_observationColumns h.complete hvalues,
            map_cell_featureColumns h.complete hvalues]
          exact readPlanObservation_values obs now
      · simp only [Entry.plan?, Option.filter_some, hmatch,
          decide_false, Bool.false_eq_true, if_false]
        rw [WhereClause.holds, htemplate, hsame]
        simp [hmatch]

/-- The count is the number of entries. -/
theorem Represents.count_eq
    (h : Represents db t entries) :
    ∃ n, count db = .ok n ∧ n.toNat = entries.length := by
  have hlength : t.rows.length = entries.length := h.rows.length_eq
  have hcounted := h.counted
  have hlt := Int64.toInt_lt t.sequence
  refine ⟨(Int64.ofNat t.rows.length).toUInt64, ?_, ?_⟩
  · simp only [count, countRows, h.complete.table]
    rfl
  · rw [hlength, Int64.toUInt64_ofNat', UInt64.toNat_ofNat']
    omega

end Reading

/-- A store of a release without feature columns, holding observations. -/
structure LegacyStore
    (db : Database ρ)
    (before : List (Observation ρ)) : Prop where
  version : db.userVersion ≤ schemaUserVersion
  tableName : .of "observations" ∉ db.indexes
  templateName : .of "idx_obs_template" ∉ db.tables
  planName : .of "idx_obs_plan" ∉ db.tables
  table :
    ∃ t,
      db.tables[Ident.of "observations"]? = some t ∧
      t.key = "id" ∧
      t.columns = v1Columns ∧
      -- the ids that the store gave out start at one
      0 ≤ t.sequence ∧
      (∀ row ∈ t.rows, 0 < row.id) ∧
      List.Forall₂
        (fun row obs => ∃ now, row.values = baseValues obs now)
        t.rows before

/-- A new file, or a store of an earlier release with what it holds. -/
inductive StartsFrom : Database ρ → List (Observation ρ) → Prop
  | empty : StartsFrom .empty []
  | legacy
      {db : Database ρ}
      {before : List (Observation ρ)}
      (h : LegacyStore db before) :
      StartsFrom db before

section Start

variable {db : Database ρ} {before : List (Observation ρ)}

/-- Distinct ids above a bound take up room. -/
theorem length_le_of_increasing
    {ids : List Int}
    {low high : Int}
    (hle : low ≤ high)
    (hincreasing : ids.Pairwise (· < ·))
    (hlow : ∀ n ∈ ids, low < n)
    (hhigh : ∀ n ∈ ids, n ≤ high) :
    (ids.length : Int) ≤ high - low := by
  induction ids generalizing low with
  | nil =>
      simpa using hle
  | cons n ids ih =>
      obtain ⟨hfirst, hrest⟩ := List.pairwise_cons.mp hincreasing
      have hn := hlow n List.mem_cons_self
      have hn' := hhigh n List.mem_cons_self
      have hlength :=
        ih hn' hrest hfirst
          (fun m hm => hhigh m (List.mem_cons_of_mem n hm))
      rw [List.length_cons]
      push_cast
      omega

/-- Positive ids leave room for no more rows than the largest one. -/
theorem length_rows_le
    {t : Table ρ}
    (hpositive : ∀ row ∈ t.rows, 0 < row.id)
    (hsequence : 0 ≤ t.sequence.toInt) :
    (t.rows.length : Int) ≤ t.sequence.toInt := by
  have hlength :=
    @length_le_of_increasing (t.rows.map fun row => row.id.toInt) 0
      t.sequence.toInt hsequence
      (by
        rw [List.pairwise_map]
        exact
          t.increasing.imp fun hab => Int64.lt_iff_toInt_lt.mp hab)
      (by
        intro n hn
        obtain ⟨row, hrow, rfl⟩ := List.mem_map.mp hn
        exact Int64.lt_iff_toInt_lt.mp (hpositive row hrow))
      (by
        intro n hn
        obtain ⟨row, hrow, rfl⟩ := List.mem_map.mp hn
        exact Int64.le_iff_toInt_le.mp (t.bounded row hrow))
  simpa using hlength

theorem StartsFrom.fromEarlierRelease
    (h : StartsFrom db before) :
    FromEarlierRelease db := by
  cases h with
  | empty =>
      constructor
      · exact Int32.le_of_lt (by decide : (0 : Int32) < 1)
      · simp [Database.empty]
      · simp [Database.empty]
      · simp [Database.empty]
      · intro t ht
        simp [Database.empty] at ht
  | legacy h =>
      obtain ⟨t, ht, hkey, hcolumns, _⟩ := h.table
      refine ⟨h.version, h.tableName, h.templateName, h.planName, ?_⟩
      intro t' ht'
      rw [ht] at ht'
      obtain rfl := Option.some.inj ht'
      exact ⟨hkey, 0, by simp [hcolumns]⟩

/-- What the table of a start holds. -/
theorem StartsFrom.rows
    (h : StartsFrom db before) :
    0 ≤ (storeTable db).sequence.toInt ∧
      (∀ row ∈ (storeTable db).rows, 0 < row.id) ∧
      List.Forall₂
        (fun row obs => ∃ now, row.values = baseValues obs now)
        (storeTable db).rows before := by
  cases h with
  | empty =>
      have htable :
          storeTable (.empty : Database ρ) =
            Table.empty "id" v1Columns := by
        simp [storeTable, Database.empty]
      rw [htable]
      exact ⟨by simp [Table.empty], by simp [Table.empty], .nil⟩
  | legacy h =>
      obtain ⟨t, ht, _, _, hsequence, hpositive, hrows⟩ := h.table
      rw [storeTable, ht, Option.getD_some]
      exact ⟨Int64.le_iff_toInt_le.mp hsequence, hpositive, hrows⟩

/-- An opened start represents the observations it came with. -/
theorem StartsFrom.open
    (h : StartsFrom db before) :
    ∃ db' t',
      FeedbackStore.open db = .ok () db' ∧
        Represents db' t' (before.map Entry.plain) ∧
        t'.sequence = (storeTable db).sequence := by
  obtain ⟨db', t', hrun, hcomplete, hkept⟩ :=
    open_of_earlier h.fromEarlierRelease
  obtain ⟨k, hrows⟩ := hkept.rows
  obtain ⟨hsequence, hpositive, hbefore⟩ := h.rows
  refine ⟨db', t', hrun, ⟨hcomplete, ?_, ?_⟩, hkept.sequence⟩
  · rw [hrows, List.forall₂_map_left_iff, List.forall₂_map_right_iff]
    refine List.forall₂_iff_zip.mpr ⟨hbefore.length_eq, ?_⟩
    intro row obs hmem
    obtain ⟨now, hvalues⟩ := (List.forall₂_iff_zip.mp hbefore).2 hmem
    -- the row has a value for each column of the store
    have hlength :=
      t'.aligned
        { row with values := row.values ++ List.replicate k .null }
        (by
          rw [hrows]
          exact List.mem_map_of_mem (List.of_mem_zip hmem).1)
    rw [hcomplete.columns, List.length_append, hvalues,
      List.length_replicate] at hlength
    have hk : 6 + k = 12 := by
      simpa [baseValues, storeColumns, v1Columns, featureColumns]
        using hlength
    obtain rfl : k = 6 := by omega
    exact ⟨now, by rw [hvalues]; rfl⟩
  · rw [List.length_map, ← hbefore.length_eq, hkept.sequence]
    exact length_rows_le hpositive hsequence

end Start

/--
**A feedback store gives back what it was given.**  From a new file or a store
without feature columns, after any calls: the history of a template is what the
store came with and what was recorded for it, in order; the plan history is the
plan records alone, with their features; the count is the number of rows ever
inserted.  Every call succeeds as long as there are ids.
-/
theorem feedback_roundTrip
    (start : Database ρ)
    (before : List (Observation ρ))
    (hstart : StartsFrom start before) :
    ∃ db,
      FeedbackStore.open start = .ok () db ∧
      ∀ calls,
        (∀ template,
          history template (runCalls db calls).2 =
            .ok
              ((before ++
                  (runCalls db calls).1.map Entry.observation).filter
                fun obs => obs.templateHash = template)) ∧
        (∀ template,
          planHistory template (runCalls db calls).2 =
            .ok
              (((runCalls db calls).1.filterMap Entry.plan?).filter
                fun obs => obs.templateHash = template)) ∧
        (∃ n,
          count (runCalls db calls).2 = .ok n ∧
            n.toNat = before.length + (runCalls db calls).1.length) ∧
        ((storeTable start).sequence.toInt + calls.length < 2 ^ 63 →
          (runCalls db calls).1 =
            calls.flatMap FeedbackCall.entries) := by
  obtain ⟨db, t, hrun, ht, hsequence⟩ := hstart.open
  refine ⟨db, hrun, fun calls => ?_⟩
  obtain ⟨⟨t', ht'⟩, hall⟩ := ht.runCalls calls
  refine ⟨fun template => ?_, fun template => ?_, ?_, ?_⟩
  · have hhistory := ht'.history_eq template
    rw [List.map_append, List.map_map] at hhistory
    have hplain :
        before.map (Entry.observation ∘ Entry.plain) = before :=
      List.map_id before
    rw [hplain] at hhistory
    exact hhistory
  · have hplan := ht'.planHistory_eq template
    rw [List.filterMap_append] at hplan
    have hnone : (before.map Entry.plain).filterMap Entry.plan? = [] := by
      simp [List.filterMap_map, Entry.plan?]
    rw [hnone, List.nil_append] at hplan
    exact hplan
  · obtain ⟨n, hcount, hn⟩ := ht'.count_eq
    rw [List.length_append, List.length_map] at hn
    exact ⟨n, hcount, hn⟩
  · rw [← hsequence]
    exact hall

section Example

/-- A plan record with the largest estimate and one absent feature. -/
def largeRecord : PlanObservation Unit where
  templateHash := "q7"
  planFingerprint := "hash-join#1"
  features :=
    { baselineEstimate := 18446744073709551615
      leftInputRows := some 9223372036854775808
      rightInputRows := some 0
      leftDistinct := none
      rightDistinct := some 1
      predicateCount := 4294967295
      joinDepth := 0 }
  actualRows := 9223372036854775808
  latencyMs := none

def plainRecord : Observation Unit where
  templateHash := "q7"
  planFingerprint := "scan"
  estRows := 1
  actualRows := 2
  latencyMs := some ()

/-- Both kinds of records of one template, and opening in between. -/
theorem feedback_roundTrip_mixed :
    ∃ db final : Database Unit,
      FeedbackStore.open .empty = .ok () db ∧
      (runCalls db
          [.record "t1" plainRecord, .reopen,
            .recordPlan "t2" largeRecord]).2 =
        final ∧
      history "q7" final =
        .ok [plainRecord, largeRecord.toObservation] ∧
      planHistory "q7" final = .ok [largeRecord] := by
  obtain ⟨db, hrun, hcalls⟩ :=
    feedback_roundTrip (.empty : Database Unit) [] .empty
  obtain ⟨hhistory, hplan, _, hall⟩ :=
    hcalls
      [.record "t1" plainRecord, .reopen,
        .recordPlan "t2" largeRecord]
  have hsequence :
      (storeTable (.empty : Database Unit)).sequence = 0 := by
    simp [storeTable, Database.empty, Table.empty]
  have hentries := hall (by rw [hsequence]; decide)
  refine ⟨db, _, hrun, rfl, ?_, ?_⟩
  · rw [hhistory "q7", hentries]
    rfl
  · rw [hplan "q7", hentries]
    rfl

end Example

end FeedbackStore

end Samkhya
