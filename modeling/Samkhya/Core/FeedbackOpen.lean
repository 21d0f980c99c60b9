import Mathlib
import Samkhya.Core.Feedback

/-!
# Opening a feedback store

A store of an earlier release has the first columns of the table and some of
the feature columns, or no table yet.  Opening completes it, keeps what was
there, and has nothing to do the next time (`open_of_earlier`).

A newer store is refused, but the schema script has run by then.  It leaves a
newer store alone exactly when it has nothing to create there
(`opensSafely_iff`).
-/

namespace Samkhya

open Sqlite

namespace FeedbackStore

variable {ρ : Type} {db db' : Database ρ} {t : Table ρ}

section Programs

theorem mapSqlite_of_ok
    {α : Type}
    {m : SqlM ρ α}
    {a : α}
    (h : m db = .ok a db') :
    mapSqlite m db = .ok a db' := by
  rw [mapSqlite, h]

theorem mapSqlite_of_error
    {α : Type}
    {m : SqlM ρ α}
    {e : String}
    (h : m db = .error e db') :
    mapSqlite m db = .error (.feedback e) db' := by
  rw [mapSqlite, h]

/-- A step that goes through hands its database on. -/
theorem bind_of_ok
    {α β : Type}
    {m : StoreM ρ α}
    {f : α → StoreM ρ β}
    {a : α}
    (h : m db = .ok a db') :
    (m >>= f) db = f a db' := by
  change EStateM.bind m f db = _
  rw [EStateM.bind, h]

theorem bind_of_error
    {α β : Type}
    {m : StoreM ρ α}
    {f : α → StoreM ρ β}
    {e : Error}
    (h : m db = .error e db') :
    (m >>= f) db = .error e db' := by
  change EStateM.bind m f db = _
  rw [EStateM.bind, h]

/-- Adding what is missing is one batch of the missing columns. -/
theorem addMissing_eq
    (existing : List String)
    (columns : List (String × String))
    (db : Database ρ) :
    addMissing existing columns db =
      mapSqlite
        (executeBatch
          ((columns.filter fun c => c.1 ∉ existing).map fun c =>
            .addColumn "observations" c.1 c.2))
        db := by
  induction columns generalizing db with
  | nil =>
      rfl
  | cons c rest ih =>
      unfold addMissing
      by_cases hc : c.1 ∈ existing
      · rw [if_pos hc, List.filter_cons_of_neg (by simpa using hc)]
        exact ih db
      · rw [if_neg hc, List.filter_cons_of_pos (by simpa using hc),
          List.map_cons]
        cases happly :
            (Statement.addColumn "observations" c.1 c.2).apply db with
        | error e =>
            rw [mapSqlite_of_error (executeBatch_cons_of_error happly)]
            exact
              bind_of_error
                (mapSqlite_of_error (executeBatch_cons_of_error happly))
        | ok db' =>
            have hone :
                executeBatch
                    [Statement.addColumn "observations" c.1 c.2] db =
                  .ok () db' := by
              rw [executeBatch_cons_of_ok happly]
              rfl
            have hrest :
                mapSqlite
                    (executeBatch
                      (.addColumn "observations" c.1 c.2 ::
                        (rest.filter fun c => c.1 ∉ existing).map
                          fun c =>
                            .addColumn "observations" c.1 c.2))
                    db =
                  mapSqlite
                    (executeBatch
                      ((rest.filter fun c => c.1 ∉ existing).map
                        fun c => .addColumn "observations" c.1 c.2))
                    db' := by
              unfold mapSqlite
              rw [executeBatch_cons_of_ok happly]
            rw [hrest, ← ih db']
            exact bind_of_ok (mapSqlite_of_ok hone)

/-- An unset, older or current version ends up as the current one. -/
theorem checkOrStamp_of_le
    (h : db.userVersion ≤ schemaUserVersion) :
    checkOrStampSchemaVersion db =
      .ok () { db with userVersion := schemaUserVersion } := by
  change
    (if db.userVersion = 0 then
        mapSqlite (executeBatch [.setUserVersion schemaUserVersion])
      else if db.userVersion > schemaUserVersion then
        throw _
      else if db.userVersion < schemaUserVersion then
        mapSqlite (executeBatch [.setUserVersion schemaUserVersion])
      else
        pure () : StoreM ρ Unit) db = _
  have hle : ¬ db.userVersion > schemaUserVersion :=
    Int32.not_lt.mpr h
  split_ifs with hzero hlt
  · rfl
  · rfl
  · have hsame : db.userVersion = schemaUserVersion :=
      Int32.le_antisymm h (Int32.not_lt.mp hlt)
    rw [← hsame]
    rfl

/-- A newer version is refused without a further write. -/
theorem checkOrStamp_of_lt
    (h : schemaUserVersion < db.userVersion) :
    checkOrStampSchemaVersion db =
      .error (newerVersion db.userVersion) db := by
  have hzero : db.userVersion ≠ 0 := by
    intro hzero
    rw [hzero] at h
    exact absurd h (by decide)
  change
    (if db.userVersion = 0 then
        mapSqlite (executeBatch [.setUserVersion schemaUserVersion])
      else if db.userVersion > schemaUserVersion then
        throw (newerVersion db.userVersion)
      else if db.userVersion < schemaUserVersion then
        mapSqlite (executeBatch [.setUserVersion schemaUserVersion])
      else
        pure () : StoreM ρ Unit) db = _
  rw [if_neg hzero, if_pos h]
  rfl

end Programs

/-- All columns of the current release, in order. -/
def storeColumns : List Column :=
  v1Columns ++ featureColumns.map fun c => Column.nullable c.1 c.2

/-- A store that opening has nothing to do to. -/
structure Complete (db : Database ρ) (t : Table ρ) : Prop where
  table : db.tables[Ident.of "observations"]? = some t
  key : t.key = "id"
  columns : t.columns = storeColumns
  templateName : .of "idx_obs_template" ∉ db.tables
  planName : .of "idx_obs_plan" ∉ db.tables
  templateIndex : .of "idx_obs_template" ∈ db.indexes
  planIndex : .of "idx_obs_plan" ∈ db.indexes
  version : db.userVersion = schemaUserVersion

/--
A file that an earlier release has written or has begun to write: no newer
version, and the table missing or with the first columns and some features.
-/
structure FromEarlierRelease (db : Database ρ) : Prop where
  version : db.userVersion ≤ schemaUserVersion
  tableName : .of "observations" ∉ db.indexes
  templateName : .of "idx_obs_template" ∉ db.tables
  planName : .of "idx_obs_plan" ∉ db.tables
  table :
    ∀ t, db.tables[Ident.of "observations"]? = some t →
      t.key = "id" ∧
        ∃ k,
          t.columns =
            v1Columns ++
              (featureColumns.take k).map fun c =>
                Column.nullable c.1 c.2

/-- What opening an earlier store keeps and adds. -/
structure Upgraded
    (db : Database ρ)
    (t : Table ρ)
    (db' : Database ρ)
    (t' : Table ρ) : Prop where
  rows :
    ∃ k,
      t'.rows =
        t.rows.map fun row =>
          { row with values := row.values ++ List.replicate k .null }
  sequence : t'.sequence = t.sequence
  tables :
    ∀ name : Ident, name ≠ .of "observations" →
      db'.tables[name]? = db.tables[name]?
  indexes :
    ∀ (name : Ident) (index : Index),
      db.indexes[name]? = some index →
        db'.indexes[name]? = some index

/-- The table of a store, or the one that the schema script makes. -/
def storeTable (db : Database ρ) : Table ρ :=
  (db.tables[Ident.of "observations"]?).getD (.empty "id" v1Columns)

section Earlier

theorem observations_ne_template :
    Ident.of "observations" ≠ .of "idx_obs_template" := by
  decide +kernel

theorem observations_ne_plan :
    Ident.of "observations" ≠ .of "idx_obs_plan" := by
  decide +kernel

/-- An index whose name is free or its own can be created. -/
theorem createIndex_apply
    {name column : String}
    (ht : db.tables[Ident.of "observations"]? = some t)
    (hname : .of name ∉ db.tables)
    (hcolumn : .of column ∈ t.columnIdents) :
    ∃ indexes : Std.ExtTreeMap Ident Index,
      (Statement.createIndex name "observations" column).apply db =
          .ok { db with indexes := indexes } ∧
        Ident.of name ∈ indexes ∧
        ∀ (other : Ident) (index : Index),
          db.indexes[other]? = some index →
            indexes[other]? = some index := by
  simp only [Statement.apply, ht, if_neg hname]
  by_cases hindex : .of name ∈ db.indexes
  · rw [if_pos hindex]
    exact ⟨db.indexes, rfl, hindex, fun _ _ h => h⟩
  · rw [if_neg hindex, if_pos hcolumn]
    refine ⟨_, rfl, by simp, ?_⟩
    intro other index hother
    rw [Std.ExtTreeMap.getElem?_insert]
    split_ifs with hsame
    · rw [Std.LawfulEqCmp.compare_eq_iff_eq] at hsame
      rw [hsame] at hindex
      exact absurd (mem_of_getElem? hother) hindex
    · exact hother

/-- The first statement leaves the table of the store there. -/
theorem createTable_of_earlier
    (h : FromEarlierRelease db) :
    (Statement.createTable "observations" "id" v1Columns).apply db =
      .ok
        { db with
          tables :=
            db.tables.insert (.of "observations") (storeTable db) } := by
  simp only [Statement.apply, storeTable]
  cases ht : db.tables[Ident.of "observations"]? with
  | none =>
      have htable : .of "observations" ∉ db.tables := by
        simpa using ht
      rw [if_neg htable, if_neg h.tableName]
      rfl
  | some t =>
      rw [if_pos (mem_of_getElem? ht), Option.getD_some,
        insert_of_getElem? ht]

theorem mem_columnNames_storeTable
    (h : FromEarlierRelease db)
    {c : Column}
    (hc : c ∈ v1Columns) :
    c.ident ∈ (storeTable db).columnIdents := by
  refine List.mem_map_of_mem ?_
  unfold storeTable
  cases ht : db.tables[Ident.of "observations"]? with
  | none =>
      exact List.mem_cons_of_mem _ (List.mem_map_of_mem hc)
  | some t =>
      obtain ⟨_, k, hk⟩ := h.table t ht
      refine List.mem_cons_of_mem _ ?_
      rw [Option.getD_some, hk]
      exact List.mem_map_of_mem (List.mem_append_left _ hc)

/-- The schema script on an earlier store. -/
theorem schemaV1_of_earlier
    (h : FromEarlierRelease db) :
    ∃ indexes : Std.ExtTreeMap Ident Index,
      executeBatch schemaV1 db =
          .ok ()
            { db with
              tables :=
                db.tables.insert (.of "observations") (storeTable db)
              indexes := indexes } ∧
        Ident.of "idx_obs_template" ∈ indexes ∧
        Ident.of "idx_obs_plan" ∈ indexes ∧
        ∀ (name : Ident) (index : Index),
          db.indexes[name]? = some index →
            indexes[name]? = some index := by
  have hcreate := createTable_of_earlier h
  obtain ⟨first, hfirst, hmem, hkept⟩ :=
    @createIndex_apply ρ
      { db with
        tables := db.tables.insert (.of "observations") (storeTable db) }
      (storeTable db) "idx_obs_template" "template_hash" (by simp)
      (by simpa [observations_ne_template] using h.templateName)
      (mem_columnNames_storeTable h
        (c := ⟨"template_hash", "TEXT", true, .null⟩)
        (by simp [v1Columns]))
  obtain ⟨second, hsecond, hmem', hkept'⟩ :=
    @createIndex_apply ρ
      { db with
        tables := db.tables.insert (.of "observations") (storeTable db)
        indexes := first }
      (storeTable db) "idx_obs_plan" "plan_fingerprint" (by simp)
      (by simpa [observations_ne_plan] using h.planName)
      (mem_columnNames_storeTable h
        (c := ⟨"plan_fingerprint", "TEXT", true, .null⟩)
        (by simp [v1Columns]))
  refine ⟨second, ?_, ?_, hmem', ?_⟩
  · unfold schemaV1
    rw [executeBatch_cons_of_ok hcreate, executeBatch_cons_of_ok hfirst,
      executeBatch_cons_of_ok hsecond]
    rfl
  · have hindex := Std.ExtTreeMap.getElem?_eq_some_getElem hmem
    exact mem_of_getElem? (hkept' _ _ hindex)
  · intro name index hindex
    exact hkept' name index (hkept name index hindex)

/-- The feature columns that a table with some of them still lacks. -/
theorem filter_featureColumns
    (k : Nat) :
    (featureColumns.filter fun c =>
        c.1 ∉
          "id" ::
            (v1Columns ++
              (featureColumns.take k).map fun c =>
                Column.nullable c.1 c.2).map Column.name) =
      featureColumns.drop k := by
  match k with
  | 0 => decide +kernel
  | 1 => decide +kernel
  | 2 => decide +kernel
  | 3 => decide +kernel
  | 4 => decide +kernel
  | 5 => decide +kernel
  | k + 6 =>
      rw [List.take_of_length_le (by simp [featureColumns]),
        List.drop_of_length_le (by simp [featureColumns])]
      decide +kernel

theorem nodup_storeIdents :
    (.of "id" :: storeColumns.map Column.ident).Nodup := by
  decide +kernel

/-- The feature columns that are left are none of those before them. -/
theorem ident_notMem_of_mem_drop
    {k : Nat}
    {c : String × String}
    (hc : c ∈ featureColumns.drop k) :
    Ident.of c.1 ∉
      .of "id" ::
        (v1Columns ++
          (featureColumns.take k).map fun c =>
            Column.nullable c.1 c.2).map Column.ident := by
  have hall := nodup_storeIdents
  have hsplit :
      storeColumns =
        (v1Columns ++
            (featureColumns.take k).map fun c =>
              Column.nullable c.1 c.2) ++
          (featureColumns.drop k).map fun c =>
            Column.nullable c.1 c.2 := by
    rw [List.append_assoc, ← List.map_append, List.take_append_drop]
    rfl
  rw [hsplit, List.map_append, ← List.cons_append,
    List.nodup_append'] at hall
  intro hmem
  refine hall.2.2 hmem ?_
  rw [List.map_map]
  exact List.mem_map.mpr ⟨c, hc, rfl⟩

/-- The migration on a table with some of the feature columns. -/
theorem addFeatureColumns_of_firstColumns
    {k : Nat}
    (ht : db.tables[Ident.of "observations"]? = some t)
    (hkey : t.key = "id")
    (hcolumns :
      t.columns =
        v1Columns ++
          (featureColumns.take k).map fun c =>
            Column.nullable c.1 c.2) :
    addFeatureColumns db =
      .ok ()
        { db with
          tables :=
            db.tables.insert (.of "observations")
              (t.addColumns (featureColumns.drop k)) } := by
  have hnames :
      t.columnNames =
        "id" ::
          (v1Columns ++
            (featureColumns.take k).map fun c =>
              Column.nullable c.1 c.2).map Column.name := by
    rw [Table.columnNames, hkey, hcolumns]
  have hexisting : existingColumns db = t.columnNames := by
    rw [existingColumns, ht]
  have hmissing := filter_featureColumns k
  rw [← hnames] at hmissing
  have hidents :
      t.columnIdents =
        .of "id" ::
          (v1Columns ++
            (featureColumns.take k).map fun c =>
              Column.nullable c.1 c.2).map Column.ident := by
    rw [Table.columnIdents, hnames, List.map_cons, List.map_map]
    rfl
  have hbatch :=
    @executeBatch_addColumns ρ db t "observations"
      (featureColumns.drop k) ht
      (by
        intro c hc
        rw [hidents]
        exact ident_notMem_of_mem_drop hc)
      (((List.drop_sublist k featureColumns).map
        fun c => Ident.of c.1).nodup (by decide +kernel))
  change addMissing (existingColumns db) featureColumns db = _
  rw [addMissing_eq, hexisting, hmissing]
  exact mapSqlite_of_ok hbatch

/-- A complete store is opened without any change. -/
theorem Complete.open_eq
    (h : Complete db t) :
    FeedbackStore.open db = .ok () db := by
  have hmem : .of "observations" ∈ db.tables := mem_of_getElem? h.table
  have hschema : executeBatch schemaV1 db = .ok () db := by
    unfold schemaV1
    have htable :
        (Statement.createTable "observations" "id" v1Columns).apply
            db =
          .ok db := by
      simp only [Statement.apply, if_pos hmem]
    have htemplate :
        (Statement.createIndex "idx_obs_template" "observations"
            "template_hash").apply db =
          .ok db := by
      simp only [Statement.apply, h.table, if_neg h.templateName,
        if_pos h.templateIndex]
    have hplan :
        (Statement.createIndex "idx_obs_plan" "observations"
            "plan_fingerprint").apply db =
          .ok db := by
      simp only [Statement.apply, h.table, if_neg h.planName,
        if_pos h.planIndex]
    rw [executeBatch_cons_of_ok htable,
      executeBatch_cons_of_ok htemplate, executeBatch_cons_of_ok hplan]
    rfl
  have hversion :
      checkOrStampSchemaVersion db = .ok () db := by
    have hle : db.userVersion ≤ schemaUserVersion := by
      rw [h.version]
      exact Int32.le_refl _
    rw [checkOrStamp_of_le hle, ← h.version]
  have hfeatures : addFeatureColumns db = .ok () db := by
    have hall :=
      addFeatureColumns_of_firstColumns (k := 6) h.table h.key
        (by
          rw [h.columns, storeColumns,
            List.take_of_length_le (by simp [featureColumns])])
    have hsame : t.addColumns (featureColumns.drop 6) = t := rfl
    rw [hall, hsame, insert_of_getElem? h.table]
  unfold FeedbackStore.open
  rw [bind_of_ok (mapSqlite_of_ok hschema), bind_of_ok hversion,
    hfeatures]

/-- Opening an earlier store completes it and keeps what was there. -/
theorem open_of_earlier
    (h : FromEarlierRelease db) :
    ∃ db' t',
      FeedbackStore.open db = .ok () db' ∧
        Complete db' t' ∧
        Upgraded db (storeTable db) db' t' := by
  obtain ⟨indexes, hschema, htemplate, hplan, hkept⟩ :=
    schemaV1_of_earlier h
  obtain ⟨hkey, k, hcolumns⟩ :
      (storeTable db).key = "id" ∧
        ∃ k,
          (storeTable db).columns =
            v1Columns ++
              (featureColumns.take k).map fun c =>
                Column.nullable c.1 c.2 := by
    unfold storeTable
    cases ht : db.tables[Ident.of "observations"]? with
    | none => exact ⟨rfl, 0, by simp [Table.empty]⟩
    | some t => exact h.table t ht
  have hfeatures :=
    @addFeatureColumns_of_firstColumns ρ
      { tables := db.tables.insert (.of "observations") (storeTable db)
        indexes := indexes
        userVersion := schemaUserVersion }
      (storeTable db) k (by simp) hkey hcolumns
  have hversion :=
    @checkOrStamp_of_le ρ
      { tables := db.tables.insert (.of "observations") (storeTable db)
        indexes := indexes
        userVersion := db.userVersion }
      h.version
  refine
    ⟨_, (storeTable db).addColumns (featureColumns.drop k),
      (bind_of_ok (mapSqlite_of_ok hschema)).trans
        ((bind_of_ok hversion).trans hfeatures), ?_, ?_⟩
  · constructor
    · simp
    · rw [Table.key_addColumns, hkey]
    · rw [Table.columns_addColumns, hcolumns, storeColumns,
        List.append_assoc, ← List.map_append, List.take_append_drop]
    · simpa [observations_ne_template] using h.templateName
    · simpa [observations_ne_plan] using h.planName
    · exact htemplate
    · exact hplan
    · rfl
  · constructor
    · exact ⟨_, Table.rows_addColumns _ _⟩
    · exact Table.sequence_addColumns _ _
    · intro name hname
      have hne : compare (Ident.of "observations") name ≠ .eq := by
        rw [ne_eq, Std.LawfulEqCmp.compare_eq_iff_eq]
        exact fun hsame => hname hsame.symm
      simp [Std.ExtTreeMap.getElem?_insert, hne]
    · exact hkept

end Earlier

section Newer

theorem schemaV1_creates :
    ∀ s ∈ schemaV1, s.Creates := by
  simp [schemaV1, Statement.Creates]

/-- A newer store is refused as the schema script has left it. -/
theorem open_of_newer
    (h : schemaUserVersion < db.userVersion) :
    ∃ e,
      FeedbackStore.open db =
        .error e (stateAfter (executeBatch schemaV1) db) := by
  have hversion :=
    userVersion_stateAfter_executeBatch schemaV1_creates db
  unfold FeedbackStore.open
  cases hrun : executeBatch schemaV1 db with
  | error e db' =>
      refine ⟨.feedback e, ?_⟩
      rw [bind_of_error (mapSqlite_of_error hrun), stateAfter, hrun]
  | ok u db' =>
      have hstate : stateAfter (executeBatch schemaV1) db = db' := by
        rw [stateAfter, hrun]
      rw [hstate] at hversion
      rw [← hversion] at h
      refine ⟨newerVersion db'.userVersion, ?_⟩
      rw [bind_of_ok (mapSqlite_of_ok hrun),
        bind_of_error (checkOrStamp_of_lt h), hstate]

/-- An index statement that fails: the name or the column is in the way. -/
def IndexFails
    (db : Database ρ)
    (t : Table ρ)
    (name column : String) : Prop :=
  .of name ∈ db.tables ∨
    .of name ∉ db.indexes ∧ .of column ∉ t.columnIdents

/--
The schema script has nothing to create before it ends or fails: an index has
the name of the table, or the table is there and each index is there too or
its statement fails.
-/
def NothingToCreate (db : Database ρ) : Prop :=
  match db.tables[Ident.of "observations"]? with
  | none => .of "observations" ∈ db.indexes
  | some t =>
      IndexFails db t "idx_obs_template" "template_hash" ∨
        .of "idx_obs_template" ∈ db.indexes ∧
          (IndexFails db t "idx_obs_plan" "plan_fingerprint" ∨
            .of "idx_obs_plan" ∈ db.indexes)

/-- An index statement is quiet when it fails or finds its index. -/
theorem quiet_createIndex_iff
    {name column : String}
    {rest : List Statement}
    (ht : db.tables[Ident.of "observations"]? = some t) :
    Quiet db (.createIndex name "observations" column :: rest) ↔
      IndexFails db t name column ∨
        .of name ∈ db.indexes ∧ Quiet db rest := by
  by_cases htable : .of name ∈ db.tables
  · have hfails : IndexFails db t name column := Or.inl htable
    simp only [hfails, true_or, iff_true]
    apply quiet_cons_of_error
    simp only [Statement.apply, ht, if_pos htable]
    rfl
  · by_cases hindex : .of name ∈ db.indexes
    · have hpasses : ¬ IndexFails db t name column := by
        simp [IndexFails, htable, hindex]
      have happly :
          (Statement.createIndex name "observations" column).apply
              db =
            .ok db := by
        simp only [Statement.apply, ht, if_neg htable, if_pos hindex]
      simp [quiet_cons_of_ok happly, hpasses, hindex]
    · by_cases hcolumn : .of column ∈ t.columnIdents
      · have happly :
            (Statement.createIndex name "observations" column).apply
                db =
              .ok
                { db with
                  indexes :=
                    db.indexes.insert (.of name)
                      ⟨.of "observations", .of column⟩ } := by
          simp only [Statement.apply, ht, if_neg htable,
            if_neg hindex, if_pos hcolumn]
        rw [quiet_cons_of_ok happly]
        simp only [IndexFails, htable, hindex, hcolumn, not_true,
          and_false, false_and, or_self, iff_false, not_and]
        intro hsame
        -- the index would have been there before
        rw [← congrArg Database.indexes hsame] at hindex
        exact absurd Std.ExtTreeMap.mem_insert_self hindex
      · have hfails : IndexFails db t name column :=
          Or.inr ⟨hindex, hcolumn⟩
        simp only [hfails, true_or, iff_true]
        apply quiet_cons_of_error
        simp only [Statement.apply, ht, if_neg htable, if_neg hindex,
          if_neg hcolumn]
        rfl

/-- The script is quiet exactly when it has nothing to create. -/
theorem quiet_schemaV1_iff :
    Quiet db schemaV1 ↔ NothingToCreate db := by
  unfold schemaV1 NothingToCreate
  cases ht : db.tables[Ident.of "observations"]? with
  | none =>
      have htable : .of "observations" ∉ db.tables := by
        simpa using ht
      by_cases hindex : .of "observations" ∈ db.indexes
      · simp only [hindex, iff_true]
        apply quiet_cons_of_error
        simp only [Statement.apply, if_neg htable, if_pos hindex]
        rfl
      · have happly :
            (Statement.createTable "observations" "id"
                v1Columns).apply db =
              .ok
                { db with
                  tables :=
                    db.tables.insert (.of "observations")
                      (.empty "id" v1Columns) } := by
          simp only [Statement.apply, if_neg htable, if_neg hindex]
        rw [quiet_cons_of_ok happly]
        simp only [hindex, iff_false, not_and]
        intro hsame
        rw [← congrArg Database.tables hsame] at htable
        exact absurd Std.ExtTreeMap.mem_insert_self htable
  | some t =>
      have htable : .of "observations" ∈ db.tables := mem_of_getElem? ht
      have happly :
          (Statement.createTable "observations" "id" v1Columns).apply
              db =
            .ok db := by
        simp only [Statement.apply, if_pos htable]
      rw [quiet_cons_of_ok happly, quiet_createIndex_iff ht,
        quiet_createIndex_iff ht]
      simp [Quiet]

/--
What opening should do: refuse a newer store and leave it exactly as it was;
complete an earlier one, keep what it holds, and do nothing the next time.
-/
def OpensSafely (db : Database ρ) : Prop :=
  (schemaUserVersion < db.userVersion →
    ∃ e, FeedbackStore.open db = .error e db) ∧
  (FromEarlierRelease db →
    ∃ db' t',
      FeedbackStore.open db = .ok () db' ∧
      db'.userVersion = schemaUserVersion ∧
      db'.tables[Ident.of "observations"]? = some t' ∧
      (∀ c ∈ featureColumns, c.1 ∈ t'.columnNames) ∧
      Upgraded db (storeTable db) db' t' ∧
      FeedbackStore.open db' = .ok () db')

/-- A store of version 2 with nothing in it. -/
def newerStore : Database Unit where
  tables := ∅
  indexes := ∅
  userVersion := 2

/-- It is refused, and has the table all the same. -/
theorem newerStore_not_opensSafely :
    ¬ OpensSafely newerStore := by
  rintro ⟨hnewer, _⟩
  obtain ⟨e, hrun⟩ := hnewer (by decide)
  obtain ⟨e', hrun'⟩ :=
    @open_of_newer Unit newerStore (by decide)
  rw [hrun] at hrun'
  injection hrun' with _ hstate
  have hquiet :=
    (executeBatch_state_eq_iff schemaV1_creates newerStore).mp
      hstate.symm
  rw [quiet_schemaV1_iff] at hquiet
  have hindex : .of "observations" ∈ newerStore.indexes := hquiet
  simp [newerStore] at hindex

/--
**A store is opened safely exactly when it is not newer or has nothing that the
schema script would create.**
-/
theorem opensSafely_iff
    (db : Database ρ) :
    OpensSafely db ↔
      (schemaUserVersion < db.userVersion → NothingToCreate db) := by
  constructor
  · rintro ⟨hnewer, _⟩ hversion
    obtain ⟨e, hrun⟩ := hnewer hversion
    obtain ⟨e', hrun'⟩ := open_of_newer hversion
    rw [hrun] at hrun'
    injection hrun' with _ hstate
    rw [← quiet_schemaV1_iff,
      ← executeBatch_state_eq_iff schemaV1_creates]
    exact hstate.symm
  · intro hquiet
    refine ⟨fun hversion => ?_, fun hearlier => ?_⟩
    · obtain ⟨e, hrun⟩ := open_of_newer hversion
      have hstate :=
        (executeBatch_state_eq_iff schemaV1_creates db).mpr
          (quiet_schemaV1_iff.mpr (hquiet hversion))
      rw [hstate] at hrun
      exact ⟨e, hrun⟩
    · obtain ⟨db', t', hrun, hcomplete, hkept⟩ :=
        open_of_earlier hearlier
      refine
        ⟨db', t', hrun, hcomplete.version, hcomplete.table, ?_, hkept,
          hcomplete.open_eq⟩
      intro c hc
      refine List.mem_cons_of_mem _ ?_
      rw [hcomplete.columns, storeColumns, List.map_append,
        List.map_map]
      exact
        List.mem_append_right _
          (List.mem_map.mpr ⟨c, hc, rfl⟩)

end Newer

end FeedbackStore

end Samkhya
