import Mathlib

/-!
# A small relational store

Tables with named columns, indexes, a user version, and statements in the
manner of SQLite.  Names of tables, indexes and columns are the same when they
differ in ASCII case alone; a schema reports them as they were spelled.  Every
table has a row id that the store chooses, one above the largest that was ever
used.  A table carries what the storage layer keeps: a value for every column,
and rows in the order of their ids.

A failing statement leaves the database alone, a batch stops at the first
failure, and what ran before it stays.  Statements that only create can
therefore leave a batch unchanged only by having nothing to create
(`executeBatch_state_eq_iff`).
-/

namespace Samkhya
namespace Sqlite

variable {ρ : Type}

theorem toLower_toLower
    (c : Char) :
    c.toLower.toLower = c.toLower := by
  unfold Char.toLower
  split_ifs <;> grind

/-- An identifier, without its ASCII case. -/
structure Ident where
  letters : List Char
  folded : ∀ c ∈ letters, c.toLower = c
deriving DecidableEq

namespace Ident

/-- The identifier that a spelling stands for. -/
def of (s : String) : Ident where
  letters := s.toList.map Char.toLower
  folded := by
    intro c hc
    obtain ⟨d, _, rfl⟩ := List.mem_map.mp hc
    exact toLower_toLower d

example : of "IDX_OBS_PLAN" = of "idx_obs_plan" := by decide +kernel

instance : Ord Ident :=
  ⟨compareOn letters⟩

instance : Std.TransOrd Ident :=
  inferInstanceAs (Std.TransCmp (compareOn letters))

instance : Std.LawfulEqOrd Ident where
  eq_of_compare := by
    intro a b h
    have hletters : a.letters = b.letters :=
      Std.LawfulEqOrd.eq_of_compare h
    cases a
    cases b
    cases hletters
    rfl

end Ident

/-- A stored value; reals are opaque. -/
inductive Value (ρ : Type)
  | null
  | integer (n : Int64)
  | real (r : ρ)
  | text (s : String)
  | blob (bytes : List UInt8)
deriving DecidableEq

def Value.isNull : Value ρ → Bool
  | null => true
  | _ => false

/-- What a column that is not written takes. -/
inductive DefaultValue
  | null
  -- `datetime('now')`
  | now
deriving DecidableEq

/-- A column other than the row id. -/
structure Column where
  name : String
  type : String
  notNull : Bool
  default : DefaultValue
deriving DecidableEq

def Column.ident (c : Column) : Ident :=
  .of c.name

/-- A column that may be missing from a row. -/
def Column.nullable (name type : String) : Column where
  name := name
  type := type
  notNull := false
  default := .null

structure StoredRow (ρ : Type) where
  id : Int64
  values : List (Value ρ)
deriving DecidableEq

/--
A table: the name of its row id, the other columns, the rows, and the largest
row id ever used.
-/
@[ext] structure Table (ρ : Type) where
  key : String
  columns : List Column
  rows : List (StoredRow ρ)
  sequence : Int64
  aligned : ∀ row ∈ rows, row.values.length = columns.length
  increasing : rows.Pairwise (fun a b => a.id < b.id)
  bounded : ∀ row ∈ rows, row.id ≤ sequence

namespace Table

/-- A new table. -/
def empty (key : String) (columns : List Column) : Table ρ where
  key := key
  columns := columns
  rows := []
  sequence := 0
  aligned := by simp
  increasing := List.Pairwise.nil
  bounded := by simp

/-- `PRAGMA table_info`: the names as they were spelled. -/
def columnNames (t : Table ρ) : List String :=
  t.key :: t.columns.map Column.name

/-- What a statement can call the columns by. -/
def columnIdents (t : Table ρ) : List Ident :=
  t.columnNames.map .of

/-- Add a nullable column; the rows have nothing in it. -/
def addColumn (t : Table ρ) (name type : String) : Table ρ where
  key := t.key
  columns := t.columns ++ [Column.nullable name type]
  rows :=
    t.rows.map (fun row => { row with values := row.values ++ [.null] })
  sequence := t.sequence
  aligned := by
    intro row hrow
    obtain ⟨old, hold, rfl⟩ := List.mem_map.mp hrow
    simp [t.aligned old hold]
  increasing := by
    rw [List.pairwise_map]
    exact t.increasing
  bounded := by
    intro row hrow
    obtain ⟨old, hold, rfl⟩ := List.mem_map.mp hrow
    exact t.bounded old hold

/-- Append a row under an id that is above all others. -/
def push
    (t : Table ρ)
    (id : Int64)
    (values : List (Value ρ))
    (hid : t.sequence < id)
    (hlength : values.length = t.columns.length) : Table ρ where
  key := t.key
  columns := t.columns
  rows := t.rows ++ [⟨id, values⟩]
  sequence := id
  aligned := by
    intro row hrow
    rcases List.mem_append.mp hrow with hrow | hrow
    · exact t.aligned row hrow
    · rw [List.mem_singleton.mp hrow]
      exact hlength
  increasing := by
    rw [List.pairwise_append]
    refine ⟨t.increasing, List.pairwise_singleton _ _, ?_⟩
    intro a ha b hb
    rw [List.mem_singleton.mp hb]
    exact Int64.lt_of_le_of_lt (t.bounded a ha) hid
  bounded := by
    intro row hrow
    rcases List.mem_append.mp hrow with hrow | hrow
    · exact
        Int64.le_of_lt (Int64.lt_of_le_of_lt (t.bounded row hrow) hid)
    · rw [List.mem_singleton.mp hrow]
      exact Int64.le_refl id

end Table

/-- An index on one column of a table. -/
structure Index where
  table : Ident
  column : Ident
deriving DecidableEq

/-- Tables and indexes by name, and the user version. -/
@[ext] structure Database (ρ : Type) where
  tables : Std.ExtTreeMap Ident (Table ρ)
  indexes : Std.ExtTreeMap Ident Index
  userVersion : Int32

/-- A database file that was just made. -/
def Database.empty : Database ρ where
  tables := ∅
  indexes := ∅
  userVersion := 0

/-- Statements over a database. -/
abbrev SqlM (ρ : Type) := EStateM String (Database ρ)

/-- The statements that change the schema or the user version. -/
inductive Statement
  -- `CREATE TABLE IF NOT EXISTS`
  | createTable (name key : String) (columns : List Column)
  -- `CREATE INDEX IF NOT EXISTS`
  | createIndex (name table column : String)
  -- `ALTER TABLE ADD COLUMN`
  | addColumn (table name type : String)
  -- `PRAGMA user_version =`
  | setUserVersion (n : Int32)

/-- What a statement makes of a database. -/
def Statement.apply
    (db : Database ρ) : Statement → Except String (Database ρ)
  | createTable name key columns =>
      if .of name ∈ db.tables then
        .ok db
      else if .of name ∈ db.indexes then
        .error ("there is already an index named " ++ name)
      else
        .ok
          { db with
            tables := db.tables.insert (.of name) (.empty key columns) }
  | createIndex name table column =>
      match db.tables[Ident.of table]? with
      | none => .error ("no such table: main." ++ table)
      | some t =>
          if .of name ∈ db.tables then
            .error ("there is already a table named " ++ name)
          else if .of name ∈ db.indexes then
            .ok db
          else if .of column ∈ t.columnIdents then
            .ok
              { db with
                indexes :=
                  db.indexes.insert (.of name)
                    ⟨.of table, .of column⟩ }
          else
            .error
              ("table " ++ table ++ " has no column named " ++ column)
  | addColumn table name type =>
      match db.tables[Ident.of table]? with
      | none => .error ("no such table: " ++ table)
      | some t =>
          if .of name ∈ t.columnIdents then
            .error ("duplicate column name: " ++ name)
          else
            .ok
              { db with
                tables :=
                  db.tables.insert (.of table)
                    (t.addColumn name type) }
  | setUserVersion n => .ok { db with userVersion := n }

/-- Run one statement; a failing one changes nothing. -/
def exec (s : Statement) : SqlM ρ Unit := fun db =>
  match s.apply db with
  | .ok db' => .ok () db'
  | .error e => .error e db

/-- `execute_batch`: one statement after the other, up to a failure. -/
def executeBatch : List Statement → SqlM ρ Unit
  | [] => pure ()
  | s :: rest => do
      exec s
      executeBatch rest

/-- The value of a column in a new row. -/
def columnValue
    (now : String)
    (given : List (String × Value ρ))
    (c : Column) : Value ρ :=
  match given.find? fun g => Ident.of g.1 = c.ident with
  | some g => g.2
  | none =>
      match c.default with
      | .null => .null
      | .now => .text now

/-- The first column that must not be null and would be. -/
def nullViolation
    (now : String)
    (given : List (String × Value ρ))
    (columns : List Column) : Option Column :=
  columns.find? fun c =>
    c.notNull && (columnValue now given c).isNull

/-- `INSERT` with the id left to the store, and `last_insert_rowid`. -/
def insert
    (table now : String)
    (given : List (String × Value ρ)) : SqlM ρ Int64 := fun db =>
  match db.tables[Ident.of table]? with
  | none => .error ("no such table: " ++ table) db
  | some t =>
      match
        given.find? fun g => Ident.of g.1 ∉ t.columns.map Column.ident
      with
      | some g =>
          .error
            ("table " ++ table ++ " has no column named " ++ g.1) db
      | none =>
          match nullViolation now given t.columns with
          | some c =>
              .error
                ("NOT NULL constraint failed: " ++ table ++ "." ++
                  c.name)
                db
          | none =>
              if hid : t.sequence < t.sequence + 1 then
                .ok (t.sequence + 1)
                  { db with
                    tables :=
                      db.tables.insert (.of table)
                        (t.push (t.sequence + 1)
                          (t.columns.map (columnValue now given)) hid
                          (List.length_map _)) }
              else
                .error "database or disk is full" db

/-- Conditions of a query. -/
inductive WhereClause
  | equals (column text : String)
  | isNotNull (column : String)
  | and (a b : WhereClause)

def WhereClause.columns : WhereClause → List String
  | equals column _ => [column]
  | isNotNull column => [column]
  | and a b => a.columns ++ b.columns

/-- A value of a row by the name of its column. -/
def Table.cell (t : Table ρ) (row : StoredRow ρ) (name : String) : Value ρ :=
  if Ident.of name = .of t.key then
    .integer row.id
  else
    match t.columns.findIdx? (fun c => c.ident = .of name) with
    | some i => row.values.getD i .null
    | none => .null

def WhereClause.holds
    (t : Table ρ)
    (row : StoredRow ρ) : WhereClause → Bool
  | equals column text =>
      match t.cell row column with
      | .text s => s = text
      | _ => false
  | isNotNull column => !(t.cell row column).isNull
  | and a b => a.holds t row && b.holds t row

/-- `SELECT .. FROM .. WHERE .. ORDER BY` the row id. -/
def select
    (table : String)
    (columns : List String)
    (condition : WhereClause)
    (db : Database ρ) : Except String (List (List (Value ρ))) :=
  match db.tables[Ident.of table]? with
  | none => .error ("no such table: " ++ table)
  | some t =>
      match
        (columns ++ condition.columns).find? fun c =>
          Ident.of c ∉ t.columnIdents
      with
      | some c => .error ("no such column: " ++ c)
      | none =>
          let rows :=
            (t.rows.filter (condition.holds t)).mergeSort
              (fun a b => a.id ≤ b.id)
          .ok (rows.map fun row => columns.map (t.cell row))

/-- `SELECT COUNT(*) FROM`. -/
def countRows
    (table : String)
    (db : Database ρ) : Except String Int64 :=
  match db.tables[Ident.of table]? with
  | none => .error ("no such table: " ++ table)
  | some t => .ok (Int64.ofNat t.rows.length)

section Names

variable {β : Type} {m : Std.ExtTreeMap Ident β} {name : Ident} {v : β}

theorem mem_of_getElem?
    (h : m[name]? = some v) :
    name ∈ m :=
  (Std.ExtTreeMap.getElem?_eq_some_iff.mp h).fst

/-- Storing what is there changes nothing. -/
theorem insert_of_getElem?
    (h : m[name]? = some v) :
    m.insert name v = m := by
  apply Std.ExtTreeMap.ext_getElem?
  intro other
  rw [Std.ExtTreeMap.getElem?_insert]
  split_ifs with hsame
  · rw [Std.LawfulEqCmp.compare_eq_iff_eq] at hsame
    rw [← hsame, h]
  · rfl

/-- The later of two values is kept. -/
theorem insert_insert
    (m : Std.ExtTreeMap Ident β)
    (name : Ident)
    (v w : β) :
    (m.insert name v).insert name w = m.insert name w := by
  apply Std.ExtTreeMap.ext_getElem?
  intro other
  simp only [Std.ExtTreeMap.getElem?_insert]
  split_ifs
  · rfl
  · rfl

end Names

section Execution

variable {db db' : Database ρ} {s : Statement} {e : String}

theorem exec_of_ok
    (h : s.apply db = .ok db') :
    exec s db = .ok () db' := by
  rw [exec, h]

theorem exec_of_error
    (h : s.apply db = .error e) :
    exec s db = .error e db := by
  rw [exec, h]

theorem executeBatch_cons_of_ok
    {rest : List Statement}
    (h : s.apply db = .ok db') :
    executeBatch (s :: rest) db = executeBatch rest db' := by
  change EStateM.bind (exec s) (fun _ => executeBatch rest) db = _
  rw [EStateM.bind, exec_of_ok h]

theorem executeBatch_cons_of_error
    {rest : List Statement}
    (h : s.apply db = .error e) :
    executeBatch (s :: rest) db = .error e db := by
  change EStateM.bind (exec s) (fun _ => executeBatch rest) db = _
  rw [EStateM.bind, exec_of_error h]

/-- The database that a program leaves, however it ends. -/
def stateAfter
    {ε α : Type}
    (m : EStateM ε (Database ρ) α)
    (db : Database ρ) : Database ρ :=
  match m db with
  | .ok _ db' => db'
  | .error _ db' => db'

/-- A statement that creates what is missing. -/
def Statement.Creates : Statement → Prop
  | createTable _ _ _ => True
  | createIndex _ _ _ => True
  | _ => False

/-- Every name of a database is one of the other. -/
structure Database.Extends (db db' : Database ρ) : Prop where
  tables : ∀ name ∈ db.tables, name ∈ db'.tables
  indexes : ∀ name ∈ db.indexes, name ∈ db'.indexes

theorem Database.Extends.trans
    {db'' : Database ρ}
    (h : db.Extends db')
    (h' : db'.Extends db'') :
    db.Extends db'' where
  tables name hname := h'.tables name (h.tables name hname)
  indexes name hname := h'.indexes name (h.indexes name hname)

/-- A creating statement has no effect, or adds a name. -/
theorem Statement.Creates.cases
    (hs : s.Creates)
    (h : s.apply db = .ok db') :
    db' = db ∨ db.Extends db' ∧ ¬ db'.Extends db := by
  cases s with
  | createTable name key columns =>
      simp only [Statement.apply] at h
      split_ifs at h with htable hindex
      · exact Or.inl (Except.ok.inj h).symm
      · obtain rfl := Except.ok.inj h
        refine Or.inr ⟨⟨?_, fun _ h => h⟩, fun hback => ?_⟩
        · intro other hother
          simp [hother]
        · exact htable (hback.tables (.of name) (by simp))
  | createIndex name table column =>
      simp only [Statement.apply] at h
      split at h
      · cases h
      · split_ifs at h with htable hindex hcolumn
        · exact Or.inl (Except.ok.inj h).symm
        · obtain rfl := Except.ok.inj h
          refine Or.inr ⟨⟨fun _ h => h, ?_⟩, fun hback => ?_⟩
          · intro other hother
            simp [hother]
          · exact hindex (hback.indexes (.of name) (by simp))
  | addColumn table name type => exact hs.elim
  | setUserVersion n => exact hs.elim

theorem Statement.Creates.userVersion_eq
    (hs : s.Creates)
    (h : s.apply db = .ok db') :
    db'.userVersion = db.userVersion := by
  cases s with
  | createTable name key columns =>
      simp only [Statement.apply] at h
      split_ifs at h
      · rw [Except.ok.inj h]
      · rw [← Except.ok.inj h]
  | createIndex name table column =>
      simp only [Statement.apply] at h
      split at h
      · cases h
      · split_ifs at h
        · rw [Except.ok.inj h]
        · rw [← Except.ok.inj h]
  | addColumn table name type => exact hs.elim
  | setUserVersion n => exact hs.elim

/-- Creating leaves the user version alone. -/
theorem userVersion_stateAfter_executeBatch
    {batch : List Statement}
    (hbatch : ∀ s ∈ batch, s.Creates)
    (db : Database ρ) :
    (stateAfter (executeBatch batch) db).userVersion =
      db.userVersion := by
  induction batch generalizing db with
  | nil =>
      rfl
  | cons s rest ih =>
      have hrest := ih fun t ht => hbatch t (List.mem_cons_of_mem s ht)
      cases happly : s.apply db with
      | error e =>
          rw [stateAfter, executeBatch_cons_of_error happly]
      | ok db' =>
          rw [stateAfter, executeBatch_cons_of_ok happly, ← stateAfter,
            hrest db']
          exact (hbatch s List.mem_cons_self).userVersion_eq happly

/-- A batch of creating statements only adds names. -/
theorem extends_stateAfter_executeBatch
    {batch : List Statement}
    (hbatch : ∀ s ∈ batch, s.Creates)
    (db : Database ρ) :
    db.Extends (stateAfter (executeBatch batch) db) := by
  induction batch generalizing db with
  | nil =>
      exact ⟨fun _ h => h, fun _ h => h⟩
  | cons s rest ih =>
      have hrest := ih fun t ht => hbatch t (List.mem_cons_of_mem s ht)
      cases happly : s.apply db with
      | error e =>
          rw [stateAfter, executeBatch_cons_of_error happly]
          exact ⟨fun _ h => h, fun _ h => h⟩
      | ok db' =>
          rw [stateAfter, executeBatch_cons_of_ok happly, ← stateAfter]
          rcases (hbatch s List.mem_cons_self).cases happly with
            rfl | ⟨hextends, _⟩
          · exact hrest db'
          · exact hextends.trans (hrest db')

/-- Every statement of a batch finds nothing to create, up to a failure. -/
def Quiet (db : Database ρ) : List Statement → Prop
  | [] => True
  | s :: rest =>
      match s.apply db with
      | .error _ => True
      | .ok db' => db' = db ∧ Quiet db rest

theorem quiet_cons_of_error
    {rest : List Statement}
    (h : s.apply db = .error e) :
    Quiet db (s :: rest) := by
  rw [Quiet, h]
  trivial

theorem quiet_cons_of_ok
    {rest : List Statement}
    (h : s.apply db = .ok db') :
    Quiet db (s :: rest) ↔ db' = db ∧ Quiet db rest := by
  rw [Quiet, h]

/-- Creating statements leave a database alone only when it is quiet. -/
theorem executeBatch_state_eq_iff
    {batch : List Statement}
    (hbatch : ∀ s ∈ batch, s.Creates)
    (db : Database ρ) :
    stateAfter (executeBatch batch) db = db ↔ Quiet db batch := by
  induction batch with
  | nil =>
      exact ⟨fun _ => trivial, fun _ => rfl⟩
  | cons s rest ih =>
      have hrest : ∀ t ∈ rest, t.Creates :=
        fun t ht => hbatch t (List.mem_cons_of_mem s ht)
      cases happly : s.apply db with
      | error e =>
          rw [stateAfter, executeBatch_cons_of_error happly]
          simp [Quiet, happly]
      | ok db' =>
          rw [stateAfter, executeBatch_cons_of_ok happly, ← stateAfter]
          simp only [Quiet, happly]
          rcases (hbatch s List.mem_cons_self).cases happly with
            rfl | ⟨_, hnew⟩
          · rw [ih hrest]
            simp
          · have hextends :=
              extends_stateAfter_executeBatch hrest db'
            constructor
            · intro hsame
              rw [hsame] at hextends
              exact absurd hextends hnew
            · rintro ⟨rfl, _⟩
              exact absurd ⟨fun _ h => h, fun _ h => h⟩ hnew

end Execution

section Columns

namespace Table

variable {t : Table ρ}

/-- Add columns by name and type, in order. -/
def addColumns (t : Table ρ) (added : List (String × String)) : Table ρ :=
  added.foldl (fun t c => t.addColumn c.1 c.2) t

@[simp] theorem addColumns_nil : t.addColumns [] = t :=
  rfl

theorem key_addColumns
    (t : Table ρ)
    (added : List (String × String)) :
    (t.addColumns added).key = t.key := by
  induction added generalizing t with
  | nil => rfl
  | cons c added ih => exact ih _

theorem sequence_addColumns
    (t : Table ρ)
    (added : List (String × String)) :
    (t.addColumns added).sequence = t.sequence := by
  induction added generalizing t with
  | nil => rfl
  | cons c added ih => exact ih _

theorem columns_addColumns
    (t : Table ρ)
    (added : List (String × String)) :
    (t.addColumns added).columns =
      t.columns ++ added.map (fun c => Column.nullable c.1 c.2) := by
  induction added generalizing t with
  | nil =>
      simp
  | cons c added ih =>
      have hrest :
          t.addColumns (c :: added) =
            (t.addColumn c.1 c.2).addColumns added :=
        rfl
      rw [hrest, ih]
      simp [addColumn]

/-- The rows are kept, with nothing in the added columns. -/
theorem rows_addColumns
    (t : Table ρ)
    (added : List (String × String)) :
    (t.addColumns added).rows =
      t.rows.map fun row =>
        { row with
          values :=
            row.values ++ List.replicate added.length .null } := by
  induction added generalizing t with
  | nil =>
      simp
  | cons c added ih =>
      have hrest :
          t.addColumns (c :: added) =
            (t.addColumn c.1 c.2).addColumns added :=
        rfl
      rw [hrest, ih]
      simp [addColumn, List.replicate_succ]

end Table

/-- Adding columns whose names are free and distinct succeeds. -/
theorem executeBatch_addColumns
    {db : Database ρ}
    {t : Table ρ}
    {table : String}
    {added : List (String × String)}
    (ht : db.tables[Ident.of table]? = some t)
    (hfree : ∀ c ∈ added, Ident.of c.1 ∉ t.columnIdents)
    (hnodup : (added.map fun c => Ident.of c.1).Nodup) :
    executeBatch
        (added.map fun c => Statement.addColumn table c.1 c.2) db =
      .ok ()
        { db with
          tables :=
            db.tables.insert (.of table) (t.addColumns added) } := by
  induction added generalizing db t with
  | nil =>
      rw [Table.addColumns_nil, insert_of_getElem? ht]
      rfl
  | cons c added ih =>
      rw [List.map_cons, List.nodup_cons] at hnodup
      have happly :
          (Statement.addColumn table c.1 c.2).apply db =
            .ok
              { db with
                tables :=
                  db.tables.insert (.of table)
                    (t.addColumn c.1 c.2) } := by
        simp only [Statement.apply, ht]
        rw [if_neg (hfree c List.mem_cons_self)]
      rw [List.map_cons, executeBatch_cons_of_ok happly,
        ih (t := t.addColumn c.1 c.2) (by simp) ?_ hnodup.2]
      · rw [insert_insert]
        rfl
      · intro d hd hmem
        have hold := hfree d (List.mem_cons_of_mem c hd)
        have hne : Ident.of d.1 ≠ .of c.1 := by
          intro hsame
          apply hnodup.1
          rw [← hsame]
          exact List.mem_map_of_mem hd
        have hidents :
            (t.addColumn c.1 c.2).columnIdents =
              t.columnIdents ++ [Ident.of c.1] := by
          simp [Table.columnIdents, Table.columnNames, Table.addColumn,
            Column.nullable]
        rw [hidents, List.mem_append, List.mem_singleton] at hmem
        rcases hmem with hmem | hmem
        · exact hold hmem
        · exact hne hmem

end Columns

section Queries

variable {db : Database ρ} {t : Table ρ} {table : String}

/-- A column's cell is the value at its place. -/
theorem Table.cell_of_getElem?
    (hnodup : t.columnIdents.Nodup)
    {i : Nat}
    {c : Column}
    (hc : t.columns[i]? = some c)
    (row : StoredRow ρ) :
    t.cell row c.name = row.values.getD i .null := by
  have hidents :
      t.columnIdents = .of t.key :: t.columns.map Column.ident := by
    simp [Table.columnIdents, Table.columnNames, Column.ident]
  rw [hidents] at hnodup
  obtain ⟨hkey, hnames⟩ := List.nodup_cons.mp hnodup
  obtain ⟨hi, hget⟩ := List.getElem?_eq_some_iff.mp hc
  have hne : Ident.of c.name ≠ .of t.key := by
    intro hsame
    rw [← hsame, ← hget] at hkey
    exact hkey (List.mem_map_of_mem (List.getElem_mem hi))
  have hfind :
      t.columns.findIdx? (fun d => d.ident = .of c.name) = some i := by
    rw [List.findIdx?_eq_some_iff_getElem]
    refine ⟨hi, by simp [hget, Column.ident], fun j hji => ?_⟩
    have hdistinct :=
      List.pairwise_iff_getElem.mp (List.pairwise_map.mp hnames) j i
        (hji.trans hi) hi hji
    rw [hget] at hdistinct
    rw [decide_eq_true_eq]
    exact hdistinct
  simp only [Table.cell, if_neg hne, hfind]

/-- All cells of a row, column by column. -/
theorem Table.map_cell_columns
    (hnodup : t.columnIdents.Nodup)
    {row : StoredRow ρ}
    (hlength : row.values.length = t.columns.length) :
    (t.columns.map Column.name).map (t.cell row) = row.values := by
  rw [List.map_map]
  apply List.ext_getElem
  · rw [List.length_map, hlength]
  · intro i hi hi'
    have hget : i < t.columns.length := by simpa using hi
    rw [List.getElem_map, Function.comp_apply,
      Table.cell_of_getElem? hnodup (List.getElem?_eq_getElem hget) row,
      List.getD_eq_getElem _ _ hi']

/-- A query of known columns reads the matching rows in their order. -/
theorem select_eq
    {columns : List String}
    {condition : WhereClause}
    (ht : db.tables[Ident.of table]? = some t)
    (hknown :
      ∀ c ∈ columns ++ condition.columns,
        Ident.of c ∈ t.columnIdents) :
    select table columns condition db =
      .ok
        ((t.rows.filter (condition.holds t)).map fun row =>
          columns.map (t.cell row)) := by
  have hfind :
      (columns ++ condition.columns).find?
          (fun c => Ident.of c ∉ t.columnIdents) = none := by
    rw [List.find?_eq_none]
    intro c hc
    simpa using hknown c hc
  have hsorted :
      (t.rows.filter (condition.holds t)).mergeSort
          (fun a b => a.id ≤ b.id) =
        t.rows.filter (condition.holds t) := by
    apply List.mergeSort_of_pairwise
    refine (t.increasing.filter _).imp ?_
    intro a b hab
    simpa using Int64.le_of_lt hab
  unfold select
  rw [ht]
  simp only [hfind, hsorted]

/-- An insert of known columns appends a row, unless no id is left. -/
theorem insert_eq
    {now : String}
    {given : List (String × Value ρ)}
    (ht : db.tables[Ident.of table]? = some t)
    (hknown : ∀ g ∈ given, Ident.of g.1 ∈ t.columns.map Column.ident)
    (hnotNull : nullViolation now given t.columns = none) :
    (∃ t' : Table ρ,
      insert table now given db =
          .ok (t.sequence + 1)
            { db with tables := db.tables.insert (.of table) t' } ∧
        t'.key = t.key ∧ t'.columns = t.columns ∧
        t'.sequence = t.sequence + 1 ∧
        t.sequence < t.sequence + 1 ∧
        t'.rows =
          t.rows ++
            [⟨t.sequence + 1,
              t.columns.map (columnValue now given)⟩]) ∨
      insert table now given db =
          .error "database or disk is full" db ∧
        ¬ t.sequence < t.sequence + 1 := by
  have hfind :
      given.find? (fun g => Ident.of g.1 ∉ t.columns.map Column.ident) =
        none := by
    rw [List.find?_eq_none]
    intro g hg
    simpa using hknown g hg
  unfold insert
  rw [ht]
  simp only [hfind, hnotNull]
  split_ifs with hid
  · exact Or.inl ⟨_, rfl, rfl, rfl, rfl, hid, rfl⟩
  · exact Or.inr ⟨rfl, hid⟩

end Queries

end Sqlite
end Samkhya
