import CognitiveMemory.Lib.Prog
import Mathlib.Data.Rat.Defs

/-! `Store::run_migrations`: the schema of `data.db` and the five scripts that build it. Every
statement commits on its own. -/

namespace CognitiveMemory.Migrations

inductive Value
  | null
  | integer (n : Int)
  | real (q : ℚ)
  | text (s : String)
  | blob (b : List UInt8)
  deriving DecidableEq

/-- A column with the text of its definition and the default an added column gives old rows. -/
structure Column where
  name : String
  decl : String
  default : Value := .null
  deriving DecidableEq

structure Table where
  name : String
  columns : List Column
  constraints : List String
  /-- The module and its options, for a virtual table. -/
  module : Option String
  deriving DecidableEq

structure Index where
  name : String
  table : String
  columns : List String
  deriving DecidableEq

structure Trigger where
  name : String
  table : String
  event : String
  body : List String
  deriving DecidableEq

structure Catalog where
  tables : List Table
  indexes : List Index
  triggers : List Trigger
  deriving DecidableEq

inductive SchemaError
  | alreadyExists (name : String)
  | noSuchTable (name : String)
  | noSuchColumn (name : String)
  | duplicateColumn (name : String)
  | uniqueViolation
  deriving DecidableEq, Repr

abbrev Row := List (String × Value)

structure MigrationRow where
  version : ℕ
  name : String
  deriving DecidableEq

structure Database where
  catalog : Catalog
  rows : String → List Row
  migrations : List MigrationRow

/-- The statements the scripts are made of. -/
inductive Stmt
  | createTable (ifNotExists : Bool) (table : Table)
  | createIndex (index : Index)
  | createTrigger (trigger : Trigger)
  | addColumn (table : String) (column : Column)
  | copyColumn (table target source : String)
  deriving DecidableEq

namespace Catalog

def empty : Catalog := ⟨[], [], []⟩

def table? (c : Catalog) (name : String) : Option Table := c.tables.find? (·.name == name)

/-- Tables and indexes share one name space. -/
def hasObject (c : Catalog) (name : String) : Bool :=
  c.tables.any (·.name == name) || c.indexes.any (·.name == name)

def hasTrigger (c : Catalog) (name : String) : Bool := c.triggers.any (·.name == name)

def hasColumn (c : Catalog) (table column : String) : Bool :=
  c.tables.any fun t => t.name == table && t.columns.any (·.name == column)

def addColumn (c : Catalog) (table : String) (column : Column) : Catalog :=
  { c with tables := c.tables.map fun t =>
      if t.name == table then { t with columns := t.columns ++ [column] } else t }

end Catalog

/-- What a statement does to the schema, or why SQLite rejects it. -/
def Stmt.check (c : Catalog) : Stmt → Except SchemaError Catalog
  | .createTable ifNotExists t =>
    if c.hasObject t.name then (if ifNotExists then .ok c else .error (.alreadyExists t.name))
    else .ok { c with tables := c.tables ++ [t] }
  | .createIndex i =>
    if c.hasObject i.name then .error (.alreadyExists i.name)
    else if (c.table? i.table).isNone then .error (.noSuchTable i.table)
    else match i.columns.find? fun col => !c.hasColumn i.table col with
      | some col => .error (.noSuchColumn col)
      | none => .ok { c with indexes := c.indexes ++ [i] }
  | .createTrigger t =>
    if c.hasTrigger t.name then .error (.alreadyExists t.name)
    else if (c.table? t.table).isNone then .error (.noSuchTable t.table)
    else .ok { c with triggers := c.triggers ++ [t] }
  | .addColumn table col =>
    if (c.table? table).isNone then .error (.noSuchTable table)
    else if c.hasColumn table col.name then .error (.duplicateColumn col.name)
    else .ok (c.addColumn table col)
  | .copyColumn table target source =>
    if (c.table? table).isNone then .error (.noSuchTable table)
    else if !c.hasColumn table target then .error (.noSuchColumn target)
    else if !c.hasColumn table source then .error (.noSuchColumn source)
    else .ok c

def Row.copy (target source : String) (r : Row) : Row :=
  r.map fun cell => if cell.1 == target then (target, (r.lookup source).getD .null) else cell

def Database.mapRows (db : Database) (table : String) (f : Row → Row) : Database :=
  { db with rows := fun t => if t = table then (db.rows t).map f else db.rows t }

def Database.isMigrationApplied (db : Database) (version : ℕ) : Bool := db.migrations.any (·.version == version)

/-- What a statement does to the rows; the triggers fire on `memories` only, whose rows no
script writes. -/
def Stmt.effect (db : Database) : Stmt → Database
  | .addColumn table col => db.mapRows table (· ++ [(col.name, col.default)])
  | .copyColumn table target source => db.mapRows table (Row.copy target source)
  | _ => db

def Stmt.exec (s : Stmt) (db : Database) : Except SchemaError Database :=
  (s.check db.catalog).map fun catalog => s.effect { db with catalog := catalog }

def Database.insertMigration (db : Database) (row : MigrationRow) : Except SchemaError Database :=
  if (db.catalog.table? "schema_migrations").isNone then .error (.noSuchTable "schema_migrations")
  else if db.isMigrationApplied row.version then .error .uniqueViolation
  else .ok { db with migrations := db.migrations ++ [row] }

/-! ## The scripts -/

structure Migration where
  version : ℕ
  name : String
  sql : List Stmt

private def col (name decl : String) (default : Value := .null) : Column := ⟨name, decl, default⟩

private def createTable (name : String) (columns : List Column) (constraints : List String := []) : Stmt :=
  .createTable false ⟨name, columns, constraints, none⟩

private def createIndex (name table : String) (columns : List String) : Stmt := .createIndex ⟨name, table, columns⟩

def v1InitialSchema : List Stmt := [
  createTable "memories" [
    col "id" "TEXT PRIMARY KEY", col "user_id" "TEXT NOT NULL", col "content" "TEXT NOT NULL",
    col "category" "TEXT NOT NULL", col "memory_type" "TEXT NOT NULL", col "embedding" "BLOB",
    col "embedding_provider" "TEXT", col "embedding_model" "TEXT", col "created_at" "INTEGER NOT NULL",
    col "last_accessed_at" "INTEGER NOT NULL", col "valid_from" "INTEGER", col "valid_until" "INTEGER",
    col "ttl_seconds" "INTEGER", col "retention_floor" "REAL NOT NULL DEFAULT 0.0",
    col "retrieval_count" "INTEGER NOT NULL DEFAULT 0", col "metadata" "TEXT NOT NULL DEFAULT '{}'"],
  createIndex "idx_memories_user_id" "memories" ["user_id"],
  createIndex "idx_memories_user_category" "memories" ["user_id", "category"],
  createIndex "idx_memories_user_type" "memories" ["user_id", "memory_type"],
  createTable "associations" [
    col "source_memory_id" "TEXT NOT NULL REFERENCES memories(id) ON DELETE CASCADE",
    col "target_memory_id" "TEXT NOT NULL REFERENCES memories(id) ON DELETE CASCADE",
    col "weight" "REAL NOT NULL", col "kind" "TEXT NOT NULL", col "updated_at" "INTEGER NOT NULL"]
    ["PRIMARY KEY (source_memory_id, target_memory_id)"],
  createIndex "idx_associations_target" "associations" ["target_memory_id"],
  createTable "events" [
    col "id" "INTEGER PRIMARY KEY AUTOINCREMENT", col "kind" "TEXT NOT NULL", col "payload" "TEXT NOT NULL",
    col "occurred_at" "INTEGER NOT NULL"],
  createIndex "idx_events_kind_time" "events" ["kind", "occurred_at"],
  createTable "embedding_cache" [
    col "provider" "TEXT NOT NULL", col "model" "TEXT NOT NULL", col "text_hash" "BLOB NOT NULL",
    col "embedding" "BLOB NOT NULL", col "created_at" "INTEGER NOT NULL"]
    ["PRIMARY KEY (provider, model, text_hash)"],
  createTable "extractions" [
    col "input_hash" "BLOB NOT NULL", col "provider" "TEXT NOT NULL", col "model" "TEXT NOT NULL",
    col "output" "TEXT NOT NULL", col "created_at" "INTEGER NOT NULL"]
    ["PRIMARY KEY (input_hash, provider, model)"],
  createTable "kv" [col "namespace" "TEXT NOT NULL", col "key" "TEXT NOT NULL", col "value" "TEXT NOT NULL"]
    ["PRIMARY KEY (namespace, key)"]]

def v2Fts5 : List Stmt := [
  .createTable false ⟨"memories_fts", [col "id" "UNINDEXED", col "content" ""], [],
    some "fts5(tokenize = 'porter unicode61')"⟩,
  .createTrigger ⟨"memories_after_insert", "memories", "AFTER INSERT",
    ["INSERT INTO memories_fts(id, content) VALUES (new.id, new.content)"]⟩,
  .createTrigger ⟨"memories_after_update", "memories", "AFTER UPDATE OF content",
    ["DELETE FROM memories_fts WHERE id = old.id",
      "INSERT INTO memories_fts(id, content) VALUES (new.id, new.content)"]⟩,
  .createTrigger ⟨"memories_after_delete", "memories", "AFTER DELETE",
    ["DELETE FROM memories_fts WHERE id = old.id"]⟩]

def v3FullMemoryFields : List Stmt := [
  .addColumn "memories" (col "importance" "REAL NOT NULL DEFAULT 0.0" (.real 0)),
  .addColumn "memories" (col "stability" "REAL NOT NULL DEFAULT 0.5" (.real (1 / 2))),
  .addColumn "memories" (col "is_cold" "INTEGER NOT NULL DEFAULT 0" (.integer 0)),
  .addColumn "memories" (col "cold_since" "INTEGER"),
  .addColumn "memories" (col "days_at_floor" "INTEGER NOT NULL DEFAULT 0" (.integer 0)),
  .addColumn "memories" (col "is_superseded" "INTEGER NOT NULL DEFAULT 0" (.integer 0)),
  .addColumn "memories" (col "superseded_by" "TEXT"),
  .addColumn "memories" (col "is_stub" "INTEGER NOT NULL DEFAULT 0" (.integer 0)),
  .addColumn "memories" (col "stub_content" "TEXT"),
  .addColumn "memories" (col "contradicted_by" "TEXT"),
  .addColumn "memories" (col "session_ids" "TEXT NOT NULL DEFAULT '[]'" (.text "[]")),
  createIndex "idx_memories_user_cold" "memories" ["user_id", "is_cold"],
  createIndex "idx_memories_user_stub" "memories" ["user_id", "is_stub"],
  createIndex "idx_memories_user_superseded" "memories" ["user_id", "is_superseded"]]

def v4ConflictQueue : List Stmt := [
  createTable "conflict_queue" [
    col "id" "INTEGER PRIMARY KEY AUTOINCREMENT", col "user_id" "TEXT NOT NULL",
    col "new_memory_id" "TEXT NOT NULL REFERENCES memories(id) ON DELETE CASCADE",
    col "existing_memory_id" "TEXT NOT NULL REFERENCES memories(id) ON DELETE CASCADE",
    col "similarity" "REAL NOT NULL", col "queued_at" "INTEGER NOT NULL"]
    ["UNIQUE (user_id, new_memory_id, existing_memory_id)"],
  createIndex "idx_conflict_queue_user" "conflict_queue" ["user_id", "queued_at"]]

def v5AssociationLastCoRetrieval : List Stmt := [
  .addColumn "associations" (col "last_co_retrieval" "INTEGER"),
  .copyColumn "associations" "last_co_retrieval" "updated_at",
  createIndex "idx_associations_last_co_retrieval" "associations" ["last_co_retrieval"]]

def migrations : List Migration := [
  ⟨1, "initial_schema", v1InitialSchema⟩,
  ⟨2, "fts5_for_hybrid_search", v2Fts5⟩,
  ⟨3, "full_memory_fields", v3FullMemoryFields⟩,
  ⟨4, "conflict_queue", v4ConflictQueue⟩,
  ⟨5, "association_last_co_retrieval", v5AssociationLastCoRetrieval⟩]

/-! ## `run_migrations` -/

inductive Cmd
  | execute (s : Stmt)
  | isMigrationApplied (version : ℕ)
  | insertMigration (row : MigrationRow)

@[reducible] def Cmd.Res : Cmd → Type
  | .execute _ | .insertMigration _ => Except SchemaError Unit
  | .isMigrationApplied _ => Bool

/-- A statement that fails changes nothing. -/
def commit (db : Database) : Except SchemaError Database → Except SchemaError Unit × Database
  | .ok db' => (.ok (), db')
  | .error e => (.error e, db)

def exec : (c : Cmd) → Database → c.Res × Database
  | .execute s, db => commit db (s.exec db)
  | .isMigrationApplied version, db => (db.isMigrationApplied version, db)
  | .insertMigration row, db => commit db (db.insertMigration row)

abbrev StoreM (α : Type) := Prog Cmd Cmd.Res SchemaError α

def execute (s : Stmt) : StoreM Unit := Prog.cmd (.execute s) Prog.ofExcept

/-- `sqlx::raw_sql`: the statements of a script, one after the other. -/
def rawSql : List Stmt → StoreM Unit
  | [] => pure ()
  | s :: ss => do
    execute s
    rawSql ss

def applyMigration (m : Migration) : StoreM Unit := do
  let applied : Bool ← Prog.call (Cmd.isMigrationApplied m.version)
  if applied then pure () else do
    rawSql m.sql
    Prog.cmd (.insertMigration ⟨m.version, m.name⟩) Prog.ofExcept

def applyMigrations : List Migration → StoreM Unit
  | [] => pure ()
  | m :: ms => do
    applyMigration m
    applyMigrations ms

def schemaMigrations : Table :=
  ⟨"schema_migrations", [col "version" "INTEGER PRIMARY KEY", col "name" "TEXT NOT NULL",
    col "applied_at" "INTEGER NOT NULL"], [], none⟩

def runMigrations : StoreM Unit := do
  execute (.createTable true schemaMigrations)
  applyMigrations migrations

/-- `Store::open` on an existing file: what it reports, and the file it leaves. -/
def openStore (db : Database) : Except SchemaError Unit × Database := runMigrations.run exec db

/-- A crash of `Store::open` after `n` of its statements. -/
def crash (db : Database) (n : ℕ) : Database := runMigrations.runFor exec n db

end CognitiveMemory.Migrations
