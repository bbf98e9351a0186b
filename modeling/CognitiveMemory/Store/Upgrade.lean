import CognitiveMemory.Store.CrashSafety
import CognitiveMemory.Store.Integrity
import Mathlib.Algebra.Field.Rat
import Mathlib.Algebra.Order.Ring.Unbundled.Rat
import Mathlib.Data.List.Perm.Basic

/-! The full-text index over the life of a file. Every statement of the daemon keeps it in
sync with `memories`, and so does the upgrade from version 2 on; the script that creates it
leaves it empty. -/

namespace CognitiveMemory.Migrations
open Prog

/-! ## Texts through an upgrade -/

def Row.text (r : Row) : Value × Value := ((r.lookup "id").getD .null, (r.lookup "content").getD .null)

def Database.texts (db : Database) (table : String) : List (Value × Value) := (db.rows table).map Row.text

def Database.Indexed (db : Database) : Prop := (db.texts "memories_fts").Perm (db.texts "memories")

def Stmt.sparesTexts : Stmt → Bool
  | .addColumn table col => table != "memories_fts" && col.name != "id" && col.name != "content"
  | .copyColumn table .. => table != "memories" && table != "memories_fts"
  | _ => true

theorem migrations_spareTexts : ∀ m ∈ migrations, ∀ s ∈ m.sql, s.sparesTexts := by decide

theorem Row.lookup_append (r : Row) {name : String} (v : Value) {key : String} (h : name ≠ key) :
    (r ++ [(name, v)]).lookup key = r.lookup key := by
  rw [List.lookup_append, List.lookup_cons, beq_eq_false_iff_ne.mpr (Ne.symm h)]
  simp

theorem Row.text_append (r : Row) {name : String} (v : Value) (hid : name ≠ "id") (hcontent : name ≠ "content") :
    Row.text (r ++ [(name, v)]) = Row.text r := by
  rw [Row.text, lookup_append r v hid, lookup_append r v hcontent, Row.text]

theorem Stmt.effect_texts {s : Stmt} (hs : s.sparesTexts) (db : Database) {table : String}
    (ht : table = "memories" ∨ table = "memories_fts") : (s.effect db).texts table = db.texts table := by
  cases s with
  | addColumn t col =>
    simp only [sparesTexts, Bool.and_eq_true, bne_iff_ne] at hs
    simp only [effect, Database.mapRows, Database.texts]
    split
    · rw [List.map_map]
      exact List.map_congr_left fun r _ => Row.text_append r _ hs.1.2 hs.2
    · rfl
  | copyColumn t target source =>
    simp only [sparesTexts, Bool.and_eq_true, bne_iff_ne] at hs
    have hne : table ≠ t := by
      rintro rfl
      exact ht.elim hs.1 hs.2
    simp only [effect, Database.mapRows, Database.texts, if_neg hne]
  | _ => rfl

def Cmd.sparesTexts : Cmd → Prop
  | .execute s => s.sparesTexts
  | _ => True

/-- What no statement changes in the rows of a table, no command does. -/
theorem exec_map {β : Type} {table : String} {g : Row → β} {c : Cmd} (db : Database)
    (hc : ∀ s, c = .execute s → ∀ db : Database, ((s.effect db).rows table).map g = (db.rows table).map g) :
    ((exec c db).2.rows table).map g = (db.rows table).map g := by
  cases c with
  | execute s =>
    simp only [exec, Stmt.exec]
    cases s.check db.catalog with
    | ok c => exact hc s rfl _
    | error e => rfl
  | isMigrationApplied v => rfl
  | insertMigration row =>
    simp only [exec]
    cases h : db.insertMigration row with
    | ok db' =>
      rw [Database.insertMigration_ok h]
      rfl
    | error e => rfl

theorem exec_texts {c : Cmd} (hc : c.sparesTexts) (db : Database) {table : String}
    (ht : table = "memories" ∨ table = "memories_fts") : (exec c db).2.texts table = db.texts table :=
  exec_map db fun s heq db => by
    subst heq
    exact Stmt.effect_texts hc db ht

theorem only_rawSql {P : Cmd → Prop} {ss : List Stmt} (h : ∀ s ∈ ss, P (.execute s)) : (rawSql ss).Only P := by
  induction ss with
  | nil => trivial
  | cons s ss ih =>
    have hs : (execute s).Only P := ⟨h s List.mem_cons_self, fun r => by exact only_ofExcept r⟩
    exact only_bind hs fun _ => ih fun s hs => h s (List.mem_cons_of_mem _ hs)

theorem only_applyMigrations {P : Cmd → Prop} (hread : ∀ version, P (.isMigrationApplied version))
    (hrecord : ∀ row, P (.insertMigration row)) {ms : List Migration} (h : ∀ m ∈ ms, ∀ s ∈ m.sql, P (.execute s)) :
    (applyMigrations ms).Only P := by
  induction ms with
  | nil => trivial
  | cons m ms ih =>
    refine only_bind (only_bind (only_call (hread _)) fun applied => ?_) fun _ => ih fun m hm => h m (List.mem_cons_of_mem _ hm)
    split
    · trivial
    · refine only_bind (only_rawSql (h m List.mem_cons_self)) fun _ => ?_
      exact ⟨hrecord _, fun r => by exact only_ofExcept r⟩

theorem only_runMigrations {P : Cmd → Prop} (hread : ∀ version, P (.isMigrationApplied version))
    (hrecord : ∀ row, P (.insertMigration row)) (htable : P (.execute (.createTable true schemaMigrations)))
    (h : ∀ m ∈ migrations, ∀ s ∈ m.sql, P (.execute s)) : runMigrations.Only P :=
  only_bind ⟨htable, fun r => by exact only_ofExcept r⟩ fun _ => only_applyMigrations hread hrecord h

/-- `Store::open` writes no text, in the table or in its index. -/
theorem openStore_texts (file : Database) {table : String} (ht : table = "memories" ∨ table = "memories_fts") :
    (openStore file).2.texts table = file.texts table := by
  have honly : runMigrations.Only Cmd.sparesTexts :=
    only_runMigrations (fun _ => trivial) (fun _ => trivial) rfl migrations_spareTexts
  exact honly.run_keeps exec (J := fun db => db.texts table = file.texts table)
    (fun c db hc hdb => (exec_texts hc db ht).trans hdb) rfl

/-- Rows are in tables that exist. -/
def Database.Housed (db : Database) : Prop := ∀ table, (db.catalog.table? table).isNone → db.rows table = []

theorem catalogAt_tables : ∀ v < 6, ((catalogAt v).table? "memories_fts").isNone = decide (v ≤ 1) := by decide +kernel

/-- What a file must bring for its index to be in sync once it is open. -/
def InSync (v : ℕ) (file : Database) : Prop := if v ≤ 1 then file.rows "memories" = [] else file.Indexed

theorem openStore_indexed {v : ℕ} {file : Database} (hv : v ≤ 5) (h : AtVersion v file) (hrows : file.Housed) :
    (openStore file).2.Indexed ↔ InSync v file := by
  have hsame : (openStore file).2.Indexed ↔ file.Indexed := by
    unfold Database.Indexed
    rw [openStore_texts file (.inl rfl), openStore_texts file (.inr rfl)]
  rw [hsame]
  unfold InSync
  split
  · rename_i hold
    have hnone : file.rows "memories_fts" = [] := by
      refine hrows _ ?_
      rcases h.catalog with hc | ⟨-, hc⟩
      · rw [hc, catalogAt_tables v (by omega)]
        exact decide_eq_true hold
      · rw [hc]
        rfl
    simp [Database.Indexed, Database.texts, hnone]
  · exact .rfl

/-! ## Tiers through an upgrade -/

def Row.isCold (r : Row) : Bool := (r.lookup "is_cold").getD (.integer 0) != .integer 0

def Row.coldSince (r : Row) : Option Int :=
  match (r.lookup "cold_since").getD .null with
  | .integer n => some n
  | _ => none

def Row.tier (r : Row) : Bool × Option Int := (r.isCold, r.coldSince)

def Stmt.sparesTiers : Stmt → Bool
  | .addColumn _ col => (col.name != "is_cold" || col.default == .integer 0) && (col.name != "cold_since" || col.default == .null)
  | .copyColumn table .. => table != "memories"
  | _ => true

theorem migrations_spareTiers : ∀ m ∈ migrations, ∀ s ∈ m.sql, s.sparesTiers := by decide

theorem Row.getD_append (r : Row) {name key : String} {v default : Value} (h : name = key → v = default) :
    ((r ++ [(name, v)]).lookup key).getD default = (r.lookup key).getD default := by
  by_cases hkey : name = key
  · subst hkey
    rw [List.lookup_append, h rfl]
    cases r.lookup name <;> simp
  · rw [lookup_append r v hkey]

theorem Stmt.effect_tiers {s : Stmt} (hs : s.sparesTiers) (db : Database) :
    ((s.effect db).rows "memories").map Row.tier = (db.rows "memories").map Row.tier := by
  cases s with
  | addColumn t col =>
    simp only [sparesTiers, Bool.and_eq_true, Bool.or_eq_true, bne_iff_ne, beq_iff_eq] at hs
    simp only [effect, Database.mapRows]
    split
    · rw [List.map_map]
      refine List.map_congr_left fun r _ => ?_
      simp only [Function.comp_apply, Row.tier, Row.isCold, Row.coldSince]
      rw [Row.getD_append r fun h => hs.1.resolve_left (absurd h), Row.getD_append r fun h => hs.2.resolve_left (absurd h)]
    · rfl
  | copyColumn t target source =>
    have hne : "memories" ≠ t := Ne.symm (by simpa [sparesTiers] using hs)
    simp only [effect, Database.mapRows, if_neg hne]
  | _ => rfl

theorem openStore_tiers (file : Database) :
    ((openStore file).2.rows "memories").map Row.tier = (file.rows "memories").map Row.tier := by
  let P : Cmd → Prop := fun c => ∀ s, c = .execute s → s.sparesTiers
  have honly : runMigrations.Only P := by
    refine only_runMigrations (fun _ => nofun) (fun _ => nofun) ?_ fun m hm s hs => ?_
    · rintro _ ⟨⟩
      rfl
    · rintro _ ⟨⟩
      exact migrations_spareTiers m hm s hs
  exact honly.run_keeps exec (J := fun db => (db.rows "memories").map Row.tier = (file.rows "memories").map Row.tier)
    (fun c db hc hdb => (exec_map db fun s heq => Stmt.effect_tiers (hc s heq)).trans hdb) rfl

def Database.Typed (db : Database) : Prop :=
  ∀ t ∈ db.catalog.tables, ∀ r ∈ db.rows t.name, r.map Prod.fst = t.columns.map Column.name

theorem catalogAt_tiers : ∀ v < 3, ∀ t ∈ (catalogAt v).tables, t.name = "memories" →
    "is_cold" ∉ t.columns.map Column.name ∧ "cold_since" ∉ t.columns.map Column.name := by decide +kernel

theorem lookup_eq_none {r : Row} {key : String} (h : key ∉ r.map Prod.fst) : r.lookup key = none := by
  rw [List.lookup_eq_none_iff]
  intro cell hcell
  rw [bne_iff_ne]
  rintro rfl
  exact h (List.mem_map_of_mem hcell)

theorem tier_of_old {v : ℕ} {file : Database} (hv : v ≤ 2) (h : AtVersion v file) (hrows : file.Housed)
    (htyped : file.Typed) :
    ∀ r ∈ file.rows "memories", r.tier = (false, none) := by
  intro r hr
  cases ht : file.catalog.table? "memories" with
  | none =>
    rw [hrows "memories" (by rw [ht]; rfl)] at hr
    cases hr
  | some t =>
    have hmem : t ∈ file.catalog.tables := List.mem_of_find?_eq_some ht
    have hname : t.name = "memories" := by simpa using List.find?_some ht
    rcases h.catalog with hcatalog | ⟨-, hcatalog⟩
    · have hcells := htyped t hmem r (hname ▸ hr)
      obtain ⟨hcold, hsince⟩ := catalogAt_tiers v (by omega) t (hcatalog ▸ hmem) hname
      rw [Row.tier, Row.isCold, Row.coldSince, lookup_eq_none (hcells ▸ hcold), lookup_eq_none (hcells ▸ hsince)]
      rfl
    · rw [hcatalog] at hmem
      cases hmem

/-! ## The opened store -/

section
variable {F : Type}

/-- What the daemon finds in an open file: the texts and the index as they stand in it, under
the primary key of `memories`. -/
structure Holds (file : Database) (db : Db F) : Prop where
  memories : file.texts "memories" = db.memories.map fun r => (.text r.id, .text r.content)
  memoriesFts : file.texts "memories_fts" = db.memoriesFts.map fun d => (.text d.id, .text d.content)
  keyed : db.Keyed

theorem Holds.indexed_iff {file : Database} {db : Db F} (h : Holds file db) : file.Indexed ↔ db.Indexed := by
  have hpair : Function.Injective fun d : FtsRow => ((.text d.id, .text d.content) : Value × Value) := by
    rintro ⟨id, content⟩ ⟨id', content'⟩ heq
    cases heq
    rfl
  have htexts : file.texts "memories" = (db.memories.map MemoryRow.text).map fun d => (.text d.id, .text d.content) := by
    rw [h.memories, List.map_map]
    rfl
  unfold Database.Indexed Db.Indexed
  rw [htexts, h.memoriesFts, List.map_perm_map_iff hpair]

variable [Field F] [LinearOrder F]

def World.after (bm25 : Bm25 F) (w : World F) (cmds : List (CognitiveMemory.Cmd F)) : World F :=
  cmds.foldl (fun w c => (CognitiveMemory.exec bm25 c w).2) w

theorem indexed_after (bm25 : Bm25 F) {w : World F} (hk : w.db.Keyed) (hi : w.db.Indexed)
    (cmds : List (CognitiveMemory.Cmd F)) : (World.after bm25 w cmds).db.Indexed := by
  induction cmds generalizing w with
  | nil => exact hi
  | cons c cmds ih => exact ih (keyed_exec bm25 hk) (indexed_exec bm25 hk hi)

/-- The index of an opened store is in sync after whatever the daemon does exactly when the
file had it in sync, or had neither an index nor memories. -/
theorem index_inSync_iff (bm25 : Bm25 F) {v : ℕ} {file : Database} {w : World F} (hv : v ≤ 5) (h : AtVersion v file)
    (hrows : file.Housed) (hw : Holds (openStore file).2 w.db) :
    (∀ cmds, (World.after bm25 w cmds).db.Indexed) ↔ InSync v file := by
  rw [← openStore_indexed hv h hrows, hw.indexed_iff]
  exact ⟨fun hall => hall [], fun hi cmds => indexed_after bm25 hw.keyed hi cmds⟩

end

/-! ### A file with one memory -/

def teaFile (v : ℕ) (index : List Row) : Database where
  catalog := catalogAt v
  rows table :=
    if table = "memories" then
      [[("id", .text "mem_a"), ("user_id", .text "alice"), ("content", .text "tea"), ("category", .text "semantic"),
        ("memory_type", .text "fact"), ("embedding", .null), ("embedding_provider", .null), ("embedding_model", .null),
        ("created_at", .integer 0), ("last_accessed_at", .integer 0), ("valid_from", .null), ("valid_until", .null),
        ("ttl_seconds", .null), ("retention_floor", .real 0), ("retrieval_count", .integer 0), ("metadata", .text "{}")]]
    else if table = "memories_fts" then index
    else []
  migrations := (migrations.take v).map fun m => ⟨m.version, m.name⟩

def teaWorld (index : List FtsRow) : World ℚ :=
  ⟨{ Db.empty with
    memories := [MemoryRow.newMinimal "mem_a" "alice" "tea" "semantic" "fact" 0]
    memoriesFts := index }, [], .quiet⟩

theorem teaFile_housed {v : ℕ} {index : List Row} (hm : ((catalogAt v).table? "memories").isNone = false)
    (hi : ((catalogAt v).table? "memories_fts").isNone → index = []) : (teaFile v index).Housed := by
  intro table hnone
  simp only [teaFile]
  split
  · rename_i ht
    have hsome : ((catalogAt v).table? table).isNone = false := ht ▸ hm
    rw [show (teaFile v index).catalog = catalogAt v from rfl, hsome] at hnone
    cases hnone
  · split
    · rename_i ht
      exact hi (ht ▸ hnone)
    · rfl

/-- Version 2 has indexed the memory. -/
theorem tea_stays_indexed : (World.after (fun _ _ _ => none) (teaWorld [⟨"mem_a", "tea"⟩])
    [.write (.updateMemory "alice" "mem_a" { content := some "coffee" }), .write (.clearUser "alice")]).db.Indexed := by
  have hfile : AtVersion 2 (teaFile 2 [[("id", .text "mem_a"), ("content", .text "tea")]]) := by
    refine ⟨.inl rfl, fun w => ?_⟩
    simp [teaFile, migrations, Database.isMigrationApplied]
    grind
  refine (index_inSync_iff _ (by decide) hfile (teaFile_housed (by decide +kernel) fun h => ?_)
    ⟨by decide +kernel, by decide +kernel, by simp [teaWorld, Db.Keyed]⟩).mpr ?_ _
  · have hthere : ((catalogAt 2).table? "memories_fts").isNone = false := by decide +kernel
    rw [hthere] at h
    cases h
  · exact List.Perm.of_eq (by decide +kernel)

/-- Opening a database of version 1 does not index what it holds. -/
theorem index_misses_old_rows : ¬ ∀ (v : ℕ) (file : Database) (w : World ℚ) (cmds : List (CognitiveMemory.Cmd ℚ)),
    v ≤ 5 → AtVersion v file → file.Housed → Holds (openStore file).2 w.db →
      (World.after (fun _ _ _ => none) w cmds).db.Indexed := by
  intro h
  have hindexed : (teaWorld []).db.Indexed := by
    refine h 1 (teaFile 1 []) (teaWorld []) [] (by decide) ⟨.inl rfl, fun w => ?_⟩
      (teaFile_housed (by decide +kernel) fun _ => rfl) ⟨by decide +kernel, by decide +kernel, by simp [teaWorld, Db.Keyed]⟩
    simp [teaFile, migrations, Database.isMigrationApplied]
    grind
  exact absurd hindexed.length_eq (by decide)

end CognitiveMemory.Migrations
