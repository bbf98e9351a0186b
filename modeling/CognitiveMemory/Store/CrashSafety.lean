import CognitiveMemory.Store.Migrations

/-! Crashes of `run_migrations`. A migration cut between its first statement and its
bookkeeping row cannot be run again, since no script statement can be repeated; a crash
anywhere else is made good by the next open. -/

namespace CognitiveMemory.Migrations
open Prog

/-! ## Statements -/

def Stmt.Spent (c : Catalog) : Stmt → Prop
  | .createTable _ t => c.hasObject t.name
  | .createIndex i => c.hasObject i.name
  | .createTrigger t => c.hasTrigger t.name
  | .addColumn table col => c.hasColumn table col.name
  | .copyColumn .. => False

def Stmt.once : Stmt → Bool
  | .createTable ifNotExists _ => !ifNotExists
  | .copyColumn .. => false
  | _ => true

theorem Stmt.check_of_spent {s : Stmt} {c : Catalog} (hs : s.once) (h : s.Spent c) : ∃ e, s.check c = .error e := by
  cases s with
  | createTable b t => exact ⟨_, by simp_all [check, Spent, once]; rfl⟩
  | createIndex i => exact ⟨_, by simp_all [check, Spent]; rfl⟩
  | createTrigger t => exact ⟨_, by simp_all [check, Spent]; rfl⟩
  | addColumn table col =>
    by_cases ht : (c.table? table).isNone
    · exact ⟨_, by simp only [check, if_pos ht]; rfl⟩
    · exact ⟨_, by simp_all [check, Spent]; rfl⟩
  | copyColumn table target source => cases h

structure Catalog.Extends (c c' : Catalog) : Prop where
  object : ∀ {name}, c.hasObject name → c'.hasObject name
  trigger : ∀ {name}, c.hasTrigger name → c'.hasTrigger name
  column : ∀ {table name}, c.hasColumn table name → c'.hasColumn table name

theorem Catalog.Extends.refl (c : Catalog) : c.Extends c := ⟨id, id, id⟩

theorem Catalog.extends_addColumn (c : Catalog) (table : String) (col : Column) : c.Extends (c.addColumn table col) := by
  constructor
  · intro name h
    simp only [hasObject, addColumn, Bool.or_eq_true, List.any_eq_true, List.mem_map] at h ⊢
    rcases h with ⟨t, ht, hn⟩ | h
    · refine .inl ⟨_, ⟨t, ht, rfl⟩, ?_⟩
      split <;> exact hn
    · exact .inr h
  · exact id
  · intro tb name h
    simp only [hasColumn, addColumn, List.any_eq_true, List.mem_map, Bool.and_eq_true] at h ⊢
    obtain ⟨t, ht, hn, k, hk, hkn⟩ := h
    refine ⟨_, ⟨t, ht, rfl⟩, ?_⟩
    split
    · exact ⟨hn, k, List.mem_append_left _ hk, hkn⟩
    · exact ⟨hn, k, hk, hkn⟩

theorem Catalog.hasColumn_addColumn {c : Catalog} {table : String} {col : Column} (h : (c.table? table).isSome) :
    (c.addColumn table col).hasColumn table col.name := by
  obtain ⟨t, ht⟩ := Option.isSome_iff_exists.mp h
  rw [table?] at ht
  have hn := List.find?_some ht
  have hm : t ∈ c.tables := List.mem_of_find?_eq_some ht
  simp only [hasColumn, addColumn, List.any_eq_true, List.mem_map, Bool.and_eq_true]
  refine ⟨_, ⟨t, hm, rfl⟩, ?_⟩
  rw [if_pos hn]
  exact ⟨hn, col, by simp, by simp⟩

theorem Stmt.check_extends {s : Stmt} {c c' : Catalog} (h : s.check c = .ok c') : c.Extends c' := by
  cases s with
  | createTable b t =>
    simp only [check] at h
    split at h
    · split at h
      · cases h; exact .refl c
      · cases h
    · cases h
      refine ⟨fun h => ?_, id, fun h => ?_⟩
      · simp only [Catalog.hasObject, List.any_append, Bool.or_eq_true] at h ⊢
        tauto
      · simp only [Catalog.hasColumn, List.any_append, Bool.or_eq_true] at h ⊢
        exact .inl h
  | createIndex i =>
    simp only [check] at h
    split at h <;> [cases h; skip]
    split at h <;> [cases h; skip]
    split at h <;> cases h
    refine ⟨fun h => ?_, id, id⟩
    simp only [Catalog.hasObject, List.any_append, Bool.or_eq_true] at h ⊢
    tauto
  | createTrigger t =>
    simp only [check] at h
    split at h <;> [cases h; skip]
    split at h <;> cases h
    refine ⟨id, fun h => ?_, id⟩
    simp only [Catalog.hasTrigger, List.any_append, Bool.or_eq_true] at h ⊢
    exact .inl h
  | addColumn table col =>
    simp only [check] at h
    split at h <;> [cases h; skip]
    split at h <;> cases h
    exact c.extends_addColumn table col
  | copyColumn table target source =>
    simp only [check] at h
    split at h <;> [cases h; skip]
    split at h <;> [cases h; skip]
    split at h <;> cases h
    exact .refl c

theorem Stmt.Spent.extends {s : Stmt} {c c' : Catalog} (h : s.Spent c) (he : c.Extends c') : s.Spent c' := by
  cases s with
  | createTable b t => exact he.object h
  | createIndex i => exact he.object h
  | createTrigger t => exact he.trigger h
  | addColumn table col => exact he.column h
  | copyColumn table target source => cases h

theorem Stmt.spent_of_check {s : Stmt} {c c' : Catalog} (hs : s.once) (h : s.check c = .ok c') : s.Spent c' := by
  cases s with
  | createTable b t =>
    simp only [check] at h
    split at h
    · simp_all [once]
    · cases h
      simp [Spent, Catalog.hasObject]
  | createIndex i =>
    simp only [check] at h
    split at h <;> [cases h; skip]
    split at h <;> [cases h; skip]
    split at h <;> cases h
    simp [Spent, Catalog.hasObject]
  | createTrigger t =>
    simp only [check] at h
    split at h <;> [cases h; skip]
    split at h <;> cases h
    simp [Spent, Catalog.hasTrigger]
  | addColumn table col =>
    simp only [check] at h
    split at h <;> [cases h; rename_i ht]
    split at h <;> cases h
    exact Catalog.hasColumn_addColumn (by simpa [Option.isSome_iff_ne_none] using ht)
  | copyColumn table target source => cases hs

@[simp] theorem Stmt.effect_catalog (s : Stmt) (db : Database) : (s.effect db).catalog = db.catalog := by
  cases s <;> rfl

@[simp] theorem Stmt.effect_migrations (s : Stmt) (db : Database) : (s.effect db).migrations = db.migrations := by
  cases s <;> rfl

theorem Stmt.exec_ok {s : Stmt} {db db' : Database} (h : s.exec db = .ok db') :
    s.check db.catalog = .ok db'.catalog ∧ db'.migrations = db.migrations := by
  unfold Stmt.exec at h
  cases hc : s.check db.catalog with
  | error e => rw [hc] at h; cases h
  | ok c =>
    rw [hc] at h
    cases h
    simp

theorem Database.insertMigration_ok {db db' : Database} {row : MigrationRow} (h : db.insertMigration row = .ok db') :
    db' = { db with migrations := db.migrations ++ [row] } := by
  unfold Database.insertMigration at h
  split at h <;> [cases h; skip]
  split at h <;> cases h
  rfl

/-! ## Commands -/

theorem exec_extends (c : Cmd) (db : Database) : db.catalog.Extends (exec c db).2.catalog := by
  cases c with
  | execute s =>
    simp only [exec]
    cases h : s.exec db with
    | ok db' => exact Stmt.check_extends (Stmt.exec_ok h).1
    | error e => exact .refl _
  | isMigrationApplied v => exact .refl _
  | insertMigration row =>
    simp only [exec]
    cases h : db.insertMigration row with
    | ok db' =>
      rw [Database.insertMigration_ok h]
      exact .refl _
    | error e => exact .refl _

theorem exec_isMigrationApplied {v : ℕ} (c : Cmd) (db : Database) (h : db.isMigrationApplied v) :
    (exec c db).2.isMigrationApplied v := by
  cases c with
  | execute s =>
    simp only [exec]
    cases hs : s.exec db with
    | ok db' => simpa only [commit, Database.isMigrationApplied, (Stmt.exec_ok hs).2] using h
    | error e => exact h
  | isMigrationApplied w => exact h
  | insertMigration row =>
    simp only [exec]
    cases hs : db.insertMigration row with
    | ok db' =>
      rw [Database.insertMigration_ok hs]
      simp_all [commit, Database.isMigrationApplied]
    | error e => exact h

/-! ## Runs of scripts -/

theorem run_rawSql_cons (s : Stmt) (ss : List Stmt) (db : Database) :
    (rawSql (s :: ss)).run exec db = match s.exec db with
      | .ok db' => (rawSql ss).run exec db'
      | .error e => (.error e, db) := by
  simp only [rawSql, execute, bind_eq, cmd_bind, run_command, exec]
  cases s.exec db <;> rfl

theorem runFor_rawSql_cons (s : Stmt) (ss : List Stmt) (n : ℕ) (db : Database) :
    (rawSql (s :: ss)).runFor exec (n + 1) db = match s.exec db with
      | .ok db' => (rawSql ss).runFor exec n db'
      | .error _ => db := by
  simp only [rawSql, execute, bind_eq, cmd_bind, runFor_succ, exec]
  cases s.exec db with
  | ok db' => rfl
  | error e => simp [commit, Prog.ofExcept]

theorem rawSql_ok {ss : List Stmt} {db db' : Database} (h : (rawSql ss).run exec db = (.ok (), db')) :
    (rawSql ss).steps exec db = ss.length ∧ db'.migrations = db.migrations := by
  induction ss generalizing db with
  | nil =>
    cases h
    exact ⟨rfl, rfl⟩
  | cons s ss ih =>
    rw [run_rawSql_cons] at h
    cases hs : s.exec db with
    | error e => simp [hs] at h
    | ok db₁ =>
      rw [hs] at h
      obtain ⟨h1, h2⟩ := ih h
      refine ⟨?_, h2.trans (Stmt.exec_ok hs).2⟩
      simp only [rawSql, execute, bind_eq, cmd_bind, steps, exec, hs, commit, List.length_cons]
      exact congrArg (· + 1) h1

/-- Whatever a script did before it was stopped, it recorded no migration, and it spent its
first statement. -/
theorem runFor_rawSql_migrations (ss : List Stmt) (n : ℕ) (db : Database) :
    ((rawSql ss).runFor exec n db).migrations = db.migrations := by
  induction ss generalizing n db with
  | nil => simp [rawSql]
  | cons s ss ih =>
    cases n with
    | zero => simp
    | succ n =>
      rw [runFor_rawSql_cons]
      cases hs : s.exec db with
      | error e => rfl
      | ok db' => simpa only [(Stmt.exec_ok hs).2] using ih n db'

theorem runFor_rawSql_spent {s : Stmt} {ss : List Stmt} {n : ℕ} {db db' : Database} (hs : s.once)
    (h : s.exec db = .ok db') : s.Spent ((rawSql (s :: ss)).runFor exec (n + 1) db).catalog := by
  simp only [runFor_rawSql_cons, h]
  exact runFor_keeps exec (J := fun d => s.Spent d.catalog) (fun c d hd => hd.extends (exec_extends c d)) n _
    (Stmt.spent_of_check hs (Stmt.exec_ok h).1)

/-! ## Runs of migrations -/

theorem applyMigrations_cons (m : Migration) (ms : List Migration) :
    applyMigrations (m :: ms) = (applyMigration m).bind fun _ => applyMigrations ms := rfl

section applied
variable {m : Migration} {db : Database} (ms : List Migration) (h : db.isMigrationApplied m.version)
include h

theorem run_skip : (applyMigrations (m :: ms)).run exec db = (applyMigrations ms).run exec db := by
  simp [applyMigrations_cons, applyMigration, exec, h]

theorem runFor_skip (n : ℕ) :
    (applyMigrations (m :: ms)).runFor exec (n + 1) db = (applyMigrations ms).runFor exec n db := by
  simp [applyMigrations_cons, applyMigration, exec, h]

end applied

/-- A migration that is not applied yet, seen from a run that applies it. -/
theorem applyMigration_ok {m : Migration} {db db₁ : Database} (ha : db.isMigrationApplied m.version = false)
    (h : (applyMigration m).run exec db = (.ok (), db₁)) :
    (applyMigration m).steps exec db = m.sql.length + 2 ∧
      (∀ v, db₁.isMigrationApplied v = (db.isMigrationApplied v || m.version == v)) ∧
      (∀ n ≤ m.sql.length, (applyMigration m).runFor exec (n + 1) db = (rawSql m.sql).runFor exec n db) ∧
      ∃ db', (rawSql m.sql).run exec db = (.ok (), db') := by
  have hp : applyMigration m = cmd (Cmd.isMigrationApplied m.version) fun a : Bool => if a then Prog.pure () else
      (rawSql m.sql).bind fun _ => cmd (Cmd.insertMigration ⟨m.version, m.name⟩) Prog.ofExcept := rfl
  rw [hp, run_command] at h
  simp only [exec, ha, Bool.false_eq_true, if_false] at h
  cases hr : (rawSql m.sql).run exec db with
  | mk r db' =>
    cases r with
    | error e => rw [run_bind_error exec hr] at h; cases h
    | ok u =>
      rw [run_bind_ok exec hr, run_command] at h
      obtain ⟨hlen, hmig⟩ := rawSql_ok hr
      simp only [exec] at h
      cases hi : db'.insertMigration ⟨m.version, m.name⟩ with
      | error e => rw [hi] at h; cases h
      | ok db₂ =>
        rw [hi] at h
        cases h
        refine ⟨?_, fun v => ?_, fun n hn => ?_, db', rfl⟩
        · rw [hp, steps]
          simp only [exec, ha, Bool.false_eq_true, if_false]
          have hadd := steps_bind_ok exec hr fun _ => cmd (Cmd.insertMigration ⟨m.version, m.name⟩) Prog.ofExcept
          rw [hadd, hlen]
          simp [steps, exec, hi, commit, Prog.ofExcept]
        · rw [Database.insertMigration_ok hi]
          simp [commit, Database.isMigrationApplied, hmig]
        · rw [hp, runFor_succ]
          simp only [exec, ha, Bool.false_eq_true, if_false]
          exact runFor_bind_of_le exec _ (hlen ▸ hn)

/-! ## Crashes -/

/-- A stop after `n` commands falls inside a migration that is not applied: its first
statement has run, its bookkeeping row is not written. -/
def insideScript : (ℕ → Bool) → List Migration → ℕ → Bool
  | _, [], _ => false
  | applied, m :: ms, n =>
    if applied m.version then insideScript applied ms (n - 1)
    else if n ≤ 1 then false
    else if n ≤ m.sql.length + 1 then true
    else insideScript (fun v => applied v || m.version == v) ms (n - (m.sql.length + 2))

@[simp] theorem insideScript_zero (applied : ℕ → Bool) (ms : List Migration) : insideScript applied ms 0 = false := by
  induction ms with
  | nil => rfl
  | cons m ms ih => simp [insideScript, ih]

/-- A stop outside the scripts is made good: the next run ends where the uninterrupted one does. -/
theorem run_resumes {ms : List Migration} {db db' : Database} {n : ℕ}
    (h : (applyMigrations ms).run exec db = (.ok (), db')) (hn : insideScript db.isMigrationApplied ms n = false) :
    (applyMigrations ms).run exec ((applyMigrations ms).runFor exec n db) = (.ok (), db') := by
  induction ms generalizing db n with
  | nil => simpa [applyMigrations] using h
  | cons m ms ih =>
    have hkeep : ∀ (k : ℕ) {d : Database}, d.isMigrationApplied m.version →
        ((applyMigrations ms).runFor exec k d).isMigrationApplied m.version := fun k d hd =>
      runFor_keeps exec (J := fun d => d.isMigrationApplied m.version) (fun c d => exec_isMigrationApplied c d) k _ hd
    rw [insideScript] at hn
    cases ha : db.isMigrationApplied m.version with
    | true =>
      rw [run_skip ms ha] at h
      cases n with
      | zero => simpa only [runFor_zero, run_skip ms ha] using h
      | succ n =>
        rw [runFor_skip ms ha, run_skip ms (hkeep n ha)]
        exact ih h (by simpa [ha] using hn)
    | false =>
      rw [ha] at hn
      rw [applyMigrations_cons] at h
      cases hr : (applyMigration m).run exec db with
      | mk r db₁ =>
        cases r with
        | error e => rw [run_bind_error exec hr] at h; cases h
        | ok u =>
          rw [run_bind_ok exec hr] at h
          obtain ⟨hsteps, happ, hmid, -⟩ := applyMigration_ok ha hr
          have hdone : db₁.isMigrationApplied m.version := by simp [happ]
          by_cases h1 : n ≤ 1
          · have hsame : (applyMigrations (m :: ms)).runFor exec n db = db := by
              rcases Nat.le_one_iff_eq_zero_or_eq_one.mp h1 with rfl | rfl
              · exact runFor_zero ..
              · rw [applyMigrations_cons, runFor_bind_of_le exec _ (by omega), hmid 0 (Nat.zero_le _), runFor_zero]
            rw [hsame, applyMigrations_cons, run_bind_ok exec hr, h]
          · by_cases h2 : n ≤ m.sql.length + 1
            · simp [h1, h2] at hn
            · obtain ⟨k, rfl⟩ : ∃ k, n = (applyMigration m).steps exec db + k := ⟨n - (m.sql.length + 2), by omega⟩
              have hk : (applyMigration m).steps exec db + k - (m.sql.length + 2) = k := by omega
              rw [applyMigrations_cons, runFor_bind_add exec _ hr, ← applyMigrations_cons, run_skip ms (hkeep k hdone)]
              refine ih h ?_
              rw [show db₁.isMigrationApplied = fun v => db.isMigrationApplied v || m.version == v from funext happ]
              simpa [h1, h2, hk] using hn

structure Stuck (ms : List Migration) (db : Database) : Prop where
  fails : ((applyMigrations ms).run exec db).1 ≠ .ok ()
  frozen : ∀ n, (applyMigrations ms).runFor exec n db = db

theorem Stuck.cons {m : Migration} {ms : List Migration} {db : Database} (h : Stuck ms db)
    (ha : db.isMigrationApplied m.version) : Stuck (m :: ms) db where
  fails := by
    rw [run_skip ms ha]
    exact h.fails
  frozen n := by
    cases n with
    | zero => exact runFor_zero ..
    | succ n =>
      rw [runFor_skip ms ha]
      exact h.frozen n

theorem stuck_of_spent {m : Migration} {s : Stmt} {ss : List Stmt} {db : Database} (ms : List Migration)
    (ha : db.isMigrationApplied m.version = false) (hm : m.sql = s :: ss) (hs : s.once)
    (hsp : s.Spent db.catalog) : Stuck (m :: ms) db := by
  obtain ⟨e, he⟩ := Stmt.check_of_spent hs hsp
  have hex : s.exec db = .error e := by simp [Stmt.exec, he, Except.map]
  constructor
  · simp [applyMigrations_cons, applyMigration, exec, ha, hm, rawSql, execute, hex, commit, Prog.ofExcept]
  · intro n
    match n with
    | 0 => exact runFor_zero ..
    | 1 => simp [applyMigrations_cons, applyMigration, exec, ha]
    | n + 2 => simp [applyMigrations_cons, applyMigration, exec, ha, hm, rawSql, execute, hex, commit, Prog.ofExcept]

/-- A stop inside a script is final, when no script can be begun twice. -/
theorem stuck_of_inside {ms : List Migration} {db db' : Database} {n : ℕ}
    (hms : ∀ m ∈ ms, ∃ s ss, m.sql = s :: ss ∧ s.once)
    (h : (applyMigrations ms).run exec db = (.ok (), db')) (hn : insideScript db.isMigrationApplied ms n = true) :
    Stuck ms ((applyMigrations ms).runFor exec n db) := by
  induction ms generalizing db n with
  | nil => cases hn
  | cons m ms ih =>
    have hms' : ∀ m ∈ ms, ∃ s ss, m.sql = s :: ss ∧ s.once := fun m hm => hms m (List.mem_cons_of_mem _ hm)
    have hkeep : ∀ (k : ℕ) {d : Database}, d.isMigrationApplied m.version →
        ((applyMigrations ms).runFor exec k d).isMigrationApplied m.version := fun k d hd =>
      runFor_keeps exec (J := fun d => d.isMigrationApplied m.version) (fun c d => exec_isMigrationApplied c d) k _ hd
    rw [insideScript] at hn
    cases ha : db.isMigrationApplied m.version with
    | true =>
      rw [run_skip ms ha] at h
      cases n with
      | zero => simp [ha] at hn
      | succ n =>
        rw [runFor_skip ms ha]
        exact (ih hms' h (by simpa [ha] using hn)).cons (hkeep n ha)
    | false =>
      rw [ha] at hn
      rw [applyMigrations_cons] at h
      cases hr : (applyMigration m).run exec db with
      | mk r db₁ =>
        cases r with
        | error e => rw [run_bind_error exec hr] at h; cases h
        | ok u =>
          rw [run_bind_ok exec hr] at h
          obtain ⟨hsteps, happ, hmid, dbr, hraw⟩ := applyMigration_ok ha hr
          have hdone : db₁.isMigrationApplied m.version := by simp [happ]
          by_cases h1 : n ≤ 1
          · simp [h1] at hn
          -- stopped inside this script: its first statement took effect and cannot be repeated
          · by_cases h2 : n ≤ m.sql.length + 1
            · obtain ⟨k, rfl⟩ : ∃ k, n = k + 2 := ⟨n - 2, by omega⟩
              obtain ⟨s, ss, hm, hs⟩ := hms m List.mem_cons_self
              rw [applyMigrations_cons, runFor_bind_of_le exec _ (by omega), hmid (k + 1) (by omega)]
              refine stuck_of_spent ms ?_ hm hs ?_
              · rw [Database.isMigrationApplied, runFor_rawSql_migrations]
                exact ha
              · rw [hm, run_rawSql_cons] at hraw
                cases hex : s.exec db with
                | error e => simp [hex] at hraw
                | ok db₂ =>
                  rw [hm]
                  exact runFor_rawSql_spent hs hex
            · obtain ⟨k, rfl⟩ : ∃ k, n = (applyMigration m).steps exec db + k := ⟨n - (m.sql.length + 2), by omega⟩
              have hk : (applyMigration m).steps exec db + k - (m.sql.length + 2) = k := by omega
              rw [applyMigrations_cons, runFor_bind_add exec _ hr]
              refine (ih hms' h ?_).cons (hkeep k hdone)
              rw [show db₁.isMigrationApplied = fun v => db.isMigrationApplied v || m.version == v from funext happ]
              simpa [h1, h2, hk] using hn

/-! ## A database at a schema version -/

def checkAll : List Stmt → Catalog → Except SchemaError Catalog
  | [], c => .ok c
  | s :: ss, c => do
    let c' ← s.check c
    checkAll ss c'

def catalogAt (v : ℕ) : Catalog :=
  (migrations.take v).foldl (fun c m => (checkAll m.sql c).toOption.getD c) ⟨[schemaMigrations], [], []⟩

/-- The first `v` migrations are recorded and their schema is there, with any rows. A file
without tables is at version 0. -/
structure AtVersion (v : ℕ) (db : Database) : Prop where
  catalog : db.catalog = catalogAt v ∨ v = 0 ∧ db.catalog = Catalog.empty
  recorded : ∀ w, db.isMigrationApplied w = decide (1 ≤ w ∧ w ≤ v)

def installable (applied : ℕ → Bool) (c : Catalog) : List Migration → Bool
  | [] => true
  | m :: ms =>
    if applied m.version then installable applied c ms
    else match checkAll m.sql c with
      | .ok c' => (c'.table? "schema_migrations").isSome &&
          installable (fun v => applied v || m.version == v) c' ms
      | .error _ => false

theorem installable_catalogAt : ∀ v < 6, installable (fun w => decide (1 ≤ w ∧ w ≤ v)) (catalogAt v) migrations = true := by
  decide +kernel

theorem run_rawSql_of_check {ss : List Stmt} {db : Database} {c : Catalog} (h : checkAll ss db.catalog = .ok c) :
    ∃ db', (rawSql ss).run exec db = (.ok (), db') ∧ db'.catalog = c ∧ db'.migrations = db.migrations := by
  induction ss generalizing db with
  | nil =>
    cases h
    exact ⟨db, rfl, rfl, rfl⟩
  | cons s ss ih =>
    cases hc : s.check db.catalog with
    | error e => simp [checkAll, hc, bind, Except.bind] at h
    | ok c₁ =>
      have hex : s.exec db = .ok (s.effect { db with catalog := c₁ }) := by simp [Stmt.exec, hc, Except.map]
      have h' : checkAll ss (s.effect { db with catalog := c₁ }).catalog = .ok c := by
        simpa [checkAll, hc, bind, Except.bind] using h
      obtain ⟨db', h1, h2, h3⟩ := ih h'
      refine ⟨db', ?_, h2, by simpa using h3⟩
      rw [run_rawSql_cons, hex]
      exact h1

theorem run_applyMigration_of_check {m : Migration} {db : Database} {c : Catalog}
    (ha : db.isMigrationApplied m.version = false) (h : checkAll m.sql db.catalog = .ok c)
    (ht : (c.table? "schema_migrations").isSome) :
    ∃ db', (applyMigration m).run exec db = (.ok (), db') ∧ db'.catalog = c := by
  obtain ⟨db₁, hrun, hcat, hmig⟩ := run_rawSql_of_check h
  have hins : db₁.insertMigration ⟨m.version, m.name⟩ =
      .ok { db₁ with migrations := db₁.migrations ++ [⟨m.version, m.name⟩] } := by
    have hn : db₁.isMigrationApplied m.version = false := by simpa [Database.isMigrationApplied, hmig] using ha
    rw [Database.insertMigration, hcat, if_neg (by simpa [Option.isSome_iff_ne_none] using ht), hn]
    rfl
  refine ⟨{ db₁ with migrations := db₁.migrations ++ [⟨m.version, m.name⟩] }, ?_, hcat⟩
  simp only [applyMigration, bind_eq, call_bind, run_command, exec, ha, Bool.false_eq_true, if_false]
  rw [run_bind_ok exec hrun, run_command]
  simp [exec, hins, commit, Prog.ofExcept]

theorem applyMigrations_ok {ms : List Migration} {db : Database}
    (h : installable db.isMigrationApplied db.catalog ms = true) :
    ((applyMigrations ms).run exec db).1 = .ok () := by
  induction ms generalizing db with
  | nil => rfl
  | cons m ms ih =>
    rw [installable] at h
    cases ha : db.isMigrationApplied m.version with
    | true =>
      rw [run_skip ms ha]
      exact ih (by simpa [ha] using h)
    | false =>
      cases hc : checkAll m.sql db.catalog with
      | error e => simp [ha, hc] at h
      | ok c =>
        simp only [ha, hc, Bool.false_eq_true, if_false, Bool.and_eq_true] at h
        obtain ⟨db', hrun, hcat⟩ := run_applyMigration_of_check ha hc h.1
        rw [applyMigrations_cons, run_bind_ok exec hrun]
        refine ih ?_
        rw [hcat, show db'.isMigrationApplied = _ from funext (applyMigration_ok ha hrun).2.1]
        exact h.2

/-! ## `Store::open` after crashes -/

theorem migrations_once : ∀ m ∈ migrations, ∃ s ss, m.sql = s :: ss ∧ s.once := by
  intro m hm
  simp only [migrations, List.mem_cons, List.not_mem_nil, or_false] at hm
  rcases hm with rfl | rfl | rfl | rfl | rfl <;> exact ⟨_, _, rfl, rfl⟩

def prepared (db : Database) : Database := (exec (.execute (.createTable true schemaMigrations)) db).2

theorem prepared_eq (db : Database) : prepared db =
    if db.catalog.hasObject "schema_migrations" then db
    else { db with catalog := { db.catalog with tables := db.catalog.tables ++ [schemaMigrations] } } := by
  simp only [prepared, exec, Stmt.exec, Stmt.check, schemaMigrations]
  split <;> rfl

theorem openStore_eq (db : Database) : openStore db = (applyMigrations migrations).run exec (prepared db) := by
  simp only [openStore, runMigrations, execute, bind_eq, cmd_bind, run_command, prepared, exec, Stmt.exec, Stmt.check]
  split <;> rfl

theorem crash_zero (db : Database) : crash db 0 = db := runFor_zero ..

theorem crash_succ (db : Database) (n : ℕ) :
    crash db (n + 1) = (applyMigrations migrations).runFor exec n (prepared db) := by
  simp only [crash, runMigrations, execute, bind_eq, cmd_bind, runFor_succ, prepared, exec, Stmt.exec, Stmt.check]
  split <;> rfl

theorem prepared_crash_succ (db : Database) (n : ℕ) : prepared (crash db (n + 1)) = crash db (n + 1) := by
  have hobj : (prepared db).catalog.hasObject "schema_migrations" := by
    rw [prepared_eq]
    split
    · assumption
    · simp [Catalog.hasObject, schemaMigrations]
  have hkeep : (crash db (n + 1)).catalog.hasObject "schema_migrations" := by
    rw [crash_succ]
    exact runFor_keeps exec (J := fun d => d.catalog.hasObject "schema_migrations")
      (fun c d hd => (exec_extends c d).object hd) n _ hobj
  rw [prepared_eq, if_pos hkeep]

theorem prepared_isMigrationApplied (db : Database) : (prepared db).isMigrationApplied = db.isMigrationApplied := by
  rw [prepared_eq]
  split <;> rfl

/-- From every version 0 to 5 and whatever the rows, an uninterrupted open succeeds. -/
theorem openStore_ok {v : ℕ} {db : Database} (hv : v ≤ 5) (h : AtVersion v db) : (openStore db).1 = .ok () := by
  rw [openStore_eq]
  refine applyMigrations_ok ?_
  have hcat : (prepared db).catalog = catalogAt v := by
    rw [prepared_eq]
    rcases h.catalog with hc | ⟨rfl, hc⟩
    · have hobj : ∀ v < 6, (catalogAt v).hasObject "schema_migrations" = true := by decide +kernel
      rw [hc, if_pos (hobj v (by omega)), hc]
    · rw [hc]
      rfl
  rw [hcat, prepared_isMigrationApplied, funext h.recorded]
  exact installable_catalogAt v (by omega)

/-- No crash of the sequence falls inside a migration. -/
def CrashesBetween : Database → List ℕ → Prop
  | _, [] => True
  | db, n :: ns => insideScript db.isMigrationApplied migrations (n - 1) = false ∧ CrashesBetween (crash db n) ns

theorem openStore_crash {db : Database} {n : ℕ} (hok : (openStore db).1 = .ok ())
    (hn : insideScript db.isMigrationApplied migrations (n - 1) = false) : openStore (crash db n) = openStore db := by
  cases n with
  | zero => rw [crash_zero]
  | succ n =>
    rw [openStore_eq] at hok
    have hrun : (applyMigrations migrations).run exec (prepared db) = (.ok (), (openStore db).2) := by
      rw [openStore_eq, ← hok]
    rw [openStore_eq (crash db (n + 1)), prepared_crash_succ, crash_succ,
      run_resumes hrun (by rw [prepared_isMigrationApplied]; exact hn), openStore_eq, hrun]

theorem stuck_crash {db : Database} {n : ℕ} (hok : (openStore db).1 = .ok ())
    (hn : insideScript db.isMigrationApplied migrations (n - 1) = true) :
    prepared (crash db n) = crash db n ∧ Stuck migrations (crash db n) := by
  cases n with
  | zero =>
    simp only [Nat.zero_sub] at hn
    rw [insideScript_zero] at hn
    cases hn
  | succ n =>
    refine ⟨prepared_crash_succ db n, ?_⟩
    rw [openStore_eq] at hok
    have hrun : (applyMigrations migrations).run exec (prepared db) = (.ok (), (openStore db).2) := by
      rw [openStore_eq, ← hok]
    rw [crash_succ]
    exact stuck_of_inside migrations_once hrun (by rw [prepared_isMigrationApplied]; exact hn)

theorem Stuck.foldl_crash {db : Database} (hp : prepared db = db) (h : Stuck migrations db) (ns : List ℕ) :
    ns.foldl crash db = db := by
  induction ns with
  | nil => rfl
  | cons n ns ih =>
    have hn : crash db n = db := by
      cases n with
      | zero => exact crash_zero db
      | succ n => rw [crash_succ, hp, h.frozen]
    rw [List.foldl_cons, hn]
    exact ih

/-- After any crashes the next open ends well, in the database of an uninterrupted open,
exactly when none of the crashes cut a migration short. -/
theorem reopen_iff {v : ℕ} {db : Database} (hv : v ≤ 5) (h : AtVersion v db) (crashes : List ℕ) :
    openStore (crashes.foldl crash db) = (.ok (), (openStore db).2) ↔ CrashesBetween db crashes := by
  have hok := openStore_ok hv h
  clear h
  induction crashes generalizing db with
  | nil =>
    refine iff_of_true ?_ trivial
    rw [List.foldl_nil, ← hok]
  | cons n ns ih =>
    rw [List.foldl_cons, CrashesBetween]
    cases hn : insideScript db.isMigrationApplied migrations (n - 1) with
    | true =>
      obtain ⟨hp, hs⟩ := stuck_crash hok hn
      refine iff_of_false (fun heq => ?_) (by simp)
      rw [hs.foldl_crash hp, openStore_eq, hp] at heq
      exact hs.fails (congrArg Prod.fst heq)
    | false =>
      have hsame := openStore_crash hok hn
      have hrest := ih (hsame ▸ hok)
      rw [hsame] at hrest
      simpa using hrest

def newFile : Database := ⟨Catalog.empty, fun _ => [], []⟩

theorem atVersion_newFile : AtVersion 0 newFile :=
  ⟨.inr ⟨rfl, rfl⟩, fun w => by simp [newFile, Database.isMigrationApplied]; omega⟩

/-- A crash between two migrations of the first open. -/
theorem reopen_newFile : openStore (crash newFile 15) = (.ok (), (openStore newFile).2) :=
  (reopen_iff (by decide) atVersion_newFile [15]).mpr ⟨by decide +kernel, trivial⟩

/-- A crash right after `CREATE TABLE memories`. -/
theorem reopen_fails_after_first_statement :
    AtVersion 0 newFile ∧ (openStore (crash newFile 3)).1 = .error (.alreadyExists "memories") :=
  ⟨atVersion_newFile, by decide +kernel⟩

end CognitiveMemory.Migrations
