import CognitiveMemory.Daemon.Writes
import CognitiveMemory.Store.Upgrade

/-! The cold tier. Its two columns move together in every statement, and a memory that comes
back from it starts its count at the floor anew. -/

namespace CognitiveMemory
open Prog
variable {F : Type}

def MemoryRow.Paired (r : MemoryRow F) : Prop := r.isCold = true ↔ r.coldSince.isSome

def Db.Paired (db : Db F) : Prop := ∀ r ∈ db.memories, r.Paired

/-- Every memory that was cold and is hot now has no ticks at the floor. -/
def Db.ThawsFrom (db' db : Db F) : Prop := ∀ r ∈ db.memories, ∀ r' ∈ db'.memories, r'.id = r.id →
  r.isCold = true → r'.isCold = false → r'.daysAtFloor = 0

/-! ## Statements -/

def Write.restores : Write F → Prop
  | .migrateToHot .. | .migrateToHotMany .. => True
  | _ => False

variable [Field F] [LinearOrder F]

theorem paired_edit {w : Write F} {f : MemoryRow F → MemoryRow F} (hf : w.edits f) {r : MemoryRow F} (h : r.Paired) :
    (f r).Paired := by
  have hcold : ∀ now : Int, (true = true ↔ (some now).isSome) := fun _ => by simp
  have hhot : false = true ↔ (none : Option Int).isSome := by simp
  cases w with
  | applyDirectBoost | updateRetentionScores | tickExpire =>
    obtain ⟨x, -, rfl⟩ := hf
    exact h
  | tickFloor rows now =>
    rcases hf with rfl | rfl | rfl
    · exact h
    · exact h
    · exact hcold now
  | migrateToCold user id coldSince =>
    subst hf
    exact hcold coldSince
  | supersedeCluster user target ids now =>
    subst hf
    exact hcold now
  | migrateToHot | migrateToHotMany =>
    subst hf
    exact hhot
  | updateMemory | promoteToCore | markSuperseded | convertToStub | queueConflicts =>
    subst hf
    exact h
  | _ => exact hf.elim

theorem edit_id {w : Write F} {f : MemoryRow F → MemoryRow F} (hf : w.edits f) (r : MemoryRow F) : (f r).id = r.id := by
  cases w with
  | applyDirectBoost | updateRetentionScores | tickExpire =>
    obtain ⟨x, -, rfl⟩ := hf
    rfl
  | tickFloor => rcases hf with rfl | rfl | rfl <;> rfl
  | updateMemory | promoteToCore | markSuperseded | migrateToCold | migrateToHot | migrateToHotMany | convertToStub
    | queueConflicts | supersedeCluster =>
    subst hf
    rfl
  | _ => exact hf.elim

/-- A memory that was cold is cold still, or a restoring statement has cleared its count. -/
theorem thaw_edit {w : Write F} {f : MemoryRow F → MemoryRow F} (hf : w.edits f) {r : MemoryRow F}
    (h : r.isCold = true ∨ w.restores ∧ r.daysAtFloor = 0) : (f r).isCold = true ∨ w.restores ∧ (f r).daysAtFloor = 0 := by
  by_cases hw : w.restores
  · cases w with
    | migrateToHot | migrateToHotMany =>
      subst hf
      exact .inr ⟨trivial, rfl⟩
    | _ => exact hw.elim
  have hcold : r.isCold = true := h.resolve_right fun h => hw h.1
  refine .inl ?_
  cases w with
  | migrateToHot | migrateToHotMany => exact absurd trivial hw
  | applyDirectBoost | updateRetentionScores | tickExpire =>
    obtain ⟨x, -, rfl⟩ := hf
    exact hcold
  | tickFloor =>
    rcases hf with rfl | rfl | rfl
    · exact hcold
    · exact hcold
    · rfl
  | migrateToCold | supersedeCluster =>
    subst hf
    rfl
  | updateMemory | promoteToCore | markSuperseded | convertToStub | queueConflicts =>
    subst hf
    exact hcold
  | _ => exact hf.elim

theorem paired_of_derived {t : Caller F} {h : Seen F} {row : MemoryRow F} (hd : t.derives h (.write (.insertMemory row))) :
    row.Paired := by
  have hhot : row.isCold = false ∧ row.coldSince = none := by
    obtain ⟨-, ⟨args, id, vector, now, rfl⟩ | ⟨user, rows, marked, group, id, text, vector, now, -, -, rfl⟩⟩ := hd
    · unfold storedRow
      dsimp only
      split <;> exact ⟨rfl, rfl⟩
    · exact ⟨rfl, rfl⟩
  unfold MemoryRow.Paired
  rw [hhot.1, hhot.2]
  simp

theorem paired_exec (bm25 : Bm25 F) {t : Caller F} {h : Seen F} {c : Cmd F} (hd : t.derives h c) {w : World F}
    (hp : w.db.Paired) : (exec bm25 c w).2.db.Paired := by
  refine exec_keeps bm25 hp ?_ fun llm pairs _ => ?_
  · rintro wr a db rfl happly
    refine Write.forall_rows ?_ (fun user id upd _ r _ _ hr => hr) (fun _ f hf r => paired_edit hf) hp happly
    rintro row rfl
    exact paired_of_derived hd
  · exact resolving_forall_rows (fun r winner hr => hr) (fun r _ hr => hr) (fun n e r _ _ hr => hr) llm _ pairs hp

theorem thaws_write {w : Write F} {db db' : Db F} {a : w.Res} (hk : db.Keyed) (happly : w.apply db = .ok (a, db')) :
    db'.ThawsFrom db := by
  intro r hr
  let P : MemoryRow F → Prop := fun r' => r'.id = r.id → r.isCold = true →
    r'.isCold = true ∨ w.restores ∧ r'.daysAtFloor = 0
  have hold : ∀ r' ∈ db.memories, P r' := by
    intro r' hr' hid hcold
    rw [hk.eq_of_id hr' hr hid]
    exact .inl hcold
  have hnew : ∀ r' ∈ db'.memories, P r' := by
    refine Write.forall_rows ?_ (fun user id upd _ r' _ _ h => h) (fun _ f hf r' h hid hcold => ?_) hold happly
    · -- a new row has a new id
      rintro row rfl hid
      obtain ⟨d, hd, -⟩ := map_ok happly
      exact absurd hid.symm (insertMemory_fresh hd r hr)
    · exact thaw_edit hf (h (edit_id hf r' ▸ hid) hcold)
  intro r' hr' hid hcold hhot
  rcases hnew r' hr' hid hcold with hcold' | ⟨-, hzero⟩
  · rw [hcold'] at hhot
    cases hhot
  · exact hzero

omit [Field F] [LinearOrder F] in
theorem thaws_refl {db : Db F} (hk : db.Keyed) : db.ThawsFrom db := by
  intro r hr r' hr' hid hcold hhot
  rw [hk.eq_of_id hr' hr hid, hcold] at hhot
  cases hhot

theorem thaws_exec (bm25 : Bm25 F) (c : Cmd F) {w : World F} (hk : w.db.Keyed) :
    (exec bm25 c w).2.db.ThawsFrom w.db := by
  refine exec_keeps (P := fun db => db.ThawsFrom w.db) bm25 (thaws_refl hk) ?_ fun llm pairs _ r hr => ?_
  · rintro wr a db - happly
    exact thaws_write hk happly
  · -- the resolver leaves every memory in its tier
    have hstays := resolving_forall_rows (P := fun r' => r'.id = r.id → r.isCold = true → r'.isCold = true)
      (fun r' winner h => h) (fun r' _ h => h) (fun n e r' _ _ h => h) llm w.oracle.llm pairs
      (show ∀ r' ∈ (⟨w.db, 0, 0⟩ : Resolving F).db.memories, _ from fun r' hr' hid hcold => by rw [hk.eq_of_id hr' hr hid, hcold])
    intro r' hr' hid hcold hhot
    rw [hstays r' hr' hid hcold] at hhot
    cases hhot

/-! ## Runs -/

/-- A new store, or an open file. Where the file had tiers already, it had them in step. -/
inductive World.Opened (w : World F) : Prop
  | new (h : w.Start)
  | file {v : ℕ} {file : Migrations.Database} (hv : v ≤ 5) (h : Migrations.AtVersion v file) (hrows : file.Housed)
      (htyped : file.Typed)
      (hpaired : 3 ≤ v → ∀ r ∈ file.rows "memories", r.isCold = true ↔ r.coldSince.isSome)
      (htiers : ((Migrations.openStore file).2.rows "memories").map Migrations.Row.tier =
        w.db.memories.map fun r => (r.isCold, r.coldSince))
      (hkeyed : w.db.Keyed)

omit [Field F] [LinearOrder F] in
theorem World.Opened.keyed {w : World F} (h : w.Opened) : w.db.Keyed := by
  cases h with
  | new h => simp [Db.Keyed, h.db, Db.empty]
  | file hv h hrows htyped hpaired htiers hkeyed => exact hkeyed

omit [Field F] [LinearOrder F] in
theorem World.Opened.paired {w : World F} (h : w.Opened) : w.db.Paired := by
  cases h with
  | new h =>
    rw [Db.Paired, h.db]
    exact fun r hr => nomatch hr
  | @file v file hv h hrows htyped hpaired htiers hkeyed =>
    intro r hr
    have htier : (r.isCold, r.coldSince) ∈ (file.rows "memories").map Migrations.Row.tier := by
      rw [← Migrations.openStore_tiers, htiers]
      exact List.mem_map.mpr ⟨r, hr, rfl⟩
    obtain ⟨raw, hraw, htier⟩ := List.mem_map.mp htier
    obtain ⟨hcold, hsince⟩ := Prod.mk.inj htier
    unfold MemoryRow.Paired
    rw [← hcold, ← hsince]
    by_cases hold : v ≤ 2
    · have hraw' := Migrations.tier_of_old hold h hrows htyped raw hraw
      obtain ⟨hcold', hsince'⟩ := Prod.mk.inj hraw'
      rw [hcold', hsince']
      simp
    · exact hpaired (by omega) raw hraw

/-- Whatever is requested, in whatever order its statements run: in every state a memory is cold
exactly when it has a time since which it is, and a statement that brings it back clears its
count at the floor. -/
theorem tiers_consistent [Elementary F] (bm25 : Bm25 F) {w : World F} (h : w.Opened) (ts : List (Caller F))
    (schedule : List ℕ) :
    ((accepted w ts).play (exec bm25) schedule).state.db.Paired ∧
      ∀ i, (((accepted w ts).play (exec bm25) schedule).turn (exec bm25) i).state.db.ThawsFrom
        ((accepted w ts).play (exec bm25) schedule).state.db := by
  let J : Requests F → Prop := fun p => p.Obeys Caller.derives ∧ p.state.db.Keyed ∧ p.state.db.Paired
  have hJ : J ((accepted w ts).play (exec bm25) schedule) := by
    refine Pool.play_invariant (fun p i t c hp hn => ?_) ⟨derives_accepted w ts, h.keyed, h.paired⟩ schedule
    obtain ⟨hobeys, hkeyed, hpaired⟩ := hp
    obtain ⟨k, -, hturn⟩ := Pool.turn_some (x := exec bm25) hn
    refine ⟨hobeys.turn i, ?_, ?_⟩ <;> rw [hturn]
    · exact keyed_exec bm25 hkeyed
    · exact paired_exec bm25 (hobeys.allowed hn) hpaired
  refine ⟨hJ.2.2, fun i => ?_⟩
  cases hn : ((accepted w ts).play (exec bm25) schedule).next? i with
  | none =>
    rw [Pool.turn_none hn]
    exact thaws_refl hJ.2.1
  | some tc =>
    obtain ⟨k, -, hturn⟩ := Pool.turn_some (x := exec bm25) hn
    rw [hturn]
    exact thaws_exec bm25 tc.2 hJ.2.1

/-! ### A file of version 2 -/

def freeze : Caller ℚ := ⟨.flat, "alice", .lifecycle (.migrateToCold "alice" "mem_a" 5)⟩

def fetch : Caller ℚ := ⟨.flat, "alice", .memory (.get "alice" "mem_a")⟩

theorem teaWorld_opened : (Migrations.teaWorld []).Opened := by
  have hfile : Migrations.AtVersion 2 (Migrations.teaFile 2 []) := by
    refine ⟨.inl rfl, fun w => ?_⟩
    simp [Migrations.teaFile, Migrations.migrations, Migrations.Database.isMigrationApplied]
    grind
  refine .file (by decide) hfile (Migrations.teaFile_housed (by decide +kernel) fun _ => rfl) ?_ (by decide)
    (by decide +kernel) (by simp [Migrations.teaWorld, Db.Keyed])
  unfold Migrations.Database.Typed
  decide +kernel

/-- The memory of the file goes to cold and comes back when it is read. -/
theorem tea_thaws : ((accepted (Migrations.teaWorld []) [freeze, fetch]).play (exec Bm25.none) [0, 1]).state.db.Paired ∧
    ∀ i, (((accepted (Migrations.teaWorld []) [freeze, fetch]).play (exec Bm25.none) [0, 1]).turn
      (exec Bm25.none) i).state.db.ThawsFrom
      ((accepted (Migrations.teaWorld []) [freeze, fetch]).play (exec Bm25.none) [0, 1]).state.db :=
  tiers_consistent Bm25.none teaWorld_opened [freeze, fetch] [0, 1]

end CognitiveMemory
