import CognitiveMemory.Lib.Book
import CognitiveMemory.Store.Effects

/-! The notebook a database holds: what was written, by whom and under which id. Scores, tiers and
marks are not part of it. -/

namespace CognitiveMemory
variable {F : Type}

structure Note where
  content : String
  memoryType : String
  metadata : String
  deriving DecidableEq

abbrev Notebook := Book String String Note

def MemoryRow.note (r : MemoryRow F) : Note := ⟨r.content, r.memoryType, r.metadata⟩

def MemoryRow.page (r : MemoryRow F) : String × String × Note := (r.userId, r.id, r.note)

def Db.pages (db : Db F) : List (String × String × Note) := db.memories.map MemoryRow.page

def Db.notebook (db : Db F) : Notebook := Book.ofRows db.pages

def MemoryUpdate.revises (upd : MemoryUpdate F) (n : Note) : Note :=
  ⟨upd.content.getD n.content, upd.memoryType.getD n.memoryType, upd.metadata.getD n.metadata⟩

theorem notebook_of_pages {db db' : Db F} (h : db'.pages = db.pages) : db'.notebook = db.notebook := by
  unfold Db.notebook
  rw [h]

theorem Db.Keyed.pages {db : Db F} (h : db.Keyed) : (db.pages.map fun e => e.2.1).Nodup := by
  have hids : (db.pages.map fun e => e.2.1) = db.memories.map MemoryRow.id := List.map_map
  exact hids ▸ h

theorem notebook_eq_some {db : Db F} (h : db.Keyed) {user id : String} {n : Note} : db.notebook user id = some n ↔
    ∃ r ∈ db.memories, r.userId = user ∧ r.id = id ∧ r.note = n := by
  unfold Db.notebook
  rw [Book.ofRows_eq_some h.pages, Db.pages, List.mem_map]
  simp only [MemoryRow.page, Prod.mk.injEq]

theorem notebook_row {db : Db F} (h : db.Keyed) {r : MemoryRow F} (hr : r ∈ db.memories) :
    db.notebook r.userId r.id = some r.note := (notebook_eq_some h).mpr ⟨r, hr, rfl, rfl, rfl⟩

theorem notebook_none {db : Db F} {user id : String} :
    db.notebook user id = none ↔ ∀ r ∈ db.memories, ¬ (r.userId = user ∧ r.id = id) := by
  unfold Db.notebook
  rw [Book.ofRows_none]
  constructor
  · rintro h r hr ⟨rfl, rfl⟩
    exact h r.note (List.mem_map_of_mem hr)
  · intro h n hn
    obtain ⟨r, hr, heq⟩ := List.mem_map.mp hn
    simp only [MemoryRow.page, Prod.mk.injEq] at heq
    exact h r hr ⟨heq.1, heq.2.1⟩

theorem notebook_isSome {db : Db F} {user id : String} :
    (db.notebook user id).isSome ↔ ∃ r ∈ db.memories, r.userId = user ∧ r.id = id := by
  rw [Option.isSome_iff_ne_none, ne_eq, notebook_none]
  simp

variable {db db' : Db F}

/-! ## Statements that leave it alone -/

theorem pages_modify (p : MemoryRow F → Bool) {f : MemoryRow F → MemoryRow F} (hf : ∀ r, (f r).page = r.page) :
    (db.modify p f).pages = db.pages := by
  simp only [Db.pages, Db.modify, List.map_map]
  apply List.map_congr_left
  intro r _
  simp only [Function.comp_apply]
  split
  · exact hf r
  · rfl

section
variable [Field F] [LinearOrder F]

theorem page_edit {w : Write F} (hw : ¬ w.restates) {f : MemoryRow F → MemoryRow F} (hf : w.edits f) (r : MemoryRow F) :
    (f r).page = r.page := by
  cases w with
  | updateMemory => exact absurd trivial hw
  | applyDirectBoost | updateRetentionScores | tickExpire =>
    obtain ⟨x, -, rfl⟩ := hf
    rfl
  | tickFloor => rcases hf with rfl | rfl | rfl <;> rfl
  | promoteToCore | markSuperseded | migrateToCold | migrateToHot | migrateToHotMany | convertToStub | queueConflicts
    | supersedeCluster =>
    subst hf
    rfl
  | _ => exact hf.elim

theorem Write.pages_same {w : Write F} {a : w.Res} (hw : ¬ w.restates) (h : w.apply db = .ok (a, db')) :
    db'.pages = db.pages := by
  have hreshapes : ¬ w.reshapes := by
    intro hr
    apply hw
    cases w with
    | insertMemory | deleteMemory | deleteMany | clearUser => trivial
    | _ => exact hr.elim
  exact (Write.edited hreshapes h).map_eq fun f hf r => page_edit hw hf r

omit [LinearOrder F] in
theorem supersede_pages (winner loser : MemoryRow F) : (db.supersede winner loser).pages = db.pages := by
  have hmark : (db.modify (fun r => r.id == loser.id) fun r => { r with
      isSuperseded := true, supersededBy := some winner.id, contradictedBy := some winner.id }).pages = db.pages :=
    pages_modify _ fun _ => rfl
  unfold Db.supersede
  dsimp only
  split
  · refine Eq.trans ?_ hmark
    exact pages_modify _ fun _ => rfl
  · exact hmark

theorem applyLabel_pages (llm : Bool) (n e : MemoryRow F) (label : ConflictLabel) :
    (db.applyLabel llm n e label).1.pages = db.pages := by
  have hlift : (db.liftImportance n e).pages = db.pages := by
    unfold Db.liftImportance
    split
    · exact pages_modify _ fun _ => rfl
    · rfl
  cases label with
  | contradiction =>
    simp only [Db.applyLabel]
    split_ifs <;> exact supersede_pages _ _
  | update =>
    simp only [Db.applyLabel]
    split_ifs
    · exact (supersede_pages _ _).trans hlift
    all_goals exact supersede_pages _ _
  | overlap | none_ => rfl

theorem resolving_pages (llm : Bool) (answers : ℕ → String → Except String String) (pairs : List ConflictPair)
    (acc : Resolving F) : (pairs.foldl (Resolving.pair llm answers) acc).db.pages = acc.db.pages := by
  induction pairs generalizing acc with
  | nil => rfl
  | cons p pairs ih =>
    refine (ih _).trans ?_
    show (acc.resolve llm answers p).db.pages = _
    unfold Resolving.resolve
    split
    · split
      · exact applyLabel_pages llm _ _ _
      · rfl
    · rfl

def Cmd.wordless (c : Cmd F) : Prop := ∀ w, c = .write w → ¬ w.restates

theorem pages_exec (bm25 : Bm25 F) {c : Cmd F} (hc : c.wordless) (w : World F) :
    (exec bm25 c w).2.db.pages = w.db.pages := by
  refine exec_keeps (P := fun db => db.pages = w.db.pages) bm25 rfl ?_ fun llm pairs _ => resolving_pages _ _ _ _
  exact fun wr a db hwr happly => Write.pages_same (hc wr hwr) happly

end

/-! ## Statements that write it -/

theorem notebook_insert {row : MemoryRow F} (h : db.insertMemory row = .ok db') :
    db.notebook.Unused row.id ∧ db'.notebook = db.notebook.write row.userId row.id row.note := by
  have hfresh : ∀ e ∈ db.pages, e.2.1 ≠ row.id := by
    intro e he heq
    obtain ⟨r, hr, rfl⟩ := List.mem_map.mp he
    unfold Db.insertMemory at h
    rw [if_pos (hasMemory_iff.mpr ⟨r, hr, heq⟩)] at h
    cases h
  refine ⟨Book.unused_ofRows hfresh, ?_⟩
  rw [insertMemory_ok h]
  unfold Db.notebook Db.pages
  rw [List.map_append]
  exact Book.ofRows_append hfresh

theorem notebook_update (userId id : String) (upd : MemoryUpdate F) :
    (db.updateMemory userId id upd).notebook = db.notebook.revise userId id upd.revises := by
  unfold Db.notebook
  rw [← Book.ofRows_map, Db.pages, (updateMemory_tables db userId id upd).1]
  simp only [Db.modify, Db.pages, List.map_map]
  congr 1
  apply List.map_congr_left
  intro r _
  simp only [Function.comp_apply]
  by_cases hr : r.userId = userId ∧ r.id = id
  · have hown : owned userId id r = true := by simp [owned, hr]
    rw [if_pos hown]
    exact (if_pos hr).symm
  · have hown : ¬ owned userId id r = true := by simpa [owned] using hr
    rw [if_neg hown]
    exact (if_neg hr).symm

theorem notebook_delete {u : String} {p : MemoryRow F → Bool} {q : String → Bool}
    (hp : ∀ r, p r = true ↔ r.userId = u ∧ q r.id = true) : (db.deleteMemories p).notebook = db.notebook.erase u q := by
  unfold Db.notebook
  rw [← Book.ofRows_filter]
  congr 1
  simp only [Db.pages, Db.deleteMemories, List.filter_map]
  refine congrArg _ (List.filter_congr fun r _ => ?_)
  rw [Function.comp_apply, Bool.eq_iff_iff, Bool.not_eq_true', Bool.not_eq_true', decide_eq_false_iff_not,
    ← Bool.not_eq_true, hp]
  rfl

/-! ## Counting -/

theorem matching_notes (h : db.Keyed) {u : String} {p : MemoryRow F → Bool} {q : String → Bool}
    (hp : ∀ r, p r = true ↔ r.userId = u ∧ q r.id = true) : db.matching p = db.notebook.size u q := by
  unfold Db.notebook
  rw [Book.size_ofRows h.pages, Db.pages, List.filter_map, List.length_map]
  unfold Db.matching
  congr 1
  apply List.filter_congr
  intro r _
  rw [Function.comp_apply, Bool.eq_iff_iff, hp, decide_eq_true_iff]
  rfl

end CognitiveMemory
