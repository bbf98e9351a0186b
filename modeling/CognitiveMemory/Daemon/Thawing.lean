import CognitiveMemory.Daemon.Tenancy
import CognitiveMemory.Daemon.Writes

/-! Memories that come back from the cold tier when they are read: which of the reading handlers
restores what it returns. -/

namespace CognitiveMemory
open Prog
variable {F : Type}

/-! ## What is to hold -/

def ResponseData.returned : ResponseData F → List String
  | .memory data => [data.id]
  | .memories data => data.map MemoryData.id
  | .memorySearchResults results _ => results.map SearchHit.memoryId
  | _ => []

def MemoryRow.tier (r : MemoryRow F) : String × Bool × Option Int × Int := (r.id, r.isCold, r.coldSince, r.daysAtFloor)

def Db.Thawed (db : Db F) (id : String) : Prop :=
  ∃ r ∈ db.memories, r.id = id ∧ r.isCold = false ∧ r.coldSince = none ∧ r.daysAtFloor = 0

/-- Whatever is returned and was cold is hot now. -/
def Thaws (db : Db F) (response : ResponseData F) (db' : Db F) : Prop :=
  ∀ id ∈ response.returned, ∀ r ∈ db.memories, r.id = id → r.isCold = true → db'.Thawed id

/-- Get, GetMany, and a Search that recalls deep or takes no hop. -/
def Request.thaws : Request F → Prop
  | .memory (.get ..) | .memory (.getMany ..) => True
  | .memory (.search args) => args.deepRecall = true ∨ args.graphExpansionHops = 0
  | _ => False

/-! ## Statements -/

theorem thawed_iff {db : Db F} {id : String} : db.Thawed id ↔ (id, false, none, 0) ∈ db.memories.map MemoryRow.tier := by
  simp only [Db.Thawed, MemoryRow.tier, List.mem_map, Prod.mk.injEq]

theorem Db.Thawed.modify {db : Db F} {id : String} (h : db.Thawed id) (p : MemoryRow F → Bool) :
    (db.modify p restoreRow).Thawed id := by
  obtain ⟨r, hr, hid, hcold, hsince, hdays⟩ := h
  refine ⟨if p r then restoreRow r else r, List.mem_map_of_mem hr, ?_⟩
  split
  · exact ⟨hid, rfl, rfl, rfl⟩
  · exact ⟨hid, hcold, hsince, hdays⟩

/-- `migrate_to_hot_many` restores every memory of the user that it is told of. -/
theorem thawed_modifyEach {userId : String} {ids : List String} {db : Db F} {r : MemoryRow F} (hr : r ∈ db.memories)
    (huser : r.userId = userId) (hid : r.id ∈ ids) : (db.modifyEach (owned userId) (fun _ => restoreRow) ids).1.Thawed r.id := by
  rw [modifyEach_fst]
  have hstays : ∀ (ids : List String) (db : Db F), db.Thawed r.id →
      (ids.foldl (fun d x => d.modify (owned userId x) restoreRow) db).Thawed r.id := by
    intro ids
    induction ids with
    | nil => exact fun db h => h
    | cons x ids ih => exact fun db h => ih _ (h.modify _)
  induction ids generalizing db with
  | nil => cases hid
  | cons x ids ih =>
    rw [List.foldl_cons]
    by_cases hx : x = r.id
    · have hselected : owned userId x r = true := by simp [owned, huser, hx]
      refine hstays ids _ ⟨if owned userId x r then restoreRow r else r, List.mem_map_of_mem hr, ?_⟩
      rw [if_pos hselected]
      exact ⟨rfl, rfl, rfl, rfl⟩
    · have hother : ¬ owned userId x r = true := by simp [owned, Ne.symm hx]
      have hkept : r ∈ (db.modify (owned userId x) restoreRow).memories := by
        have hmem := List.mem_map_of_mem (f := fun r => if owned userId x r then restoreRow r else r) hr
        rwa [if_neg hother] at hmem
      exact ih hkept ((List.mem_cons.mp hid).resolve_left fun h => hx h.symm)

def Write.retiers : Write F → Prop
  | .migrateToCold .. | .migrateToHot .. | .migrateToHotMany .. | .tickFloor .. | .supersedeCluster .. => True
  | _ => False

def Cmd.keepsTiers : Cmd F → Prop
  | .write w => ¬ w.reshapes ∧ ¬ w.retiers
  | .resolveConflicts .. => False
  | _ => True

variable [Field F] [LinearOrder F]

theorem tier_edit {w : Write F} (hw : ¬ w.retiers) {f : MemoryRow F → MemoryRow F} (hf : w.edits f) (r : MemoryRow F) :
    (f r).tier = r.tier := by
  cases w with
  | applyDirectBoost | updateRetentionScores | tickExpire =>
    obtain ⟨x, -, rfl⟩ := hf
    rfl
  | migrateToCold | migrateToHot | migrateToHotMany | tickFloor | supersedeCluster => exact absurd trivial hw
  | updateMemory | promoteToCore | markSuperseded | convertToStub | queueConflicts =>
    subst hf
    rfl
  | _ => exact hf.elim

/-- The tiers of a store. -/
def Db.tiers (db : Db F) : List (String × Bool × Option Int × Int) := db.memories.map MemoryRow.tier

theorem tiers_exec (bm25 : Bm25 F) {c : Cmd F} (hc : c.keepsTiers) (w : World F) :
    (exec bm25 c w).2.db.tiers = w.db.tiers := by
  refine exec_keeps (P := fun db => db.tiers = w.db.tiers) bm25 rfl ?_ fun llm pairs heq => ?_
  · rintro wr a db rfl happly
    exact (Write.edited hc.1 happly).map_eq fun f hf r => tier_edit hc.2 hf r
  · subst heq
    exact hc.elim

/-! ## Parts of the handlers -/

theorem quiet_memories (bm25 : Bm25 F) {c : Cmd F} (hc : c.quiet) (w : World F) : (exec bm25 c w).2.db.memories =
    w.db.memories := by
  refine exec_keeps (P := fun db => db.memories = w.db.memories) bm25 rfl ?_ fun llm pairs heq => ?_
  · rintro wr a db rfl happly
    cases wr with
    | cacheInsert row =>
      have hedited := Write.edited (w := .cacheInsert row) not_false happly
      simpa using hedited.map_eq (g := id) fun f hf r => hf.elim
    | _ => exact hc.elim
  · subst heq
    exact hc.elim

theorem still_memories (bm25 : Bm25 F) {c : Cmd F} (hc : c.still) (w : World F) : (exec bm25 c w).2.db.memories =
    w.db.memories := by
  refine exec_keeps (P := fun db => db.memories = w.db.memories) bm25 rfl ?_ fun llm pairs heq => ?_
  · rintro wr a db rfl happly
    exact hc.elim
  · subst heq
    exact hc.elim

section
variable {bm25 : Bm25 F} {w : World F}

/-- Programs that write nothing, as far as the memories are concerned. -/
theorem wp_still {ε α : Type} {p : Prog (Cmd F) Cmd.Res ε α} (hp : p.Only Cmd.still) {memories : List (MemoryRow F)}
    (hw : w.db.memories = memories) : p.wp (exec bm25) (fun _ w' => w'.db.memories = memories) (fun _ => True) w :=
  hp.wp (fun _ s hc hs => (still_memories bm25 hc s).trans hs) hw

theorem wp_ask {q : Query F} {r : q.Res} (hq : q.eval bm25 w.db = .ok r) :
    (query q).wp (exec bm25) (fun a w' => a = r ∧ w'.db = w.db) (fun _ => True) w := by
  have hreads : w.Reads w.db False := ⟨rfl, False.elim⟩
  exact ((wp_query hreads hq).imp fun _ _ h => ⟨h.1, h.2.db⟩).imp_error fun _ _ => trivial

theorem wp_getManyForUser {userId : String} {ids : List String} : (getManyForUser userId ids).wp (exec bm25)
    (fun rows w' => (∀ r, r ∈ rows ↔ r ∈ w.db.memories ∧ r.userId = userId ∧ r.id ∈ ids) ∧ w'.db = w.db) (fun _ => True) w := by
  unfold getManyForUser
  split
  · rename_i hnil
    refine ⟨fun r => ?_, rfl⟩
    simp [List.isEmpty_iff.mp hnil]
  · refine (wp_ask (q := .getManyForUser userId ids) rfl).imp ?_
    rintro rows w' ⟨rfl, hdb⟩
    exact ⟨fun r => mem_getManyForUser, hdb⟩

theorem wp_migrateToHotMany {userId : String} {ids : List String} : (migrateToHotMany userId ids).wp (exec bm25)
    (fun _ w' => ∀ r ∈ w.db.memories, r.userId = userId → r.id ∈ ids → w'.db.Thawed r.id) (fun _ => True) w := by
  unfold migrateToHotMany unlessEmpty
  split
  · rename_i hnil
    intro r _ _ hid
    rw [List.isEmpty_iff.mp hnil] at hid
    cases hid
  · refine (wp_write (c := .migrateToHotMany userId ids)).imp fun n w' happly r hr huser hid => ?_
    obtain ⟨-, hdb⟩ := Prod.mk.inj (Except.ok.inj happly)
    exact hdb ▸ thawed_modifyEach hr huser hid

theorem wp_restoreCold {userId : String} {ids : List String} : (restoreCold userId ids).wp (exec bm25)
    (fun _ w' => ∀ r ∈ w.db.memories, r.userId = userId → r.id ∈ ids → r.isCold = true → w'.db.Thawed r.id)
      (fun _ => True) w := by
  refine wp.seq (wp_getManyForUser.mapError fun _ _ => trivial) ?_
  rintro rows w₁ ⟨hrows, hdb⟩
  refine wp.seq (wp_migrateToHotMany.mapError fun _ _ => trivial) fun _ w₂ hthawed => ?_
  intro r hr huser hid hcold
  refine hthawed r (hdb ▸ hr) huser (List.mem_map.mpr ⟨r, List.mem_filter.mpr ⟨(hrows r).mpr ⟨hr, huser, hid⟩, hcold⟩, rfl⟩)

variable {app : AppState F}

variable [Elementary F]

theorem wp_memoryRowToData {row : MemoryRow F} : (memoryRowToData app row).wp (exec bm25)
    (fun data w' => data.id = row.id ∧ w'.db = w.db) (fun _ => True) w :=
  ⟨rfl, rfl⟩

theorem wp_memoryRowsToData {rows : List (MemoryRow F)} : (memoryRowsToData app rows).wp (exec bm25)
    (fun data w' => data.map MemoryData.id = rows.map MemoryRow.id ∧ w'.db = w.db) (fun _ => True) w := by
  induction rows generalizing w with
  | nil => exact ⟨rfl, rfl⟩
  | cons row rows ih =>
    refine wp.seq wp_memoryRowToData ?_
    rintro d w₁ ⟨hd, hdb⟩
    refine wp.seq ih ?_
    rintro ds w₂ ⟨hds, hdb'⟩
    exact ⟨by rw [List.map_cons, List.map_cons, hd, hds], hdb'.trans hdb⟩

/-! ## The handlers -/

theorem wp_get (hk : w.db.Keyed) {userId id user : String} : (handleMemoryGet app userId id user).wp (exec bm25)
    (fun response w' => Thaws w.db response w'.db) (fun _ => True) w := by
  unfold handleMemoryGet requireUserMatch
  split
  swap
  · trivial
  refine wp.seq (P := fun _ w' => w = w') rfl ?_
  rintro _ _ rfl
  refine wp.seq ((wp_ask (q := .getForUser userId id) rfl).mapError fun _ _ => trivial) ?_
  rintro row? w₁ ⟨rfl, hdb⟩
  cases hfind : w.db.memories.find? fun r => r.userId == userId && r.id == id with
  | none => trivial
  | some row =>
    have hrow : row ∈ w.db.memories := List.mem_of_find?_eq_some hfind
    have huser : row.userId = userId := by
      have hsome := List.find?_some hfind
      simp only [Bool.and_eq_true, beq_iff_eq] at hsome
      exact hsome.1
    dsimp only
    split
    · refine wp.seq (wp_migrateToHotMany.mapError fun _ _ => trivial) fun _ w₂ hthawed => ?_
      refine wp.seq wp_memoryRowToData ?_
      rintro d w₃ ⟨hd, hdb'⟩ i hi r hr hid hcold
      obtain rfl : i = row.id := (List.mem_singleton.mp hi).trans hd
      rw [hdb']
      exact hthawed row (hdb ▸ hrow) huser (List.mem_singleton.mpr rfl)
    · rename_i hhot
      refine wp.seq wp_memoryRowToData ?_
      rintro d w₃ ⟨hd, -⟩ i hi r hr hid hcold
      rw [List.mem_singleton.mp hi, hd] at hid
      rw [hk.eq_of_id hr hrow hid] at hcold
      exact absurd hcold hhot

theorem wp_getMany (hk : w.db.Keyed) {userId : String} {ids : List String} {user : String} :
    (handleMemoryGetMany app userId ids user).wp (exec bm25) (fun response w' => Thaws w.db response w'.db)
      (fun _ => True) w := by
  unfold handleMemoryGetMany requireUserMatch
  split
  swap
  · trivial
  refine wp.seq (P := fun _ w' => w = w') rfl ?_
  rintro _ _ rfl
  refine wp.seq (wp_getManyForUser.mapError fun _ _ => trivial) ?_
  rintro rows w₁ ⟨hrows, hdb⟩
  refine wp.seq (wp_migrateToHotMany.mapError fun _ _ => trivial) fun _ w₂ hthawed => ?_
  refine wp.seq wp_memoryRowsToData ?_
  rintro data w₃ ⟨hdata, hdb'⟩ i hi r hr rfl hcold
  have hids : (rows.map fun r => if r.isCold then restoreRow r else r).map MemoryRow.id = rows.map MemoryRow.id := by
    rw [List.map_map]
    refine List.map_congr_left fun r _ => ?_
    simp only [Function.comp_apply]
    split <;> rfl
  have hi' : r.id ∈ rows.map MemoryRow.id := hids ▸ hdata ▸ hi
  obtain ⟨row, hrow, hid⟩ := List.mem_map.mp hi'
  obtain ⟨hmem, huser, -⟩ := (hrows row).mp hrow
  obtain rfl : row = r := hk.eq_of_id hmem hr hid
  rw [hdb']
  exact hthawed row (hdb ▸ hr) huser (List.mem_map_of_mem (List.mem_filter.mpr ⟨hrow, hcold⟩))

omit [Elementary F] in
theorem only_tiers_strengthenResults {userId : String} {results : List (SearchResult F)} {now : Int} :
    (strengthenResults app userId results now).Only Cmd.keepsTiers := by
  have hkeeps : ∀ wr : Write F, ¬ wr.reshapes → ¬ wr.retiers → (Cmd.write wr).keepsTiers := fun _ h h' => ⟨h, h'⟩
  refine only_bind ?_ fun _ =>
      only_bind (only_mapError (only_unlessEmpty (only_write (hkeeps _ not_false not_false)))) fun _ => trivial
  refine only_bind (only_mapError (only_getManyForUser trivial)) fun rows => ?_
  refine only_bind (P := Cmd.keepsTiers) ⟨trivial, fun _ => trivial⟩ fun u => ?_
  exact only_bind (only_mapError (only_unlessEmpty (only_write (hkeeps _ not_false not_false)))) fun _ =>
    only_bind (only_mapError (only_unlessEmpty (only_write (hkeeps _ not_false not_false)))) fun _ => trivial

/-- Deep or without hops, a Search restores what it returns; and otherwise it moves nothing. -/
theorem wp_searching (hk : w.db.Keyed) {args : SearchMemoryArgs} {user : String} :
    (handleMemorySearch app args user).wp (exec bm25) (fun response w' =>
      (args.deepRecall = true ∨ args.graphExpansionHops = 0 → Thaws w.db response w'.db) ∧
        (args.deepRecall = false → w'.db.tiers = w.db.tiers)) (fun _ => True) w := by
  -- up to the restore, nothing changes a memory
  let J (w' : World F) : Prop := w'.db.memories = w.db.memories
  unfold handleMemorySearch requireUserMatch
  split
  swap
  · trivial
  refine wp.seq (P := fun _ => J) rfl fun _ w₁ hw₁ => ?_
  refine wp.seq (only_embed.wp (J := J) (fun _ s hc hs => (quiet_memories bm25 hc s).trans hs) hw₁) fun queryVec w₂ hw₂ => ?_
  refine wp.seq (P := fun _ => J) hw₂ fun now w₃ hw₃ => ?_
  have hreads : w₃.Reads w₃.db False := ⟨rfl, False.elim⟩
  have hfound : (search app.lifecycle args.userId queryVec (searchOptions app args now)).wp (exec bm25) (fun results w' =>
      (∀ r ∈ results, (∃ m ∈ w.db.memories, m.id = r.memoryId ∧ m.userId = args.userId) ∧
        (args.deepRecall = false → args.graphExpansionHops = 0 → ∃ m ∈ w.db.memories, m.id = r.memoryId ∧ m.isCold = false)) ∧
        J w') (fun _ => True) w₃ := by
    refine wp.and ?_ (wp_still (only_search.imp fun _ h => h.still) hw₃)
    -- expansion adds cold memories too, so only a search without it returns hot ones alone
    by_cases hdirect : args.deepRecall = false ∧ args.graphExpansionHops = 0
    · refine ((wp_search_direct hreads hdirect.2).imp fun results w' h r hr => ?_).imp_error fun _ _ => trivial
      obtain ⟨c, ⟨hc, hsearchable⟩, hid⟩ := h r hr
      rw [show w₃.db.memories = w.db.memories from hw₃] at hc
      have hdefault : c.searchable args.userId app.embeddings.name app.embeddings.model now args.deepRecall := hsearchable
      rw [hdirect.1] at hdefault
      have hvisible := visible_of_searchable hdefault
      simp only [MemoryRow.visible, Bool.and_eq_true, Bool.not_eq_true', beq_iff_eq] at hvisible
      exact ⟨⟨c, hc, hid, hvisible.1.1.1.1.1⟩, fun _ _ => ⟨c, hc, hid, hvisible.1.1.2⟩⟩
    · refine ((wp_search hreads).imp fun results w' h r hr => ?_).imp_error fun _ _ => trivial
      obtain ⟨m, hm, hid, huser⟩ := (h r hr).2.2.stored
      rw [show w₃.db.memories = w.db.memories from hw₃] at hm
      exact ⟨⟨m, hm, hid, huser⟩, fun hdeep hhops => absurd ⟨hdeep, hhops⟩ hdirect⟩
  refine wp.seq (hfound.mapError fun _ _ => trivial) ?_
  rintro results w₄ ⟨hresults, hw₄⟩
  refine wp.seq ((wp_still (only_findBridges.imp fun _ h => h.still) hw₄).mapError fun _ _ => trivial) fun bridges w₅ hw₅ => ?_
  have hrestore : (whenever (args.deepRecall && !(results.map SearchResult.memoryId).isEmpty)
      (restoreCold args.userId (results.map SearchResult.memoryId))).wp (exec bm25) (fun _ w' =>
        (args.deepRecall = true → ∀ r ∈ w.db.memories, r.userId = args.userId → r.id ∈ results.map SearchResult.memoryId →
          r.isCold = true → w'.db.Thawed r.id) ∧ (args.deepRecall = false → w'.db.tiers = w.db.tiers)) (fun _ => True) w₅ := by
    have htiers : w₅.db.tiers = w.db.tiers := congrArg (List.map MemoryRow.tier) hw₅
    unfold whenever
    split
    · rename_i hdeep
      refine wp_restoreCold.imp fun _ w' h => ⟨fun _ r hr => h r (show r ∈ w₅.db.memories from hw₅ ▸ hr), fun hshallow => ?_⟩
      rw [hshallow] at hdeep
      cases hdeep
    · rename_i hnone
      refine ⟨fun hdeep r _ _ hid => ?_, fun _ => htiers⟩
      have hnil : results.map SearchResult.memoryId = [] := by simpa [hdeep] using hnone
      rw [hnil] at hid
      cases hid
  refine wp.seq hrestore ?_
  rintro _ w₆ ⟨hthawed, hshallow⟩
  have hstrengthen : (whenever (!(results.map SearchResult.memoryId).isEmpty) (strengthenResults app args.userId results now)).wp
      (exec bm25) (fun _ w' => w'.db.tiers = w₆.db.tiers) (fun _ => True) w₆ :=
    (only_whenever only_tiers_strengthenResults).wp (fun _ s hc hs => (tiers_exec bm25 hc s).trans hs) rfl
  refine wp.seq hstrengthen fun _ w₇ htiers => ⟨fun hthaws i hi r hr hid hcold => ?_, fun hdeep => htiers.trans (hshallow hdeep)⟩
  have hmem : i ∈ results.map SearchResult.memoryId := by simpa [ResponseData.returned, SearchResult.hit] using hi
  obtain ⟨result, hresult, rfl⟩ := List.mem_map.mp hmem
  obtain ⟨⟨m, hm, hmid, huser⟩, hwarm⟩ := hresults result hresult
  obtain rfl : m = r := hk.eq_of_id hm hr (hmid.trans hid.symm)
  by_cases hdeep : args.deepRecall = true
  · rw [thawed_iff, ← Db.tiers, htiers, Db.tiers, ← thawed_iff, ← hid]
    exact hthawed hdeep m hm huser (hid ▸ hmem) hcold
  · obtain ⟨c, hc, hcid, hhot⟩ := hwarm (by simpa using hdeep) (hthaws.resolve_left hdeep)
    rw [hk.eq_of_id hc hm (hcid.trans hid.symm), hcold] at hhot
    cases hhot

/-- Get, GetMany, deep Searches and those without hops restore every cold memory they return; a Search that does not
recall deep leaves all memories in their tier. -/
theorem reading_thaws (h : Reachable bm25 anyCaller anyStep w) (t : Caller F) {response : ResponseData F}
    (hok : ((handleRequest t.app t.request t.user).run (exec bm25) w).1 = .ok response) :
    (t.request.thaws → Thaws w.db response (t.serve bm25 w).db) ∧
      ∀ args, t.request = .memory (.search args) → args.deepRecall = false → (t.serve bm25 w).db.tiers = w.db.tiers := by
  have hk := h.keyed
  constructor
  · intro hthaws
    unfold Caller.serve
    cases hreq : t.request with
    | memory req =>
      cases req with
      | get userId id =>
        rw [hreq] at hok
        exact wp_ok (wp_get hk) hok
      | getMany userId ids =>
        rw [hreq] at hok
        exact wp_ok (wp_getMany hk) hok
      | search args =>
        rw [hreq] at hok hthaws
        exact (wp_ok (wp_searching hk) hok).1 hthaws
      | _ => rw [hreq] at hthaws; exact hthaws.elim
    | _ => rw [hreq] at hthaws; exact hthaws.elim
  · intro args hreq hshallow
    unfold Caller.serve
    rw [hreq] at hok ⊢
    exact (wp_ok (wp_searching hk) hok).2 hshallow

end

/-! ### Milk behind tea -/

def coldMilk : World ℚ := (⟨.flat, "alice", .lifecycle (.migrateToCold "alice" "mem_a" 5)⟩ : Caller ℚ).serve Bm25.none
  ((batch "alice" ["tea", "milk"]).serve Bm25.none World.quiet)

theorem coldMilk_reachable : Reachable Bm25.none anyCaller anyStep coldMilk :=
  (quiet_start.reachable.serve trivial fun _ _ => trivial).serve trivial fun _ _ => trivial

def searchTea (deepRecall : Bool) : Caller ℚ :=
    ⟨.flat, "alice", .memory (.search ⟨"alice", "tea", 5, deepRecall, false, 1, false⟩)⟩

theorem searchTea_returns (deepRecall : Bool) : ∃ response,
    ((handleRequest (searchTea deepRecall).app (searchTea deepRecall).request
    (searchTea deepRecall).user).run (exec Bm25.none) coldMilk).1 = .ok response ∧ "mem_a" ∈ response.returned := by
  have hrun : (((handleRequest (searchTea deepRecall).app (searchTea deepRecall).request (searchTea deepRecall).user).run
      (exec Bm25.none) coldMilk).1.map ResponseData.returned) = .ok ["mem_", "mem_a"] := by
    cases deepRecall <;> decide +kernel
  obtain ⟨response, hok, hids⟩ := map_ok hrun
  exact ⟨response, hok, by rw [hids]; decide⟩

theorem coldMilk_cold : ∃ r ∈ coldMilk.db.memories, r.id = "mem_a" ∧ r.isCold = true := by decide +kernel

theorem deep_search_thaws_milk : ((searchTea true).serve Bm25.none coldMilk).db.Thawed "mem_a" := by
  obtain ⟨response, hok, hmem⟩ := searchTea_returns true
  obtain ⟨r, hr, hid, hcold⟩ := coldMilk_cold
  exact (reading_thaws coldMilk_reachable (searchTea true) hok).1 (.inl rfl) "mem_a" hmem r hr hid hcold

/-- One hop from the tea returns the milk, and leaves it cold. -/
theorem expansion_leaves_cold : ¬ ∀ (w : World ℚ) (t : Caller ℚ) (response : ResponseData ℚ),
    Reachable Bm25.none anyCaller anyStep w →
    (∃ args, t.request = .memory (.search args)) →
    ((handleRequest t.app t.request t.user).run (exec Bm25.none) w).1 = .ok response →
      Thaws w.db response (t.serve Bm25.none w).db := by
  intro h
  obtain ⟨response, hok, hmem⟩ := searchTea_returns false
  obtain ⟨r, hr, hid, hcold⟩ := coldMilk_cold
  have hthawed := h coldMilk (searchTea false) response coldMilk_reachable ⟨_, rfl⟩ hok "mem_a" hmem r hr hid hcold
  have hstill : ∀ r ∈ ((searchTea false).serve Bm25.none coldMilk).db.memories, r.id = "mem_a" → r.isCold =
      true := by decide +kernel
  obtain ⟨r', hr', hid', hhot, -⟩ := hthawed
  rw [hstill r' hr' hid'] at hhot
  cases hhot

end CognitiveMemory
