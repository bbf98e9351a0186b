import CognitiveMemory.Daemon.Boosts
import CognitiveMemory.Daemon.FloorCounter
import CognitiveMemory.Daemon.Records
import CognitiveMemory.Lib.Refinement
import CognitiveMemory.Search.Ranking
import CognitiveMemory.Search.TwoRuns
import CognitiveMemory.Store.Pages

/-! Requests served one after the other, as a user sees them: every step does to the notebook what
its request and its answer say, and shows nothing that does not stand there. -/

namespace CognitiveMemory
open Prog
variable {F : Type}

/-! ## What requests may do to a notebook -/

def StoreMemoryArgs.note (args : StoreMemoryArgs F) : Note := ⟨args.content, args.memoryType, args.metadata⟩

def BatchMemoryEntry.note (entry : BatchMemoryEntry) : Note := ⟨entry.content, entry.memoryType, entry.metadata⟩

def StoreBatchArgs.notes (args : StoreBatchArgs F) : List Note := args.memories.map BatchMemoryEntry.note

def MemoryData.note (data : MemoryData F) : Note := ⟨data.content, data.memoryType, data.metadata⟩

def MemoryData.from (b : Notebook) (user : String) (data : MemoryData F) : Prop :=
  data.userId = user ∧ b user data.id = some data.note

def SearchHit.from (b : Notebook) (user : String) (hit : SearchHit F) : Prop :=
  ∃ metadata, b user hit.memoryId = some ⟨hit.content, hit.memoryType, metadata⟩

def ResponseData.from (b : Notebook) (user : String) : ResponseData F → Prop
  | .memory data => data.from b user
  | .memories data => ∀ d ∈ data, d.from b user
  | .linkedMemories data => ∀ d ∈ data, d.1.from b user
  | .memorySearchResults hits _ => ∀ hit ∈ hits, hit.from b user
  | .lexicalIds ids => ∀ id ∈ ids, (b user id).isSome
  | .counts c => c.total = b.size user fun _ => true
  | _ => True

def Erases (b : Notebook) (user : String) (p : String → Bool) (response : ResponseData F) (b' : Notebook) : Prop :=
  response = .affected (b.size user p) ∧ b' = b.erase user p

def MemoryRequest.serves (user : String) (b : Notebook) (response : ResponseData F) (b' : Notebook) : MemoryRequest F → Prop
  | .store args => args.userId = user ∧
      ∃ id, response = .memoryStored id ∧ b.Unused id ∧ b' = b.write user id args.note
  | .storeBatch args => args.userId = user ∧ ∃ ids n, response = .memoryStoredBatch ids n ∧
      ids.length = args.memories.length ∧ b.Adds user (ids.zip args.notes) b'
  | .update args => args.userId = user ∧ response = .affected (if args.isEmpty then 0 else b.size user (· == args.id)) ∧
      b' = b.revise user args.id args.revises
  | .delete userId id => userId = user ∧ Erases b user (· == id) response b'
  | .deleteMany userId ids => userId = user ∧ Erases b user ids.contains response b'
  | .get userId id => userId = user ∧ b' = b ∧ ∃ data, response = .memory data ∧ data.id = id ∧ data.from b user
  | .getMany userId ids => userId = user ∧ b' = b ∧ ∃ data, response = .memories data ∧ (∀ d ∈ data, d.from b user) ∧
      (data.map MemoryData.id).Nodup ∧ ∀ id, id ∈ data.map MemoryData.id ↔ id ∈ ids ∧ (b user id).isSome
  | _ => b' = b ∧ response.from b user

def LifecycleRequest.serves (user : String) (b : Notebook) (response : ResponseData F) (b' : Notebook) :
    LifecycleRequest F → Prop
  | .tick _ => b.Grows b' fun n => n.memoryType = "summary"
  | .clear userId confirm => userId = user ∧ confirm = true ∧ Erases b user (fun _ => true) response b'
  | _ => b' = b ∧ response.from b user

def Request.serves (user : String) (b : Notebook) (response : ResponseData F) (b' : Notebook) : Request F → Prop
  | .memory req => req.serves user b response b'
  | .lifecycle req => req.serves user b response b'
  | _ => b' = b ∧ response.from b user

/-- A request fails: a Store may have stored by then, a StoreBatch some of its entries, and a Tick may
have written summaries. Not found is what is not there. -/
def Request.fails (user : String) (b : Notebook) (e : HandlerError) (b' : Notebook) : Request F → Prop
  | .memory (.store args) => b' = b ∨ args.userId = user ∧ ∃ id, b.Unused id ∧ b' = b.write user id args.note
  | .memory (.storeBatch args) => b' = b ∨ args.userId = user ∧ ∃ ids : List String, b.Adds user (ids.zip args.notes) b'
  | .memory (.get userId id) => b' = b ∧ (e = .notFound → userId = user ∧ b user id = none)
  | .lifecycle (.tick _) => b.Grows b' fun n => n.memoryType = "summary"
  | _ => b' = b

/-- A request of a user, and how it was answered. -/
abbrev Exchange (F : Type) := Caller F × Except HandlerError (ResponseData F)

/-- The system as its users see it. -/
def notes : Steps (Exchange F) Notebook
  | (t, .ok response), b, b' => t.request.serves t.user b response b'
  | (t, .error e), b, b' => t.request.fails t.user b e b'

/-- Requests served one after the other, whatever fails under them. -/
def serving [Field F] [LinearOrder F] [Elementary F] (bm25 : Bm25 F) : Steps (Exchange F) (World F) := fun l w w' =>
  (handleRequest l.1.app l.1.request l.1.user).run (exec bm25) w = (l.2, w')

/-! ## What answers tell -/

section
variable {bm25 : Bm25 F} {w : World F} {user userId : String}

def MemoryData.page (data : MemoryData F) : String × String × Note := (data.userId, data.id, data.note)

theorem from_row (hk : w.db.Keyed) {row : MemoryRow F} (hrow : row ∈ w.db.memories) (huser : row.userId = user)
    {data : MemoryData F} (h : data.page = row.page) : data.from w.db.notebook user := by
  simp only [MemoryData.page, MemoryRow.page, Prod.mk.injEq] at h
  obtain ⟨hu, hid, hnote⟩ := h
  refine ⟨hu.trans huser, ?_⟩
  rw [hid, hnote, ← huser]
  exact notebook_row hk hrow

theorem from_rows (hk : w.db.Keyed) {rows : List (MemoryRow F)}
    (hrows : ∀ row ∈ rows, row ∈ w.db.memories ∧ row.userId = user)
    {data : List (MemoryData F)} (h : data.map MemoryData.page = rows.map MemoryRow.page) :
    ∀ d ∈ data, d.from w.db.notebook user := by
  intro d hd
  obtain ⟨row, hrow, heq⟩ := List.mem_map.mp (h ▸ List.mem_map_of_mem hd)
  exact from_row hk (hrows row hrow).1 (hrows row hrow).2 heq.symm

variable [Field F] [LinearOrder F]

theorem wp_require {α : Type} {f : Unit → HandlerM F α} {Q : α → World F → Prop}
    (h : userId = user → (f ()).wp (exec bm25) Q (fun _ => True) w) :
    (requireUserMatch userId user >>= f).wp (exec bm25) Q (fun _ => True) w := by
  unfold requireUserMatch
  split
  · exact h ‹_›
  · trivial

theorem ends_user {α : Type} {f : Unit → HandlerM F α} {Q : Except HandlerError α → World F → Prop}
    (hfail : ∀ message, Q (.error (.invalidPayload message)) w) (hok : userId = user → (f ()).ends (exec bm25) Q w) :
    (requireUserMatch userId user >>= f).ends (exec bm25) Q w := by
  unfold requireUserMatch
  split
  · exact hok ‹_›
  · exact hfail _

theorem wp_asked {q : Query F} : (sqlx (query q)).wp (exec bm25) (fun a w' => q.eval bm25 w.db = .ok a ∧ w'.db = w.db)
    (fun _ => True) w := by
  have hask : (sqlx (query q) : HandlerM F q.Res).ends (exec bm25) _ w := ends_ask
  have hends := ends_run.mp hask
  rw [wp_run]
  refine ⟨fun a w' hrun => ?_, fun _ _ _ => trivial⟩
  rw [hrun] at hends
  exact ⟨hends.2 a rfl, hends.1⟩

variable {app : AppState F}

section
variable [Elementary F]

theorem wp_toldRow {row : MemoryRow F} : (memoryRowToData app row).wp (exec bm25) (fun d _ => d.page = row.page)
    (fun _ => True) w := rfl

theorem wp_told {rows : List (MemoryRow F)} : (memoryRowsToData app rows).wp (exec bm25)
    (fun data _ => data.map MemoryData.page = rows.map MemoryRow.page) (fun _ => True) w := by
  induction rows generalizing w with
  | nil => rfl
  | cons row rows ih =>
    refine wp.seq wp_toldRow fun d w₁ hd => wp.seq ih fun ds w₂ hds => ?_
    exact congrArg₂ List.cons hd hds

theorem wp_toldLinked {linked : List (LinkedMemory F)} : (linkedToData app linked).wp (exec bm25)
    (fun data _ => data.map (fun d => d.1.page) = linked.map fun lm => lm.memory.page) (fun _ => True) w := by
  induction linked generalizing w with
  | nil => rfl
  | cons lm linked ih =>
    refine wp.seq wp_toldRow fun d w₁ hd => wp.seq ih fun ds w₂ hds => ?_
    exact congrArg₂ List.cons hd hds

omit [Field F] [LinearOrder F] [Elementary F] in
theorem pages_restored (rows : List (MemoryRow F)) :
    (rows.map fun r => if r.isCold then restoreRow r else r).map MemoryRow.page = rows.map MemoryRow.page := by
  rw [List.map_map]
  apply List.map_congr_left
  intro r _
  rw [Function.comp_apply]
  split <;> rfl

theorem wp_get_from (hk : w.db.Keyed) {id : String} : (handleMemoryGet app userId id user).wp (exec bm25)
    (fun response _ => userId = user ∧ ∃ data, response = .memory data ∧ data.id = id ∧ data.from w.db.notebook user)
    (fun _ => True) w := by
  refine wp_require fun huser => wp.seq (wp_asked (q := .getForUser userId id)) ?_
  rintro row? w₁ ⟨heval, hdb⟩
  obtain rfl : w.db.memories.find? (fun r => r.userId == userId && r.id == id) = row? := Except.ok.inj heval
  cases hfind : w.db.memories.find? fun r => r.userId == userId && r.id == id with
  | none => trivial
  | some row =>
    have hrow := List.mem_of_find?_eq_some hfind
    have hown := List.find?_some hfind
    simp only [Bool.and_eq_true, beq_iff_eq] at hown
    have htell : ∀ (row' : MemoryRow F) (w₂ : World F), row'.page = row.page → (do
        let data ← memoryRowToData app row'
        Pure.pure (.memory data) : HandlerM F (ResponseData F)).wp (exec bm25) (fun response _ => userId = user ∧
          ∃ data, response = .memory data ∧ data.id = id ∧ data.from w.db.notebook user) (fun _ => True) w₂ := by
      intro row' w₂ hpage
      refine wp.seq wp_toldRow fun d w₃ hd => ⟨huser, d, rfl, ?_, ?_⟩
      · exact (congrArg (fun e => e.2.1) (hd.trans hpage)).trans hown.2
      · exact from_row hk hrow (hown.1.trans huser) (hd.trans hpage)
    dsimp only
    split
    · exact wp.seq (P := fun _ _ => True) ((wp_migrateToHotMany.imp fun _ _ _ => trivial).mapError fun _ _ => trivial)
        fun _ w₂ _ => htell (restoreRow row) w₂ rfl
    · exact htell row w₁ rfl

omit [Elementary F] in
theorem ends_sqlx {α : Type} {p : Repo F α} :
    (sqlx p).ends (exec bm25) (fun answer _ => ∀ e, answer = .error e → e ≠ .notFound) w := by
  refine .mapError (ends_run.mpr ?_)
  cases (p.run (exec bm25) w).1 with
  | ok a => exact nofun
  | error e =>
    intro e' he
    cases he
    exact nofun

theorem ends_get_notFound {id : String} : (handleMemoryGet app userId id user).ends (exec bm25)
    (fun answer _ => answer = .error .notFound → userId = user ∧ w.db.notebook user id = none) w := by
  have hother : ∀ {e : HandlerError} {P : Prop}, e ≠ .notFound →
      (Except.error e : Except HandlerError (ResponseData F)) = .error .notFound → P :=
    fun hne heq => absurd (Except.error.inj heq) hne
  refine ends_user (fun _ => hother nofun) fun huser => ?_
  have hask : (sqlx (query (.getForUser userId id)) : HandlerM F (Option (MemoryRow F))).ends (exec bm25) (fun answer _ =>
      (∀ e, answer = .error e → e ≠ .notFound) ∧
        ∀ a, answer = .ok a → Query.eval bm25 w.db (.getForUser userId id) = .ok a) w :=
    ends_run.mpr ⟨ends_run.mp ends_sqlx, (ends_run.mp (ends_ask (q := .getForUser userId id))).2⟩
  refine .seq hask (fun row? w₁ h₁ => ?_) fun e w₁ h₁ => hother (h₁.1 e rfl)
  cases row? with
  | none =>
    refine fun _ => ⟨huser, notebook_none.mpr fun r hr hown => ?_⟩
    have hfind : w.db.memories.find? (fun r => r.userId == userId && r.id == id) = none := Except.ok.inj (h₁.2 none rfl)
    have hmiss := List.find?_eq_none.mp hfind r hr
    simp [hown, huser] at hmiss
  | some row =>
    dsimp only
    split
    · exact .seq ends_sqlx (fun _ w₂ _ => nofun) fun e w₂ h₂ => hother (h₂ e rfl)
    · exact nofun

theorem wp_getMany_from (hk : w.db.Keyed) {ids : List String} : (handleMemoryGetMany app userId ids user).wp (exec bm25)
    (fun response _ => userId = user ∧ ∃ data, response = .memories data ∧ (∀ d ∈ data, d.from w.db.notebook user) ∧
      (data.map MemoryData.id).Nodup ∧ ∀ id, id ∈ data.map MemoryData.id ↔ id ∈ ids ∧ (w.db.notebook user id).isSome)
    (fun _ => True) w := by
  have hread : (getManyForUser userId ids).wp (exec bm25) (fun rows _ => rows = w.db.getManyForUser userId ids) (fun _ => True) w := by
    unfold getManyForUser
    split
    · rename_i hnil
      exact (List.eq_nil_iff_forall_not_mem.mpr fun r hr => by simp [mem_getManyForUser, List.isEmpty_iff.mp hnil] at hr).symm
    · exact (wp_ask (q := .getManyForUser userId ids) rfl).imp fun _ _ h => h.1
  refine wp_require fun huser => wp.seq (hread.mapError fun _ _ => trivial) ?_
  rintro rows w₁ rfl
  refine wp.seq (P := fun _ _ => True) ((wp_migrateToHotMany.imp fun _ _ _ => trivial).mapError fun _ _ => trivial) fun _ w₂ _ => ?_
  refine wp.seq wp_told fun data w₃ hdata => ⟨huser, data, rfl, ?_⟩
  rw [pages_restored] at hdata
  have hids : data.map MemoryData.id = (w.db.getManyForUser userId ids).map MemoryRow.id := by
    have hsnd := congrArg (List.map fun e : String × String × Note => e.2.1) hdata
    rwa [List.map_map, List.map_map] at hsnd
  refine ⟨from_rows hk (fun row hrow => ?_) hdata, hids ▸ getManyForUser_nodup hk ids, fun id => ?_⟩
  · obtain ⟨hmem, hu, -⟩ := mem_getManyForUser.mp hrow
    exact ⟨hmem, hu.trans huser⟩
  · rw [hids, List.mem_map, notebook_isSome]
    constructor
    · rintro ⟨r, hr, rfl⟩
      obtain ⟨hmem, hu, hid⟩ := mem_getManyForUser.mp hr
      exact ⟨hid, r, hmem, hu.trans huser, rfl⟩
    · rintro ⟨hid, r, hmem, hu, rfl⟩
      exact ⟨r, mem_getManyForUser.mpr ⟨hmem, hu.trans huser.symm, hid⟩, rfl⟩

theorem wp_telling (hk : w.db.Keyed) {q : Query F} {f : q.Res → List (MemoryRow F)}
    (hrows : ∀ a, q.eval bm25 w.db = .ok a → ∀ row ∈ f a, row ∈ w.db.memories ∧ row.userId = userId) :
    (do
      requireUserMatch userId user
      let a ← sqlx (query q)
      let ds ← memoryRowsToData app (f a)
      Pure.pure (.memories ds) : HandlerM F (ResponseData F)).wp (exec bm25) (fun response _ => response.from w.db.notebook user)
      (fun _ => True) w := by
  refine wp_require fun huser => wp.seq wp_asked ?_
  rintro a w₁ ⟨heval, -⟩
  exact wp.seq wp_told fun data w₂ hdata => from_rows hk (huser ▸ hrows a heval) hdata

theorem wp_list_from (hk : w.db.Keyed) {filters : MemoryFilters F} :
    (handleMemoryList app userId filters user).wp (exec bm25)
    (fun response _ => response.from w.db.notebook user) (fun _ => True) w := by
  refine wp_telling hk (q := .queryMemories userId filters) (f := id) fun rows heval row hrow => ?_
  have hmem : row ∈ (w.db.memories.filter (filters.accepts userId)).insertionSort fun a b => b.createdAt ≤ a.createdAt := by
    change w.db.queryMemories userId filters = .ok rows at heval
    unfold Db.queryMemories at heval
    split at heval <;> cases heval
    · exact hrow
    · exact (sqlLimit_sublist _ _).subset hrow
    · exact (List.drop_sublist _ _).subset ((sqlLimit_sublist _ _).subset hrow)
  obtain ⟨hrow, haccepts⟩ := List.mem_filter.mp ((List.mem_insertionSort _).mp hmem)
  simp only [MemoryFilters.accepts, Bool.and_eq_true, beq_iff_eq] at haccepts
  exact ⟨hrow, by tauto⟩

theorem wp_findStable_from (hk : w.db.Keyed) {minStability : F} {minAccessCount limit : Int} :
    (handleFindStable app userId minStability minAccessCount limit user).wp (exec bm25)
      (fun response _ => response.from w.db.notebook user) (fun _ => True) w := by
  refine wp_telling hk (q := .findStable userId minStability minAccessCount limit) (f := id) fun rows heval row hrow => ?_
  cases heval
  obtain ⟨hmem, hkeep⟩ := List.mem_filter.mp (mem_sortDesc.mp ((sqlLimit_sublist _ _).subset hrow))
  simp only [Bool.and_eq_true, beq_iff_eq] at hkeep
  exact ⟨hmem, hkeep.1.1.1⟩

theorem wp_findFading_from (hk : w.db.Keyed) {maxRetention : F} {limit : Int} :
    (handleFindFading app userId maxRetention limit user).wp (exec bm25)
      (fun response _ => response.from w.db.notebook user) (fun _ => True) w := by
  refine wp_require fun huser => wp.seq (wp_asked (q := .findFadingCandidates userId)) ?_
  rintro rows w₁ ⟨heval, -⟩
  cases heval
  refine wp.seq (P := fun _ _ => True) trivial fun now w₂ _ => wp.seq wp_told fun data w₃ hdata => from_rows hk (fun row hrow => ?_) hdata
  obtain ⟨p, hp, rfl⟩ := List.mem_map.mp hrow
  obtain ⟨hp, -⟩ := List.mem_filter.mp ((List.mem_insertionSort _).mp ((sqlLimit_sublist _ _).subset hp))
  obtain ⟨r, hr, rfl⟩ := List.mem_map.mp hp
  obtain ⟨hmem, hkeep⟩ := List.mem_filter.mp ((List.mem_insertionSort _).mp hr)
  simp only [Bool.and_eq_true, beq_iff_eq] at hkeep
  exact ⟨hmem, hkeep.1.trans huser⟩

theorem wp_linked_from (hk : w.db.Keyed) {p : Repo F (List (LinkedMemory F))} {edges : List (NeighborEdge F)}
    (hp : p.wp (exec bm25) (fun a _ => a = w.db.linkedAt userId edges) (fun _ => True) w) :
    (do
      requireUserMatch userId user
      let linked ← sqlx p
      let ds ← linkedToData app linked
      Pure.pure (.linkedMemories ds) : HandlerM F (ResponseData F)).wp (exec bm25)
      (fun response _ => response.from w.db.notebook user) (fun _ => True) w := by
  refine wp_require fun huser => wp.seq (hp.mapError fun _ _ => trivial) ?_
  rintro linked w₁ rfl
  refine wp.seq wp_toldLinked fun data w₂ hdata d hd => ?_
  obtain ⟨lm, hlm, heq⟩ := List.mem_map.mp (hdata ▸ List.mem_map_of_mem hd)
  obtain ⟨m, hm, hedge⟩ := List.mem_filterMap.mp hlm
  obtain ⟨g, -, rfl⟩ := Option.map_eq_some_iff.mp hedge
  obtain ⟨hmem, hu, -⟩ := mem_getManyForUser.mp hm
  exact from_row hk hmem (hu.trans huser) heq.symm

theorem wp_getLinked_from (hk : w.db.Keyed) {sourceId : String} {minStrength : F} :
    (handleMemoryGetLinked app userId sourceId minStrength user).wp (exec bm25)
      (fun response _ => response.from w.db.notebook user) (fun _ => True) w := by
  have hreads : w.Reads w.db False := ⟨rfl, False.elim⟩
  exact wp_linked_from hk (((wp_linkedFor hreads).imp fun _ _ h => h.1).imp_error fun _ _ => trivial)

theorem wp_getLinkedMany_from (hk : w.db.Keyed) {sourceIds : List String} {minStrength : F} :
    (handleMemoryGetLinkedMany app userId sourceIds minStrength user).wp (exec bm25)
      (fun response _ => response.from w.db.notebook user) (fun _ => True) w := by
  have hreads : w.Reads w.db False := ⟨rfl, False.elim⟩
  exact wp_linked_from hk (((wp_linkedForMany hreads).imp fun _ _ h => h.1).imp_error fun _ _ => trivial)

theorem wp_search_from (hk : w.db.Keyed) {cfg : LifecycleConfig F} {queryVec : List F} {o : SearchOptions F} :
    (search cfg userId queryVec o).wp (exec bm25)
      (fun results _ => ∀ r ∈ results, r.hit.from w.db.notebook userId) (fun _ => True) w := by
  rw [wp_run]
  refine ⟨fun results w' hrun r hr => ?_, fun _ _ _ => trivial⟩
  have hsome : ((search cfg userId queryVec o).run (exec bm25) w).1 = .ok results := by rw [hrun]
  obtain ⟨ranked, hranking, rfl⟩ := run_search rfl hk hsome (List.ne_nil_of_mem hr)
  obtain ⟨org, rfl⟩ := hranking.origin r (List.mem_of_mem_take hr)
  obtain ⟨hmem, huser⟩ : org.row ∈ w.db.memories ∧ org.row.userId = userId := by
    cases org with
    | direct m h =>
      have hsearch := h.2
      simp only [MemoryRow.searchable, Bool.and_eq_true, beq_iff_eq] at hsearch
      exact ⟨h.1, hsearch.1.1.1.1.1.1⟩
    | expanded sources lm h _ _ => exact ⟨(mem_linkedMany h).1, (mem_linkedMany h).2.1⟩
  have hnote := notebook_row hk hmem
  rw [huser] at hnote
  exact ⟨org.row.metadata, hnote⟩

theorem wp_vectorSearch_from (hk : w.db.Keyed) {args : VectorSearchArgs F} :
    (handleVectorSearch app args user).wp (exec bm25)
    (fun response _ => response.from w.db.notebook user) (fun _ => True) w := by
  refine wp_require fun huser => wp.seq (P := fun _ (w₁ : World F) => w₁.db = w.db) rfl fun now w₁ hdb => ?_
  refine wp.seq ((wp_search_from (hdb ▸ hk)).mapError fun _ _ => trivial) fun results w₂ hresults hit hhit => ?_
  obtain ⟨r, hr, rfl⟩ := List.mem_map.mp hhit
  have hfrom := hresults r hr
  rwa [hdb, huser] at hfrom

end

theorem wp_searchLexical_from {text : String} {limit : ℕ} : (handleSearchLexical userId text limit user : HandlerM F _).wp
    (exec bm25) (fun response _ => response.from w.db.notebook user) (fun _ => True) w := by
  refine wp_require fun huser => wp.seq (wp_asked (q := .bm25Search userId (safeQuery text) (Int.bmod limit (2 ^ 64)))) ?_
  have hids : ∀ (limit : Int) ids, Query.eval bm25 w.db (.bm25Search userId (safeQuery text) limit) = .ok ids →
      ids = w.db.bm25Search bm25 userId (safeQuery text) limit := fun _ _ h => (Except.ok.inj h).symm
  rintro ids w₁ ⟨heval, -⟩ id hid
  rw [hids _ _ heval] at hid
  obtain ⟨p, hp, rfl⟩ := List.mem_map.mp ((sqlLimit_sublist _ _).subset hid)
  obtain ⟨m, hm, hdoc⟩ := List.mem_flatMap.mp ((List.mem_insertionSort _).mp hp)
  obtain ⟨hmem, hu⟩ := List.mem_filter.mp hm
  obtain ⟨d, -, hrank⟩ := List.mem_filterMap.mp hdoc
  split at hrank
  · obtain ⟨rank, -, rfl⟩ := Option.map_eq_some_iff.mp hrank
    exact notebook_isSome.mpr ⟨m, hmem, (beq_iff_eq.mp hu).trans huser, rfl⟩
  · cases hrank

theorem wp_counts_from (hk : w.db.Keyed) : (handleCounts userId user : HandlerM F _).wp (exec bm25)
    (fun response _ => response.from w.db.notebook user) (fun _ => True) w := by
  refine wp_require fun huser => wp.seq (wp_asked (q := .countsForUser userId)) ?_
  rintro counts w₁ ⟨heval, -⟩
  cases heval
  refine matching_notes hk fun r => ?_
  rw [beq_iff_eq, huser]
  exact ⟨fun h => ⟨h, rfl⟩, fun h => h.1⟩

theorem wp_searching_from [Elementary F] (hk : w.db.Keyed) {args : SearchMemoryArgs} :
    (handleMemorySearch app args user).wp (exec bm25)
    (fun response _ => response.from w.db.notebook user) (fun _ => True) w := by
  let J (w' : World F) : Prop := w'.db.memories = w.db.memories
  refine wp_require fun huser => ?_
  refine wp.seq (only_embed.wp (J := J) (fun _ s hc hs => (quiet_memories bm25 hc s).trans hs) rfl) fun queryVec w₁ hw₁ => ?_
  refine wp.seq (P := fun _ => J) hw₁ fun now w₂ hw₂ => ?_
  have hk₂ : w₂.db.Keyed := by
    unfold Db.Keyed
    rwa [show w₂.db.memories = w.db.memories from hw₂]
  have hsame : w₂.db.notebook = w.db.notebook := notebook_of_pages (congrArg (List.map MemoryRow.page) hw₂)
  refine wp.seq ((wp_search_from hk₂).mapError fun _ _ => trivial) fun results w₃ hresults => ?_
  have hshown : ∀ bridges, (ResponseData.memorySearchResults (results.map SearchResult.hit) bridges).from w.db.notebook user := by
    intro bridges hit hhit
    obtain ⟨r, hr, rfl⟩ := List.mem_map.mp hhit
    rw [← huser, ← hsame]
    exact hresults r hr
  have hrest : ∀ {ε α : Type} (p : Prog (Cmd F) Cmd.Res ε α) (w' : World F), p.wp (exec bm25) (fun _ _ => True) (fun _ => True) w' :=
    fun p w' => wp_run.mpr ⟨fun _ _ _ => trivial, fun _ _ _ => trivial⟩
  refine wp.seq (hrest _ _) fun bridges w₄ _ => wp.seq (hrest _ _) fun _ w₅ _ => wp.seq (hrest _ _) fun _ w₆ _ => ?_
  exact hshown bridges

/-! ## What statements leave of the notebook -/

structure World.Holds (w : World F) (b : Notebook) : Prop where
  keyed : w.db.Keyed
  notebook : w.db.notebook = b

section
omit [Field F] [LinearOrder F]

theorem Cmd.quiet.wordless {c : Cmd F} (h : c.quiet) : c.wordless := by
  rintro wr rfl hwr
  cases wr <;> first | exact h | exact hwr

theorem Cmd.still.wordless {c : Cmd F} (h : c.still) : c.wordless := by
  rintro wr rfl
  exact h.elim

theorem wordless_write {c : Write F} (h : ¬ c.restates) : (.write c : Cmd F).wordless := fun _ heq => by
  cases heq
  exact h

end

theorem World.Holds.wordless {b : Notebook} {c : Cmd F} (hc : c.wordless) (h : w.Holds b) : (exec bm25 c w).2.Holds b :=
  ⟨keyed_exec bm25 h.keyed, (notebook_of_pages (pages_exec bm25 hc w)).trans h.notebook⟩

theorem ends_wordless {ε α : Type} {p : Prog (Cmd F) Cmd.Res ε α} {b : Notebook} (hp : p.Only Cmd.wordless) (h : w.Holds b) :
    p.ends (exec bm25) (fun _ w' => w'.Holds b) w :=
  hp.ends (J := fun w' : World F => w'.Holds b) (fun _ _ hc hs => hs.wordless hc) h

/-- A statement is carried out as a whole or leaves the store alone. -/
theorem ends_stating {c : Write F} (hk : w.db.Keyed) : (sqlx (write c)).ends (exec bm25) (fun answer w' => match answer with
    | .ok a => c.apply w.db = .ok (a, w'.db) ∧ w'.db.Keyed
    | .error _ => w'.db = w.db) w := by
  refine .mapError (ends_write.imp ?_)
  rintro (e | a) w' h
  · exact h.1
  · exact ⟨h.2, Write.keyed hk h.2⟩

/-- A row is written under an id nobody used, or the statement fails. -/
theorem ends_inserting {b : Notebook} {row : MemoryRow F} (h : w.Holds b) :
    (sqlx (write (.insertMemory row))).ends (exec bm25) (fun answer w' => match answer with
      | .ok _ => b.Unused row.id ∧ w'.Holds (b.write row.userId row.id row.note)
      | .error _ => w'.Holds b) w := by
  obtain ⟨hk, rfl⟩ := h
  refine (ends_stating hk).imp ?_
  rintro (e | a) w' hw
  · exact ⟨hw ▸ hk, congrArg Db.notebook hw⟩
  · obtain ⟨d, hd, hp⟩ := map_ok hw.1
    cases hp
    obtain ⟨hunused, hnotes⟩ := notebook_insert hd
    exact ⟨hunused, hw.2, hnotes⟩

def Deletes (bm25 : Bm25 F) (p : Repo F ℕ) (userId : String) (q : String → Bool) : Prop :=
  ∀ (w : World F) (b : Notebook), w.Holds b → (sqlx p).ends (exec bm25) (fun answer w' => match answer with
    | .ok n => n = b.size userId q ∧ w'.Holds (b.erase userId q)
    | .error _ => w'.Holds b) w

omit [Field F] [LinearOrder F] in
theorem World.Holds.delete {b : Notebook} (h : w.Holds b) {p : MemoryRow F → Bool} {q : String → Bool}
    (hp : ∀ r, p r = true ↔ r.userId = userId ∧ q r.id = true) {w' : World F} (hk : w'.db.Keyed)
    (hdb : w'.db = w.db.deleteMemories p) : w.db.matching p = b.size userId q ∧ w'.Holds (b.erase userId q) := by
  obtain ⟨hkeyed, rfl⟩ := h
  refine ⟨matching_notes hkeyed hp, hk, ?_⟩
  rw [hdb]
  exact notebook_delete hp

theorem deletes_one {id : String} : Deletes bm25 (write (.deleteMemory userId id)) userId (· == id) := by
  intro w b h
  refine (ends_stating (c := .deleteMemory userId id) h.keyed).imp ?_
  rintro (e | n) w' hw
  · exact ⟨hw ▸ h.keyed, hw ▸ h.notebook⟩
  · obtain ⟨rfl, hdb⟩ := Prod.mk.inj (Except.ok.inj hw.1)
    exact h.delete (fun r => by simp [owned]) hw.2 hdb.symm

theorem deletes_many {ids : List String} : Deletes bm25 (deleteMany userId ids) userId ids.contains := by
  intro w b h
  unfold deleteMany unlessEmpty
  split
  · rename_i hnil
    rw [List.isEmpty_iff.mp hnil]
    have hnothing : b.erase userId [].contains = b := b.erase_nothing userId fun _ => rfl
    exact ⟨(b.size_nothing userId fun _ => rfl).symm, hnothing.symm ▸ h⟩
  · refine (ends_stating (c := .deleteMany userId ids) h.keyed).imp ?_
    rintro (e | n) w' hw
    · exact ⟨hw ▸ h.keyed, hw ▸ h.notebook⟩
    · obtain ⟨rfl, hdb⟩ := Prod.mk.inj (Except.ok.inj hw.1)
      exact h.delete (fun r => by simp [ownedAmong]) hw.2 hdb.symm

theorem deletes_all : Deletes bm25 (write (.clearUser userId)) userId fun _ => true := by
  intro w b h
  refine (ends_stating (c := .clearUser userId) h.keyed).imp ?_
  rintro (e | n) w' hw
  · exact ⟨hw ▸ h.keyed, hw ▸ h.notebook⟩
  · obtain ⟨rfl, hdb⟩ := Prod.mk.inj (Except.ok.inj hw.1)
    exact h.delete (fun r => by simp) hw.2 hdb.symm

/-! ## The handlers that write it -/

def World.Told (w' : World F) (t : Caller F) (b : Notebook) (answer : Except HandlerError (ResponseData F)) : Prop :=
  w'.db.Keyed ∧ notes (t, answer) b w'.db.notebook

omit [Field F] [LinearOrder F] in
theorem World.Holds.told {b b' : Notebook} {t : Caller F} {answer : Except HandlerError (ResponseData F)} (h : w.Holds b')
    (ht : notes (t, answer) b b') : w.Told t b answer := ⟨h.keyed, h.notebook.symm ▸ ht⟩

theorem ends_delete {b : Notebook} {id : String} (h : w.Holds b) : (handleMemoryDelete userId id user).ends (exec bm25)
    (fun answer w' => w'.Told ⟨app, user, .memory (.delete userId id)⟩ b answer) w := by
  refine ends_user (fun _ => h.told rfl) fun huser => .seq (deletes_one w b h) ?_ fun e w' hw => hw.told rfl
  subst huser
  rintro n w' ⟨rfl, hw⟩
  refine hw.told ⟨rfl, ?_, rfl⟩
  show ResponseData.affected _ = ResponseData.affected (b.size userId (· == id))
  rw [b.size_single]
  split <;> rfl

theorem ends_deleteMany {b : Notebook} {ids : List String} (h : w.Holds b) :
    (handleMemoryDeleteMany userId ids user).ends (exec bm25)
    (fun answer w' => w'.Told ⟨app, user, .memory (.deleteMany userId ids)⟩ b answer) w := by
  refine ends_user (fun _ => h.told rfl) fun huser => .seq (deletes_many w b h) ?_ fun e w' hw => hw.told rfl
  rintro n w' ⟨rfl, hw⟩
  exact hw.told ⟨huser, huser ▸ rfl, huser ▸ rfl⟩

theorem ends_clear {b : Notebook} {confirm : Bool} (h : w.Holds b) : (handleClear userId confirm user).ends (exec bm25)
    (fun answer w' => w'.Told ⟨app, user, .lifecycle (.clear userId confirm)⟩ b answer) w := by
  refine ends_user (fun _ => h.told rfl) fun huser => ?_
  cases confirm with
  | false => exact h.told rfl
  | true =>
    refine .seq (deletes_all w b h) ?_ fun e w' hw => hw.told rfl
    rintro n w' ⟨rfl, hw⟩
    exact hw.told ⟨huser, rfl, huser ▸ rfl, huser ▸ rfl⟩

theorem ends_updating {b : Notebook} {id : String} {upd : MemoryUpdate F} (h : w.Holds b) :
    (sqlx (update userId id upd)).ends
    (exec bm25) (fun answer w' => match answer with
      | .ok updated => (updated = true ↔ upd.isEmpty = false ∧ (b userId id).isSome) ∧ w'.Holds (b.revise userId id upd.revises)
      | .error _ => w'.Holds b) w := by
  unfold update
  split
  · rename_i hempty
    have hsame : b.revise userId id upd.revises = b := by
      simp only [MemoryUpdate.isEmpty, Bool.and_eq_true, Option.isNone_iff_eq_none] at hempty
      funext u i
      unfold Book.revise
      split
      · cases b u i with
        | none => rfl
        | some n => simp [MemoryUpdate.revises, hempty]
      · rfl
    exact ⟨by simp [hempty], hsame.symm ▸ h⟩
  · rename_i hwrites
    have hupdate : (write (.updateMemory userId id upd)).ends (exec bm25) (fun answer w' => match answer with
        | .ok n => (0 < (n : ℕ) ↔ (b userId id).isSome) ∧ w'.Holds (b.revise userId id upd.revises)
        | .error _ => w'.Holds b) w := by
      refine ends_write.imp ?_
      rintro (e | n) w' hw
      · exact ⟨hw.1 ▸ h.keyed, hw.1 ▸ h.notebook⟩
      · obtain ⟨rfl, hdb⟩ := Prod.mk.inj (Except.ok.inj hw.2)
        refine ⟨?_, Write.keyed h.keyed hw.2, ?_⟩
        · rw [matching_notes h.keyed (q := (· == id)) (u := userId) (fun r => by simp [owned]), h.notebook, b.size_single]
          split <;> simp [*]
        · rw [← hdb, notebook_update, h.notebook]
    refine .mapError (.seq hupdate ?_ fun e w' hw => hw)
    rintro n w' ⟨hn, hw⟩
    exact ⟨by simp [hwrites, hn], hw⟩

theorem ends_update {b : Notebook} {args : UpdateMemoryArgs F} (h : w.Holds b) :
    (handleMemoryUpdate args user).ends (exec bm25)
    (fun answer w' => w'.Told ⟨app, user, .memory (.update args)⟩ b answer) w := by
  refine ends_user (fun _ => h.told rfl) fun huser => .seq (ends_updating h) ?_ fun e w' hw => hw.told rfl
  subst huser
  rintro updated w' ⟨hupdated, hw⟩
  refine hw.told ⟨rfl, ?_, rfl⟩
  show ResponseData.affected _ = ResponseData.affected (if args.isEmpty then 0 else b.size args.userId (· == args.id))
  rw [b.size_single]
  cases hempty : args.isEmpty <;> simp [hupdated, hempty]

theorem ends_updateRetention {b : Notebook} {id : String} {retentionFloor : F} (h : w.Holds b) :
    (handleUpdateRetention userId id retentionFloor user).ends (exec bm25)
      (fun answer w' => w'.Told ⟨app, user, .lifecycle (.updateRetention userId id retentionFloor)⟩ b answer) w := by
  refine ends_user (fun _ => h.told rfl) fun huser => .seq (ends_updating h) ?_ fun e w' hw => hw.told rfl
  rintro updated w' ⟨-, hw⟩
  have hsame : b.revise userId id (MemoryUpdate.revises ({ retentionFloor := some retentionFloor } : MemoryUpdate F)) = b := by
    funext u i
    unfold Book.revise
    split
    · cases b u i <;> rfl
    · rfl
  exact hw.told ⟨hsame, trivial⟩

theorem storedRow_note (app : AppState F) (args : StoreMemoryArgs F) (id : String) (vector : List F) (now : Int) :
    (storedRow app args id vector now).note = args.note ∧ (storedRow app args id vector now).userId = args.userId ∧
      (storedRow app args id vector now).id = id := by
  unfold storedRow
  cases args.importance <;> exact ⟨rfl, rfl, rfl⟩

theorem ends_drawing {b : Notebook} {owner : String} (h : w.Holds b) :
    (freshMemoryId owner : HandlerM F String).ends (exec bm25)
    (fun _ w' => w'.Holds b) w := ends_wordless (only_freshMemoryId (Cmd.still.wordless trivial)) h

theorem ends_embedding {b : Notebook} {text : String} (h : w.Holds b) :
    (embed app text).ends (exec bm25) (fun _ w' => w'.Holds b) w :=
  ends_wordless (only_embed.imp fun _ hc => hc.wordless) h

theorem wordless_queueConflictsFor [Elementary F] (userId newId : String) (newVec : List F) (now : Int) :
    (queueConflictsFor app userId newId newVec now).Only Cmd.wordless := by
  refine only_bind (only_mapError (only_search.imp fun _ hc => hc.quiet.wordless)) fun hits => ?_
  exact only_mapError (only_write (wordless_write not_false))

theorem ends_store [Elementary F] {b : Notebook} {args : StoreMemoryArgs F} (h : w.Holds b) :
    (handleMemoryStore app args user).ends (exec bm25)
    (fun answer w' => w'.Told ⟨app, user, .memory (.store args)⟩ b answer) w := by
  have hnone : ∀ {e : HandlerError} {w' : World F}, w'.Holds b → w'.Told ⟨app, user, .memory (.store args)⟩ b (.error e) :=
    fun hw => hw.told (.inl rfl)
  refine ends_user (fun _ => hnone h) fun huser => ?_
  subst huser
  refine .seq (ends_embedding h) (fun vector w₁ h₁ => .seq (ends_drawing h₁) (fun id w₂ h₂ => ?_) fun e w₂ h₂ => hnone h₂)
    fun e w₁ h₁ => hnone h₁
  refine .seq (ends_wordless (only_clock (Cmd.still.wordless trivial)) h₂) (fun now w₃ h₃ => ?_) fun e w₃ h₃ => hnone h₃
  obtain ⟨hnote, hu, hid⟩ := storedRow_note app args id vector now
  refine .seq (ends_inserting h₃) (fun _ w₄ h₄ => ?_) fun e w₄ h₄ => hnone h₄
  rw [hnote, hu, hid] at h₄
  refine .seq (ends_wordless (wordless_queueConflictsFor _ _ _ _) h₄.2) (fun _ w₅ h₅ => h₅.told ⟨rfl, id, rfl, h₄.1, rfl⟩) fun e w₅ h₅ => ?_
  exact h₅.told (.inr ⟨rfl, id, h₄.1, rfl⟩)

theorem ends_storeEntries {now : Int} (entries : List BatchMemoryEntry) {b : Notebook} (h : w.Holds b) :
    (storeEntries app userId now entries).ends (exec bm25) (fun answer w' => match answer with
      | .ok ids => ids.length = entries.length ∧ ∃ b', b.Adds userId (ids.zip (entries.map BatchMemoryEntry.note)) b' ∧ w'.Holds b'
      | .error _ => ∃ (ids : List String) (b' : Notebook), b.Adds userId (ids.zip (entries.map BatchMemoryEntry.note)) b' ∧ w'.Holds b') w := by
  induction entries generalizing w b with
  | nil => exact ⟨rfl, b, rfl, h⟩
  | cons entry entries ih =>
    have hnone : ∀ {w' : World F}, w'.Holds b → ∃ (ids : List String) (b' : Notebook), b.Adds userId
        (ids.zip ((entry :: entries).map BatchMemoryEntry.note)) b' ∧ w'.Holds b' := fun hw => ⟨[], b, rfl, hw⟩
    refine .seq (ends_embedding h) (fun vector w₁ h₁ => .seq (ends_drawing h₁) (fun id w₂ h₂ => ?_) fun e w₂ h₂ => hnone h₂)
      fun e w₁ h₁ => hnone h₁
    refine .seq (ends_inserting h₂) (fun _ w₃ h₃ => ?_) fun e w₃ h₃ => hnone h₃
    refine .seq (ih h₃.2) ?_ ?_
    · rintro ids w₄ ⟨hlen, b', hadds, h₄⟩
      exact ⟨congrArg (· + 1) hlen, b', ⟨h₃.1, hadds⟩, h₄⟩
    · rintro e w₄ ⟨ids, b', hadds, h₄⟩
      exact ⟨id :: ids, b', ⟨h₃.1, hadds⟩, h₄⟩

theorem ends_storeBatch {b : Notebook} {args : StoreBatchArgs F} (h : w.Holds b) :
    (handleMemoryStoreBatch app args user).ends
    (exec bm25) (fun answer w' => w'.Told ⟨app, user, .memory (.storeBatch args)⟩ b answer) w := by
  refine ends_user (fun _ => h.told (.inl rfl)) fun huser => ?_
  subst huser
  split
  · rename_i hempty
    have hnil : args.memories = [] := List.isEmpty_iff.mp hempty
    exact h.told ⟨rfl, [], 0, rfl, by simp [hnil], rfl⟩
  refine .seq (ends_wordless (only_clock (Cmd.still.wordless trivial)) h) (fun now w₁ h₁ => ?_) fun e w₁ h₁ => h₁.told (.inl rfl)
  refine .seq (ends_storeEntries args.memories h₁) ?_ ?_
  · rintro ids w₂ ⟨hlen, b', hadds, h₂⟩
    have hlink : (linkAll args.initialLinkWeight now (orderedPairs ids)).Only (Cmd.wordless (F := F)) := by
      exact only_linkAll (fun a c => only_createOrStrengthen (Cmd.still.wordless trivial) fun existing => wordless_write not_false) _
    exact .seq (ends_wordless hlink h₂) (fun n w₃ h₃ => h₃.told ⟨rfl, ids, n, rfl, hlen, hadds⟩)
      fun e w₃ h₃ => h₃.told (.inr ⟨rfl, ids, hadds⟩)
  · rintro e w₂ ⟨ids, b', hadds, h₂⟩
    exact h₂.told (.inr ⟨rfl, ids, hadds⟩)

/-! ## The tick, and all requests -/

def OnlySummarizes (bm25 : Bm25 F) {ε α : Type} (p : Prog (Cmd F) Cmd.Res ε α) : Prop :=
  ∀ w : World F, w.db.Keyed → p.ends (exec bm25) (fun _ w' => w'.db.Keyed ∧
    w.db.notebook.Grows w'.db.notebook fun n => n.memoryType = "summary") w

theorem summarizes_seq {ε α β : Type} {p : Prog (Cmd F) Cmd.Res ε α} {f : α → Prog (Cmd F) Cmd.Res ε β}
    (hp : OnlySummarizes bm25 p) (hf : ∀ a, OnlySummarizes bm25 (f a)) : OnlySummarizes bm25 (p >>= f) := fun w hk =>
  .seq (hp w hk) (fun a w₁ h₁ => (hf a w₁ h₁.1).imp fun _ _ h₂ => ⟨h₂.1, h₁.2.trans h₂.2⟩) fun _ _ h₁ => h₁

theorem summarizes_closed : Closed (C := Cmd F) (R := Cmd.Res) (OnlySummarizes bm25) where
  pure _ _ hk := ⟨hk, .refl _ _⟩
  fail _ _ hk := ⟨hk, .refl _ _⟩
  seq := summarizes_seq
  mapError h w hk := .mapError (h w hk)

theorem summarizes_wordless {ε α : Type} {p : Prog (Cmd F) Cmd.Res ε α} (hp : p.Only Cmd.wordless) : OnlySummarizes bm25 p :=
  fun _ hk => (ends_wordless hp ⟨hk, rfl⟩).imp fun _ _ hw => ⟨hw.keyed, hw.notebook ▸ .refl _ _⟩

theorem summarizes_compressCluster {group : List (MemoryRow F)} {now : Int} :
    OnlySummarizes bm25 (compressCluster app userId group now) := by
  refine summarizes_seq (summarizes_wordless ⟨Cmd.still.wordless trivial, fun _ => trivial⟩) fun answer => ?_
  refine summarizes_seq (summarizes_wordless (only_mapError (only_ofExcept _))) fun text => ?_
  refine summarizes_seq (summarizes_wordless (only_embed.imp fun _ hc => hc.wordless)) fun vector => ?_
  refine summarizes_seq (summarizes_wordless (only_freshMemoryId (Cmd.still.wordless trivial))) fun id => summarizes_seq ?_ fun _ => ?_
  · intro w hk
    refine (ends_inserting ⟨hk, rfl⟩).imp ?_
    rintro (e | a) w' hw
    · exact ⟨hw.keyed, hw.notebook ▸ .refl _ _⟩
    · exact ⟨hw.2.keyed, hw.2.notebook ▸ Book.grows_write hw.1 rfl⟩
  · exact summarizes_seq (summarizes_wordless (only_mapError (only_write (wordless_write not_false)))) fun _ => summarizes_wordless trivial

theorem summarizes_tick [Elementary F] : OnlySummarizes bm25 (handleTick app) := by
  refine closed_tick (P := OnlySummarizes bm25) summarizes_closed (fun c hc => summarizes_wordless ⟨?_, fun _ => trivial⟩)
    fun user group now => summarizes_compressCluster
  rintro wr rfl
  cases wr <;> first | exact hc.elim | exact not_false

theorem ends_unwritten [Elementary F] {t : Caller F} {b : Notebook}
    (hwordless : ∀ wr, t.request.writes wr → ¬ wr.restates) (h : w.Holds b)
    (hok : (handleRequest t.app t.request t.user).wp (exec bm25) (fun response _ => t.request.serves t.user b response b)
      (fun _ => True) w)
    (herr : (handleRequest t.app t.request t.user).ends (exec bm25) (fun answer _ => ∀ e, answer = .error e → t.request.fails t.user b e b) w) :
    (handleRequest t.app t.request t.user).ends (exec bm25) (fun answer w' => w'.Told t b answer) w := by
  have honly : (handleRequest t.app t.request t.user).Only Cmd.wordless := (only_issued t.app t.request t.user).imp fun c hc => by
    rintro wr rfl
    exact hwordless wr hc
  rw [ends_run] at herr ⊢
  refine (ends_run.mp (ends_wordless honly h)).told ?_
  cases hrun : (handleRequest t.app t.request t.user).run (exec bm25) w with
  | mk answer w' =>
    cases answer with
    | ok response => exact (wp_run.mp hok).1 response w' hrun
    | error e => exact herr e (by rw [hrun])

/-- Requests of which nothing more is said than that they tell the truth. -/
theorem ends_telling [Elementary F] {t : Caller F} {b : Notebook}
    (hwordless : ∀ wr, t.request.writes wr → ¬ wr.restates) (h : w.Holds b)
    (hserves : ∀ response, response.from b t.user → t.request.serves t.user b response b)
    (hfails : ∀ e, t.request.fails t.user b e b)
    (hfrom : (handleRequest t.app t.request t.user).wp (exec bm25) (fun response _ => response.from b t.user) (fun _ => True) w) :
    (handleRequest t.app t.request t.user).ends (exec bm25) (fun answer w' => w'.Told t b answer) w := by
  refine ends_unwritten hwordless h (hfrom.imp fun response _ => hserves response) ?_
  exact ends_run.mpr fun e _ => hfails e

theorem wp_any {ε α : Type} {p : Prog (Cmd F) Cmd.Res ε α} : p.wp (exec bm25) (fun _ _ => True) (fun _ => True) w :=
  wp_run.mpr ⟨fun _ _ _ => trivial, fun _ _ _ => trivial⟩

theorem wp_affecting {p : Repo F ℕ} {b : Notebook} :
    (affecting userId user p).wp (exec bm25) (fun response _ => response.from b user)
    (fun _ => True) w := wp_require fun _ => wp.seq wp_any fun _ _ _ => trivial

theorem wp_affectingOne {p : Repo F ℕ} {b : Notebook} : (affectingOne userId user p).wp (exec bm25)
    (fun response _ => response.from b user) (fun _ => True) w := wp_require fun _ => wp.seq wp_any fun _ _ _ => trivial

variable [Elementary F]

theorem ends_memoryRequest {b : Notebook} {req : MemoryRequest F} (h : w.Holds b) :
    (handleMemoryRequest app req user).ends (exec bm25)
    (fun answer w' => w'.Told ⟨app, user, .memory req⟩ b answer) w := by
  have hk := h.keyed
  have htell : (∀ wr, req.writes wr → ¬ wr.restates) →
      (∀ response, response.from b user → (Request.memory req).serves user b response b) →
      (∀ e, (Request.memory req).fails user b e b) →
      (handleMemoryRequest app req user).wp (exec bm25) (fun response _ => response.from w.db.notebook user) (fun _ => True) w →
      (handleMemoryRequest app req user).ends (exec bm25) (fun answer w' => w'.Told ⟨app, user, .memory req⟩ b answer) w :=
    fun hw hs hf hfrom => ends_telling (t := ⟨app, user, .memory req⟩) hw h hs hf (h.notebook ▸ hfrom)
  have hnone : ∀ {wr : Write F}, False → ¬ wr.restates := fun h _ => h
  cases req with
  | store => exact ends_store h
  | storeBatch => exact ends_storeBatch h
  | update => exact ends_update h
  | delete => exact ends_delete h
  | deleteMany => exact ends_deleteMany h
  | subscribe => exact h.told rfl
  | get userId id =>
    refine ends_unwritten (t := ⟨app, user, .memory (.get userId id)⟩) (fun wr hwr => ?_) h ?_ ?_
    · cases wr <;> first | exact not_false | exact hnone hwr
    · refine (wp_get_from hk).imp fun response _ hresponse => ?_
      rw [h.notebook] at hresponse
      exact ⟨hresponse.1, rfl, hresponse.2⟩
    · refine ends_get_notFound.imp fun answer _ hanswer e he => ⟨rfl, ?_⟩
      rintro rfl
      exact h.notebook ▸ hanswer he
  | getMany userId ids =>
    refine ends_unwritten (t := ⟨app, user, .memory (.getMany userId ids)⟩) (fun wr hwr => ?_) h ?_ ?_
    · cases wr <;> first | exact not_false | exact hnone hwr
    · refine (wp_getMany_from hk).imp fun response _ hresponse => ?_
      rw [h.notebook] at hresponse
      exact ⟨hresponse.1, rfl, hresponse.2⟩
    · exact ends_run.mpr fun _ _ => rfl
  | search =>
    refine htell (fun wr hwr => ?_) (fun _ hr => ⟨rfl, hr⟩) (fun _ => rfl) (wp_searching_from hk)
    cases wr <;> first | exact not_false | exact hnone hwr
  | link args =>
    refine htell (fun wr hwr => ?_) (fun _ hr => ⟨rfl, hr⟩) (fun _ => rfl) ?_
    · cases wr <;> first | exact not_false | exact hnone hwr
    · exact wp_require fun _ => wp.seq wp_any fun _ _ _ => wp.seq wp_any fun _ _ _ => trivial
  | unlink args =>
    refine htell (fun wr hwr => ?_) (fun _ hr => ⟨rfl, hr⟩) (fun _ => rfl) ?_
    · cases wr <;> first | exact not_false | exact hnone hwr
    · show (handleMemoryUnlink args user).wp _ _ _ _
      unfold handleMemoryUnlink
      split
      · exact wp_affecting
      · exact wp_affectingOne
  | batchUpdate userId updates =>
    refine htell (fun wr hwr => ?_) (fun _ hr => ⟨rfl, hr⟩) (fun _ => rfl) wp_affecting
    cases hwr
    exact not_false
  | list => exact htell (fun _ => hnone) (fun _ hr => ⟨rfl, hr⟩) (fun _ => rfl) (wp_list_from hk)
  | getLinked => exact htell (fun _ => hnone) (fun _ hr => ⟨rfl, hr⟩) (fun _ => rfl) (wp_getLinked_from hk)
  | getLinkedMany => exact htell (fun _ => hnone) (fun _ hr => ⟨rfl, hr⟩) (fun _ => rfl) (wp_getLinkedMany_from hk)
  | vectorSearch => exact htell (fun _ => hnone) (fun _ hr => ⟨rfl, hr⟩) (fun _ => rfl) (wp_vectorSearch_from hk)
  | searchLexical => exact htell (fun _ => hnone) (fun _ hr => ⟨rfl, hr⟩) (fun _ => rfl) wp_searchLexical_from

theorem ends_tick {b : Notebook} {sync : Bool} (h : w.Holds b) : (handleTick app).ends (exec bm25)
    (fun answer w' => w'.Told ⟨app, user, .lifecycle (.tick sync)⟩ b answer) w := by
  obtain ⟨hk, rfl⟩ := h
  refine (summarizes_tick w hk).imp ?_
  rintro (e | response) w' hw
  · exact ⟨hw.1, hw.2⟩
  · exact ⟨hw.1, hw.2⟩

theorem ends_lifecycleRequest {b : Notebook} {req : LifecycleRequest F} (h : w.Holds b) :
    (handleLifecycleRequest app req user).ends (exec bm25) (fun answer w' => w'.Told ⟨app, user, .lifecycle req⟩ b answer) w := by
  have hk := h.keyed
  have htell : (∀ wr, req.writes wr → ¬ wr.restates) →
      (∀ response, response.from b user → (Request.lifecycle req).serves user b response b) →
      (∀ e, (Request.lifecycle req).fails user b e b) →
      (handleLifecycleRequest app req user).wp (exec bm25) (fun response _ => response.from w.db.notebook user) (fun _ => True) w →
      (handleLifecycleRequest app req user).ends (exec bm25) (fun answer w' => w'.Told ⟨app, user, .lifecycle req⟩ b answer) w :=
    fun hw hs hf hfrom => ends_telling (t := ⟨app, user, .lifecycle req⟩) hw h hs hf (h.notebook ▸ hfrom)
  cases req with
  | tick => exact ends_tick h
  | clear => exact ends_clear h
  | updateRetention => exact ends_updateRetention h
  | findFading => exact htell (fun _ h _ => h) (fun _ hr => ⟨rfl, hr⟩) (fun _ => rfl) (wp_findFading_from hk)
  | findStable => exact htell (fun _ h _ => h) (fun _ hr => ⟨rfl, hr⟩) (fun _ => rfl) (wp_findStable_from hk)
  | markSuperseded =>
    refine htell (fun wr hwr => ?_) (fun _ hr => ⟨rfl, hr⟩) (fun _ => rfl) wp_affecting
    cases hwr
    exact not_false
  | migrateToCold | migrateToHot | convertToStub =>
    refine htell (fun wr hwr => ?_) (fun _ hr => ⟨rfl, hr⟩) (fun _ => rfl) wp_affectingOne
    cases hwr
    exact not_false

theorem ends_diagnosticsRequest {b : Notebook} {req : DiagnosticsRequest} (h : w.Holds b) :
    (handleDiagnosticsRequest app req user).ends (exec bm25) (fun answer w' => w'.Told ⟨app, user, .diagnostics req⟩ b answer) w := by
  refine ends_telling (t := ⟨app, user, .diagnostics req⟩) (fun wr hwr => ?_) h (fun _ hr => ⟨rfl, hr⟩) (fun _ => rfl) (h.notebook ▸ ?_)
  · cases req <;> cases wr <;> first | exact not_false | exact fun _ => hwr
  show (handleDiagnosticsRequest app req user).wp _ _ _ _
  cases req with
  | counts => exact wp_counts_from h.keyed
  | status => exact wp.seq wp_any fun _ _ _ => trivial
  | doctor | recentTraces | shutdown => trivial
  | mintBridgeToken =>
    exact wp.seq wp_any fun _ _ _ => wp.seq wp_any fun _ _ _ => wp.seq wp_any fun _ _ _ => wp.seq wp_any fun _ _ _ => trivial
  | validateBridgeToken =>
    refine wp.seq wp_any fun row? w₁ _ => ?_
    cases row? with
    | none => trivial
    | some row =>
      refine wp.seq wp_any fun now w₂ _ => ?_
      split_ifs <;> trivial

theorem ends_request (bm25 : Bm25 F) (t : Caller F) {b : Notebook} (h : w.Holds b) :
    (handleRequest t.app t.request t.user).ends (exec bm25) (fun answer w' => w'.Told t b answer) w := by
  obtain ⟨app, user, req⟩ := t
  cases req with
  | memory => exact ends_memoryRequest h
  | lifecycle => exact ends_lifecycleRequest h
  | diagnostics => exact ends_diagnosticsRequest h
  | unknownBucket => exact h.told rfl

end

variable [Field F] [LinearOrder F] [Elementary F]

theorem serving_refines (bm25 : Bm25 F) : (serving bm25).Refines notes (fun w => w.db.Keyed) fun w => w.db.notebook := by
  have hstep : ∀ (l : Exchange F) (w w' : World F), w.db.Keyed → serving bm25 l w w' → w'.Told l.1 w.db.notebook l.2 := by
    intro l w w' hk hrun
    have hends := ends_run.mp (ends_request bm25 l.1 ⟨hk, rfl⟩)
    rwa [show (handleRequest l.1.app l.1.request l.1.user).run (exec bm25) w = (l.2, w') from hrun] at hends
  exact ⟨fun l w w' hk hrun => (hstep l w w' hk hrun).1, fun l w w' hk hrun => (hstep l w w' hk hrun).2⟩

/-- However the store came about: requests served one after the other from there on are answered as a
notebook would answer them, which every user has for their own. -/
theorem notebook_refined {bm25 : Bm25 F} {w w' : World F} (h : Reachable bm25 anyCaller anyStep w)
    {exchanges : List (Exchange F)} (hrun : (serving bm25).Run w exchanges w') :
    notes.Run w.db.notebook exchanges w'.db.notebook := (serving_refines bm25).run h.keyed hrun

/-- Bob does not delete Alice's tea. -/
theorem notebook_of_tea : ∃ b : Notebook, notes.Run World.quiet.db.notebook
    [(saves "alice" "tea", .ok (.memoryStored "mem_")), (drops "bob" "mem_", .ok (.affected 0))] b := by
  have hstored : serving Bm25.none (saves "alice" "tea", .ok (.memoryStored "mem_")) World.quiet teaStored := rfl
  have hspared : serving Bm25.none (drops "bob" "mem_", .ok (.affected 0)) teaStored ((drops "bob" "mem_").serve Bm25.none teaStored) :=
    rfl
  exact ⟨_, notebook_refined quiet_start.reachable (.cons hstored (.cons hspared (.nil _)))⟩

end CognitiveMemory
