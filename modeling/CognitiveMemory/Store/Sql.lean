import CognitiveMemory.Store.Rows

/-! The SQL statements and explicit transactions the daemon issues, each with its effect on
the database. A transaction either applies as a whole or reports its error and changes
nothing. -/

namespace CognitiveMemory

/-- SELECT statements. The comment after a constructor names its one caller where it has one. -/
inductive Query (F : Type)
  | getForUser (userId id : String)
  | getManyForUser (userId : String) (ids : List String)
  | queryMemories (userId : String) (filters : MemoryFilters F)
  | findFadingCandidates (userId : String)
  | findStable (userId : String) (minStability : F) (minAccessCount limit : Int)
  | countsForUser (userId : String)
  | bm25Search (userId safeQuery : String) (limit : Int)
  | candidatesForSearch (userId provider model : String) (now : Int) (includeExpired : Bool)
  | edgeWeight (sourceId targetId : String)
  | edgesFrom (sourceId : String) (minWeight : F)
  | edgesFromMany (sourceIds : List String) (minWeight : F)
  | cacheGet (provider model : String) (textHash : List UInt8)
  | bridgeToken (key : List UInt8)
  | countMemories
  | countMigrations -- the doctor
  | hotRows -- pass 1 of the tick
  | staleCold (cutoff : Int) -- pass 2
  | conflictPairs (limit : ℕ) -- pass 3
  | hotUsers -- pass 4
  | hotEmbedded (userId : String) -- pass 4

structure ConflictPair where
  id : ℕ
  userId : String
  newMemoryId : String
  existingMemoryId : String
  deriving DecidableEq

@[reducible] def Query.Res {F : Type} : Query F → Type
  | .getForUser .. => Option (MemoryRow F)
  | .getManyForUser .. | .queryMemories .. | .findFadingCandidates .. | .findStable ..
  | .hotRows | .staleCold _ | .hotEmbedded _ => List (MemoryRow F)
  | .countsForUser _ => MemoryCounts
  | .bm25Search .. | .hotUsers => List String
  | .candidatesForSearch .. => List (SearchCandidate F)
  | .edgeWeight .. => Option F
  | .edgesFrom .. | .edgesFromMany .. => List (NeighborEdge F)
  | .cacheGet .. => Option (List F)
  | .bridgeToken _ => Option BridgeTokenRow
  | .countMemories | .countMigrations => ℕ
  | .conflictPairs _ => List ConflictPair

/-- INSERT, UPDATE and DELETE statements, and transactions of them. -/
inductive Write (F : Type)
  | insertMemory (row : MemoryRow F)
  | updateMemory (userId id : String) (upd : MemoryUpdate F)
  | deleteMemory (userId id : String)
  | deleteMany (userId : String) (ids : List String)
  | applyDirectBoost (userId : String) (boosts : List (String × F)) (now : Int) (sessionId : String)
  | promoteToCore (userId : String) (ids : List String)
  | updateRetentionScores (userId : String) (updates : List (String × F))
  | markSuperseded (userId : String) (ids : List String) (summaryId : String)
  | migrateToCold (userId id : String) (coldSince : Int)
  | migrateToHot (userId id : String)
  | migrateToHotMany (userId : String) (ids : List String)
  | convertToStub (userId id stubContent : String)
  | clearUser (userId : String)
  | upsertEdge (sourceId targetId : String) (existing : Option F) (bump : F) (now : Int) (kind : String)
  | strengthenPairs (pairs : List (String × String)) (amount : F) (now : Int) (kind : String)
  | deleteEdge (sourceId targetId : String)
  | deleteEdgeBidirectional (a b : String)
  | cacheInsert (row : CacheRow F)
  | insertBridgeToken (row : BridgeTokenRow)
  | queueConflicts (userId newId : String) (hits : List (String × F)) (now : Int)
  | tickFloor (rows : List (MemoryRow F × Bool)) (now : Int) -- pass 1, with the at-floor flags
  | tickExpire (rows : List (MemoryRow F)) -- pass 2
  | supersedeCluster (userId summaryId : String) (ids : List String) (now : Int) -- pass 4

@[reducible] def Write.Res {F : Type} : Write F → Type
  | .insertMemory _ | .cacheInsert _ | .insertBridgeToken _ | .queueConflicts .. | .tickFloor ..
  | .tickExpire _ | .supersedeCluster .. => Unit
  | .upsertEdge .. => F
  | _ => ℕ

variable {F : Type} [Field F] [LinearOrder F]

/-! ## Sorting: `sort_by_key`, `sort_by` and ORDER BY are stable -/

def sortAsc {α : Type} (key : α → F) (l : List α) : List α :=
  l.insertionSort fun a b => key a ≤ key b

def sortDesc {α : Type} (key : α → F) (l : List α) : List α :=
  l.insertionSort fun a b => key b ≤ key a

/-- Rows of `associations` with one source, and groups by target, come in the order of the primary key. -/
def byTarget {α : Type} (target : α → String) (l : List α) : List α :=
  l.insertionSort fun a b => target a ≤ target b

/-- SQLite reads a negative LIMIT as no limit. -/
def sqlLimit {α : Type} (limit : Int) (l : List α) : List α :=
  if limit < 0 then l else l.take limit.toNat

/-! ## Reading -/

/-- The bm25 rank of a document under a query over the indexed corpus; `none` when the query
does not match it. FTS5's ranking function is outside the repository. -/
abbrev Bm25 (F : Type) := List FtsRow → String → FtsRow → Option F

def MemoryFilters.accepts (f : MemoryFilters F) (userId : String) (r : MemoryRow F) : Bool :=
  r.userId == userId && (f.includeCold || !r.isCold) && (f.includeStubs || !r.isStub) &&
  (f.includeSuperseded || !r.isSuperseded) &&
  (match f.categories with
    | some cats => cats.isEmpty || cats.contains r.category
    | none => true) &&
  (match f.memoryTypes with
    | some types => types.isEmpty || types.contains r.memoryType
    | none => true) &&
  (match f.minRetentionFloor with
    | some v => decide (v ≤ r.retentionFloor)
    | none => true) &&
  (match f.minImportance with
    | some v => decide (v ≤ r.importance)
    | none => true) &&
  (match f.createdAfter with
    | some v => decide (v ≤ r.createdAt)
    | none => true) &&
  (match f.createdBefore with
    | some v => decide (r.createdAt ≤ v)
    | none => true)

/-- OFFSET without LIMIT is not SQLite syntax. -/
def Db.queryMemories (db : Db F) (userId : String) (f : MemoryFilters F) :
    Except SqlError (List (MemoryRow F)) :=
  let rows := (db.memories.filter (f.accepts userId)).insertionSort fun a b => b.createdAt ≤ a.createdAt
  match f.limit, f.offset with
  | none, none => .ok rows
  | none, some _ => .error .syntaxError
  | some l, none => .ok (sqlLimit l rows)
  | some l, some o => .ok (sqlLimit l (rows.drop o.toNat))

def Db.getManyForUser (db : Db F) (userId : String) (ids : List String) : List (MemoryRow F) :=
  (db.memories.filter fun r => r.userId == userId && ids.contains r.id).insertionSort
    fun a b => ids.idxOf a.id ≤ ids.idxOf b.id

def MemoryRow.hot (r : MemoryRow F) : Bool := !r.isCold && !r.isStub && !r.isSuperseded

/-- `SUM` over no rows is NULL, which SQLite hands out as the integer 0. -/
def Db.countsForUser (db : Db F) (userId : String) : MemoryCounts :=
  let rows := db.memories.filter (·.userId == userId)
  { hot := (rows.filter fun r => !r.isCold && !r.isStub).length
    cold := (rows.filter fun r => r.isCold && !r.isStub).length
    stub := (rows.filter (·.isStub)).length
    total := rows.length }

def Db.bm25Search (bm25 : Bm25 F) (db : Db F) (userId safeQuery : String) (limit : Int) : List String :=
  let hits := (db.memories.filter (·.userId == userId)).flatMap fun m =>
    db.memoriesFts.filterMap fun d =>
      if d.id = m.id then (bm25 db.memoriesFts safeQuery d).map fun rank => (m.id, rank) else none
  sqlLimit limit ((sortAsc Prod.snd hits).map Prod.fst)

/-- The WHERE clause of `candidates_for_search`; `includeExpired` is the deep-recall mode. -/
def MemoryRow.searchable (r : MemoryRow F) (userId provider model : String) (now : Int)
    (includeExpired : Bool) : Bool :=
  r.userId == userId && r.embedding.isSome && r.embeddingProvider == some provider &&
  r.embeddingModel == some model && !r.isStub && r.validFrom.all (· ≤ now) &&
  (includeExpired || (!r.isSuperseded && !r.isCold && r.validUntil.all (now < ·)))

def SearchCandidate.ofRow (r : MemoryRow F) : SearchCandidate F where
  id := r.id
  content := r.content
  embedding := r.embedding.getD []
  category := r.category
  memoryType := r.memoryType
  lastAccessedAt := r.lastAccessedAt
  createdAt := r.createdAt
  retentionFloor := r.retentionFloor
  retrievalCount := r.retrievalCount
  stability := r.stability
  importance := r.importance
  isStub := r.isStub

def Db.edge? (db : Db F) (sourceId targetId : String) : Option (AssociationRow F) :=
  db.associations.find? fun e => e.sourceMemoryId == sourceId && e.targetMemoryId == targetId

def NeighborEdge.ofRow (e : AssociationRow F) : NeighborEdge F :=
  ⟨e.targetMemoryId, e.weight, e.lastCoRetrieval⟩

/-- `MAX` over a nullable column skips NULLs. -/
def maxLast : Option Int → Option Int → Option Int
  | none, b => b
  | a, none => a
  | some a, some b => some (max a b)

/-- `GROUP BY target_memory_id` with `MAX(weight)` and `MAX(last_co_retrieval)`. -/
def mergeEdge (groups : List (NeighborEdge F)) (e : NeighborEdge F) : List (NeighborEdge F) :=
  match groups with
  | [] => [e]
  | g :: gs =>
    if g.targetId = e.targetId then
      ⟨g.targetId, max g.weight e.weight, maxLast g.lastCoRetrieval e.lastCoRetrieval⟩ :: gs
    else g :: mergeEdge gs e

def Db.edgesFromMany (db : Db F) (sourceIds : List String) (minWeight : F) : List (NeighborEdge F) :=
  let edges := db.associations.filter fun e => sourceIds.contains e.sourceMemoryId && decide (minWeight ≤ e.weight)
  sortDesc NeighborEdge.weight (byTarget NeighborEdge.targetId ((edges.map NeighborEdge.ofRow).foldl mergeEdge []))

def Query.eval (bm25 : Bm25 F) (db : Db F) : (q : Query F) → Except SqlError q.Res
  | .getForUser userId id => .ok (db.memories.find? fun r => r.userId == userId && r.id == id)
  | .getManyForUser userId ids => .ok (db.getManyForUser userId ids)
  | .queryMemories userId filters => db.queryMemories userId filters
  | .findFadingCandidates userId => .ok ((db.memories.filter fun r => r.userId == userId && r.hot).insertionSort
      fun a b => a.lastAccessedAt ≤ b.lastAccessedAt)
  | .findStable userId minStability minAccessCount limit => .ok <|
      sqlLimit limit <| sortDesc MemoryRow.stability <| db.memories.filter fun r =>
        r.userId == userId && decide (minStability ≤ r.stability) &&
          decide (minAccessCount ≤ r.retrievalCount) && r.hot
  | .countsForUser userId => .ok (db.countsForUser userId)
  | .bm25Search userId safeQuery limit => .ok (db.bm25Search bm25 userId safeQuery limit)
  | .candidatesForSearch userId provider model now includeExpired => .ok <|
      (db.memories.filter fun r => r.searchable userId provider model now includeExpired).map
        SearchCandidate.ofRow
  | .edgeWeight sourceId targetId => .ok ((db.edge? sourceId targetId).map AssociationRow.weight)
  | .edgesFrom sourceId minWeight => .ok <| (sortDesc AssociationRow.weight <|
      byTarget AssociationRow.targetMemoryId <| db.associations.filter fun e =>
        e.sourceMemoryId == sourceId && decide (minWeight ≤ e.weight)).map NeighborEdge.ofRow
  | .edgesFromMany sourceIds minWeight => .ok (db.edgesFromMany sourceIds minWeight)
  | .cacheGet provider model textHash => .ok <| (db.embeddingCache.find? fun c =>
      c.provider == provider && c.model == model && c.textHash == textHash).map CacheRow.embedding
  | .bridgeToken key => .ok (db.bridgeTokens.find? (·.key == key))
  | .countMemories => .ok db.memories.length
  | .countMigrations => .ok 5
  | .hotRows => .ok (db.memories.filter MemoryRow.hot)
  | .staleCold cutoff => .ok <| db.memories.filter fun r =>
      r.isCold && !r.isStub && r.coldSince.any (· < cutoff)
  | .conflictPairs limit => .ok <| ((sortDesc ConflictRow.similarity db.conflictQueue).take limit).map
      fun c => ⟨c.id, c.userId, c.newMemoryId, c.existingMemoryId⟩
  | .hotUsers => .ok ((db.memories.filter MemoryRow.hot).map MemoryRow.userId).dedup
  | .hotEmbedded userId => .ok <| db.memories.filter fun r =>
      r.userId == userId && r.hot && r.embedding.isSome

/-! ## Writing -/

def Db.hasMemory (db : Db F) (id : String) : Bool := db.memories.any (·.id == id)

/-- UPDATE of columns other than `content`: the update trigger does not fire. -/
def Db.modify (db : Db F) (p : MemoryRow F → Bool) (f : MemoryRow F → MemoryRow F) : Db F :=
  { db with memories := db.memories.map fun r => if p r then f r else r }

def Db.matching (db : Db F) (p : MemoryRow F → Bool) : ℕ := (db.memories.filter p).length

def owned (userId id : String) (r : MemoryRow F) : Bool := r.userId == userId && r.id == id

def ownedAmong (userId : String) (ids : List String) (r : MemoryRow F) : Bool :=
  r.userId == userId && ids.contains r.id

def Db.insertMemory (db : Db F) (row : MemoryRow F) : Except SqlError (Db F) :=
  if db.hasMemory row.id then .error .unique else .ok
    { db with
      memories := db.memories ++ [row]
      memoriesFts := db.memoriesFts ++ [⟨row.id, row.content⟩] }

/-- UPDATE; a row whose `content` is set is re-indexed by the update trigger. -/
def Db.updateMemory (db : Db F) (userId id : String) (upd : MemoryUpdate F) : Db F :=
  let db' := db.modify (owned userId id) upd.set
  match upd.content with
  | none => db'
  | some content =>
    if db.memories.any (owned userId id) then
      { db' with memoriesFts := db.memoriesFts.filter (·.id != id) ++ [⟨id, content⟩] }
    else db'

/-- DELETE with its cascades: the delete trigger and the ON DELETE CASCADE references. -/
def Db.deleteMemories (db : Db F) (p : MemoryRow F → Bool) : Db F :=
  let gone := (db.memories.filter p).map MemoryRow.id
  { db with
    memories := db.memories.filter fun r => !p r
    memoriesFts := db.memoriesFts.filter fun d => !gone.contains d.id
    associations := db.associations.filter fun e =>
      !gone.contains e.sourceMemoryId && !gone.contains e.targetMemoryId
    conflictQueue := db.conflictQueue.filter fun c =>
      !gone.contains c.newMemoryId && !gone.contains c.existingMemoryId }

/-- INSERT .. ON CONFLICT DO UPDATE on `associations`; both endpoints must exist. -/
def Db.upsertAssociation (db : Db F) (row : AssociationRow F) (onConflict : AssociationRow F → AssociationRow F) :
    Except SqlError (Db F) :=
  if (db.edge? row.sourceMemoryId row.targetMemoryId).isSome then .ok
    { db with associations := db.associations.map fun e =>
        if e.sourceMemoryId == row.sourceMemoryId && e.targetMemoryId == row.targetMemoryId
        then onConflict e else e }
  else if db.hasMemory row.sourceMemoryId && db.hasMemory row.targetMemoryId then .ok
    { db with associations := db.associations ++ [row] }
  else .error .foreignKey

/-- What `create_or_strengthen` computes between its read and its write. -/
def newWeight (existing : Option F) (bump : F) : F :=
  match existing with
  | some w => max (min (w + bump) 1) 0
  | none => max (min bump 1) 0

def Db.upsertEdge (db : Db F) (sourceId targetId : String) (existing : Option F) (bump : F) (now : Int)
    (kind : String) : Except SqlError (Db F) :=
  let w := newWeight existing bump
  db.upsertAssociation ⟨sourceId, targetId, w, kind, now, some now⟩ fun e =>
    { e with weight := w, kind := kind, updatedAt := now, lastCoRetrieval := some now }

def Db.strengthenEdge (amount : F) (now : Int) (kind : String) (db : Db F) (e : String × String) :
    Except SqlError (Db F) :=
  db.upsertAssociation ⟨e.1, e.2, max (min amount 1) 0, kind, now, some now⟩ fun r =>
    { r with weight := min 1 (r.weight + amount), updatedAt := now, lastCoRetrieval := some now }

instance lawfulBEq_edge : LawfulBEq (String × String) := inferInstance

def bothWays (pairs : List (String × String)) : List (String × String) :=
  pairs.flatMap fun p => [(p.1, p.2), (p.2, p.1)]

def Db.strengthenPairs (db : Db F) (pairs : List (String × String)) (amount : F) (now : Int) (kind : String) :
    Except SqlError (Db F) :=
  (bothWays pairs).foldlM (Db.strengthenEdge amount now kind) db

def Db.deleteEdges (db : Db F) (p : AssociationRow F → Bool) : Db F :=
  { db with associations := db.associations.filter fun e => !p e }

def AssociationRow.joins (a b : String) (e : AssociationRow F) : Bool :=
  e.sourceMemoryId == a && e.targetMemoryId == b

def AssociationRow.joinsEither (a b : String) (e : AssociationRow F) : Bool :=
  e.joins a b || e.joins b a

/-- INSERT OR IGNORE on the primary key. -/
def Db.cacheInsert (db : Db F) (row : CacheRow F) : Db F :=
  if db.embeddingCache.any fun c => c.provider == row.provider && c.model == row.model && c.textHash == row.textHash
  then db else { db with embeddingCache := db.embeddingCache ++ [row] }

/-- One memory of the boost transaction; its session list is a set kept in order. -/
def boostRow (newStability : F) (now : Int) (sessionId : String) (r : MemoryRow F) : MemoryRow F :=
  { r with
    stability := newStability
    lastAccessedAt := now
    retrievalCount := r.retrievalCount + 1
    sessionIds := if r.sessionIds.contains sessionId then r.sessionIds else r.sessionIds ++ [sessionId] }

def restoreRow (r : MemoryRow F) : MemoryRow F :=
  { r with isCold := false, coldSince := none, daysAtFloor := 0 }

/-- UPDATE one row after the other inside a transaction, with the total of affected rows. -/
def Db.modifyEach {α : Type} (db : Db F) (p : α → MemoryRow F → Bool) (f : α → MemoryRow F → MemoryRow F)
    (xs : List α) : Db F × ℕ :=
  xs.foldl (fun (acc : Db F × ℕ) x => (acc.1.modify (p x) (f x), acc.2 + acc.1.matching (p x))) (db, 0)

def synapticTagWeight (sim : F) : F := min (2 / 10 + (sim - 4 / 10) * (5 / 10)) (5 / 10)

/-- INSERT OR IGNORE into `conflict_queue`: IGNORE covers UNIQUE, not the foreign keys. -/
def Db.queueConflict (db : Db F) (userId newId existingId : String) (sim : F) (now : Int) :
    Except SqlError (Db F) :=
  if db.conflictQueue.any fun c => c.userId == userId && c.newMemoryId == newId && c.existingMemoryId == existingId
  then .ok db
  else if db.hasMemory newId && db.hasMemory existingId then .ok
    { db with
      conflictQueue := db.conflictQueue ++ [⟨db.conflictSeq + 1, userId, newId, existingId, sim, now⟩]
      conflictSeq := db.conflictSeq + 1 }
  else .error .foreignKey

/-- One synaptic tag, in one direction; it leaves `last_co_retrieval` alone. -/
def Db.synapticTag (db : Db F) (src tgt : String) (weight : F) (now : Int) : Except SqlError (Db F) :=
  db.upsertAssociation ⟨src, tgt, weight, "synaptic", now, none⟩ fun e =>
    { e with weight := weight, kind := "synaptic", updatedAt := now }

/-- The transaction of `queue_conflicts_for`: hits come sorted, so the loop stops at the first
one below the lowest band. -/
def Db.queueConflicts (userId newId : String) (now : Int) : List (String × F) → Db F → Except SqlError (Db F)
  | [], db => .ok db
  | (hitId, sim) :: hits, db =>
    if hitId = newId then db.queueConflicts userId newId now hits
    else if 85 / 100 ≤ sim then do
      let db ← db.queueConflict userId newId hitId sim now
      db.queueConflicts userId newId now hits
    else if 75 / 100 ≤ sim then
      (db.modify (owned userId hitId) fun r => { r with stability := min 1 (r.stability + 5 / 100) }).queueConflicts
        userId newId now hits
    else if 4 / 10 ≤ sim then do
      let db ← db.synapticTag newId hitId (synapticTagWeight sim) now
      let db ← db.synapticTag hitId newId (synapticTagWeight sim) now
      db.queueConflicts userId newId now hits
    else .ok db

/-- The floor counter of one row. -/
def Db.countAtFloor (db : Db F) (row : MemoryRow F × Bool) : Db F :=
  if row.2 then db.modify (fun r => r.id == row.1.id) fun r => { r with daysAtFloor := r.daysAtFloor + 1 }
  else if 0 < row.1.daysAtFloor then db.modify (fun r => r.id == row.1.id) fun r => { r with daysAtFloor := 0 }
  else db

/-- Pass 1 for one row: the counter, then the move to cold after 7 ticks. -/
def Db.tickFloorRow (now : Int) (db : Db F) (row : MemoryRow F × Bool) : Db F :=
  let days := if row.2 then row.1.daysAtFloor + 1 else 0
  if row.1.category ≠ "core" ∧ 7 ≤ days then
    (db.countAtFloor row).modify (fun r => r.id == row.1.id) fun r => { r with isCold := true, coldSince := some now }
  else db.countAtFloor row

/-- Pass 2 for one row: a stub keeps a preview of 200 characters and loses its vector. -/
def Db.tickExpireRow (db : Db F) (row : MemoryRow F) : Db F :=
  if row.category = "core" then db
  else db.modify (fun r => r.id == row.id) fun r =>
    { r with
      isStub := true
      stubContent := some ("[archived] " ++ String.ofList (row.content.toList.take 200))
      embedding := none }

def Write.apply (db : Db F) : (w : Write F) → Except SqlError (w.Res × Db F)
  | .insertMemory row => (db.insertMemory row).map ((), ·)
  | .updateMemory userId id upd => .ok (db.matching (owned userId id), db.updateMemory userId id upd)
  | .deleteMemory userId id => .ok (db.matching (owned userId id), db.deleteMemories (owned userId id))
  | .deleteMany userId ids => .ok (db.matching (ownedAmong userId ids), db.deleteMemories (ownedAmong userId ids))
  | .applyDirectBoost userId boosts now sessionId =>
      let r := db.modifyEach (fun b => owned userId b.1) (fun b => boostRow b.2 now sessionId) boosts
      .ok (r.2, r.1)
  | .promoteToCore userId ids =>
      let r := db.modifyEach (fun id r => owned userId id r && r.category != "core")
        (fun _ r => { r with category := "core", retentionFloor := 6 / 10 }) ids
      .ok (r.2, r.1)
  | .updateRetentionScores userId updates =>
      let r := db.modifyEach (fun u => owned userId u.1) (fun u r => { r with retentionFloor := u.2 }) updates
      .ok (r.2, r.1)
  | .markSuperseded userId ids summaryId => .ok (db.matching (ownedAmong userId ids),
      db.modify (ownedAmong userId ids) fun r => { r with isSuperseded := true, supersededBy := some summaryId })
  | .migrateToCold userId id coldSince => .ok (db.matching (owned userId id),
      db.modify (owned userId id) fun r => { r with isCold := true, coldSince := some coldSince })
  | .migrateToHot userId id => .ok (db.matching (owned userId id), db.modify (owned userId id) restoreRow)
  | .migrateToHotMany userId ids =>
      let r := db.modifyEach (owned userId) (fun _ => restoreRow) ids
      .ok (r.2, r.1)
  | .convertToStub userId id stubContent => .ok (db.matching (owned userId id),
      db.modify (owned userId id) fun r => { r with isStub := true, stubContent := some stubContent })
  | .clearUser userId => .ok (db.matching (·.userId == userId), db.deleteMemories (·.userId == userId))
  | .upsertEdge sourceId targetId existing bump now kind =>
      (db.upsertEdge sourceId targetId existing bump now kind).map fun db' => ((newWeight existing bump : F), db')
  | .strengthenPairs pairs amount now kind =>
      (db.strengthenPairs pairs amount now kind).map ((bothWays pairs).length, ·)
  | .deleteEdge sourceId targetId =>
      .ok ((db.associations.filter (AssociationRow.joins sourceId targetId)).length,
        db.deleteEdges (AssociationRow.joins sourceId targetId))
  | .deleteEdgeBidirectional a b =>
      .ok ((db.associations.filter (AssociationRow.joinsEither a b)).length,
        db.deleteEdges (AssociationRow.joinsEither a b))
  | .cacheInsert row => .ok ((), db.cacheInsert row)
  | .insertBridgeToken row =>
      if db.bridgeTokens.any (·.key == row.key) then .error .unique
      else .ok ((), { db with bridgeTokens := db.bridgeTokens ++ [row] })
  | .queueConflicts userId newId hits now => (db.queueConflicts userId newId now hits).map ((), ·)
  | .tickFloor rows now => .ok ((), rows.foldl (Db.tickFloorRow now) db)
  | .tickExpire rows => .ok ((), rows.foldl Db.tickExpireRow db)
  | .supersedeCluster userId summaryId ids now =>
      .ok ((), (db.modifyEach (owned userId) (fun _ r =>
        { r with isSuperseded := true, supersededBy := some summaryId, isCold := true, coldSince := some now })
        ids).1)

end CognitiveMemory
