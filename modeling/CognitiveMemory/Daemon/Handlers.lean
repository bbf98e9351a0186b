import CognitiveMemory.Daemon.Protocol
import CognitiveMemory.Search.Searcher

/-! The request handlers other than `Tick`: one program for each request variant. -/

namespace CognitiveMemory

inductive EmbeddingError
  | provider (message : String)
  | storage (e : SqlError)
  deriving DecidableEq, Repr

inductive HandlerError
  | storage (e : SqlError)
  | embedding (e : EmbeddingError)
  | search (e : SearchError)
  | invalidPayload (message : String)
  | unknownBucket
  | notFound
  deriving DecidableEq, Repr

/-- The part of `AppState` the handlers read. The answers of a configured LLM are the oracle's. -/
structure AppState (F : Type) where
  embeddings : EmbeddingProvider F
  llm : Bool
  lifecycle : LifecycleConfig F
  /-- `sha2::Sha256`. -/
  sha256 : String → List UInt8

abbrev HandlerM (F α : Type) := Prog (Cmd F) Cmd.Res HandlerError α

variable {F : Type} [Field F] [LinearOrder F]

/-- `?` on a repository result. -/
def sqlx {α : Type} (p : Repo F α) : HandlerM F α := p.mapError .storage

def requireUserMatch (argUser connectionUser : String) : HandlerM F Unit :=
  if argUser = connectionUser then pure ()
  else .fail (.invalidPayload
    ("request user_id " ++ argUser.quote ++ " != connection user_id " ++ connectionUser.quote))

/-! ## Cached embeddings -/

/-- The Unicode White_Space property. -/
def isWhitespace (c : Char) : Bool :=
  let n := c.toNat
  (9 ≤ n && n ≤ 13) || n == 32 || n == 0x85 || n == 0xA0 || n == 0x1680 ||
    (0x2000 ≤ n && n ≤ 0x200A) || n == 0x2028 || n == 0x2029 || n == 0x202F || n == 0x205F || n == 0x3000

/-- The loop of `canonicalise`, with `last_was_space`. -/
def collapseSpaces : Bool → List Char → List Char
  | _, [] => []
  | lastWasSpace, c :: cs =>
    if isWhitespace c then
      if lastWasSpace then collapseSpaces true cs else ' ' :: collapseSpaces true cs
    else c :: collapseSpaces false cs

def trim (cs : List Char) : List Char := ((cs.dropWhile isWhitespace).reverse.dropWhile isWhitespace).reverse

def canonicalise (text : String) : String := String.ofList (collapseSpaces false (trim text.toList))

def cachedEmbed (app : AppState F) (text : String) : Prog (Cmd F) Cmd.Res EmbeddingError (List F) := do
  let canonical := canonicalise text
  let hash := app.sha256 canonical
  let cached : Option (List F) ←
    (query (.cacheGet app.embeddings.name app.embeddings.model hash)).mapError .storage
  match cached with
  | some v => pure v
  | none => do
    let answer : Except String (List F) ← Prog.call (Cmd.provider app.embeddings canonical)
    let v ← (Prog.ofExcept answer).mapError .provider
    let _ ← (write (.cacheInsert ⟨app.embeddings.name, app.embeddings.model, hash, v⟩)).mapError .storage
    pure v

def embed (app : AppState F) (text : String) : HandlerM F (List F) := (cachedEmbed app text).mapError .embedding

def freshMemoryId (owner : String) : HandlerM F String := do
  let u : String ← Prog.call (Cmd.ulid owner)
  pure ("mem_" ++ u)

section
variable [Elementary F]

/-! ## Rows on the wire -/

def computeCurrentRetention (row : MemoryRow F) (now : Int) (cfg : LifecycleConfig F) : F :=
  computeRetention (candidateToState (SearchCandidate.ofRow row) cfg) now cfg

def MemoryRow.data (row : MemoryRow F) (currentRetention : F) : MemoryData F where
  id := row.id
  userId := row.userId
  content := row.content
  category := row.category
  memoryType := row.memoryType
  createdAt := row.createdAt
  lastAccessedAt := row.lastAccessedAt
  validFrom := row.validFrom
  validUntil := row.validUntil
  retentionFloor := row.retentionFloor
  retrievalCount := row.retrievalCount
  importance := row.importance
  stability := row.stability
  isCold := row.isCold
  coldSince := row.coldSince
  isSuperseded := row.isSuperseded
  supersededBy := row.supersededBy
  isStub := row.isStub
  stubContent := row.stubContent
  metadata := row.metadata
  currentRetention := currentRetention
  daysAtFloor := row.daysAtFloor

def memoryRowToData (app : AppState F) (row : MemoryRow F) : HandlerM F (MemoryData F) := do
  let now ← unixNow
  pure (row.data (computeCurrentRetention row now app.lifecycle))

def memoryRowsToData (app : AppState F) : List (MemoryRow F) → HandlerM F (List (MemoryData F))
  | [] => pure []
  | row :: rows => do
    let d ← memoryRowToData app row
    let ds ← memoryRowsToData app rows
    pure (d :: ds)

def linkedToData (app : AppState F) : List (LinkedMemory F) → HandlerM F (List (MemoryData F × F))
  | [] => pure []
  | lm :: lms => do
    let d ← memoryRowToData app lm.memory
    let ds ← linkedToData app lms
    pure ((d, lm.linkStrength) :: ds)

def SearchResult.hit {F : Type} (r : SearchResult F) : SearchHit F :=
  ⟨r.memoryId, r.content, r.category, r.memoryType, r.score⟩

/-! ## Memory bucket -/

def coreRetentionFloor : F := 6 / 10

def ingestOptions (app : AppState F) (now : Int) : SearchOptions F where
  limit := 5
  deepRecall := false
  provider := app.embeddings.name
  model := app.embeddings.model
  now := now
  hybrid := false
  queryText := none
  graphExpansionHops := 0
  minBridgeEdgeWeight := 3 / 10
  bridgeDiscovery := false
  maxBridgePaths := 3

def queueConflictsFor (app : AppState F) (userId newId : String) (newVec : List F) (now : Int) : HandlerM F Unit := do
  let hits ← (search app.lifecycle userId newVec (ingestOptions app now)).mapError .search
  sqlx (write (.queueConflicts userId newId (hits.map fun h => (h.memoryId, h.score)) now))

/-- The fields the creators of embedded memories set over `new_minimal`. -/
def embeddedRow (app : AppState F) (id userId content category memoryType : String) (vector : List F) (now : Int) :
    MemoryRow F :=
  { (MemoryRow.newMinimal id userId content category memoryType now : MemoryRow F) with
    embedding := some vector
    embeddingProvider := some app.embeddings.name
    embeddingModel := some app.embeddings.model
    retentionFloor := if category = "core" then coreRetentionFloor else 0 }

def storedRow (app : AppState F) (args : StoreMemoryArgs F) (id : String) (vector : List F) (now : Int) :
    MemoryRow F :=
  let row := { embeddedRow app id args.userId args.content args.category args.memoryType vector now with
    metadata := args.metadata }
  match args.importance with
  | none => row
  | some imp =>
    let imp := min (max imp 0) 1
    { row with importance := imp, stability := stabilityFromImportance imp }

def handleMemoryStore (app : AppState F) (args : StoreMemoryArgs F) (user : String) : HandlerM F (ResponseData F) := do
  requireUserMatch args.userId user
  let vector ← embed app args.content
  let id ← freshMemoryId args.userId
  let now ← unixNow
  let _ ← sqlx (write (.insertMemory (storedRow app args id vector now)))
  queueConflictsFor app args.userId id vector now
  pure (.memoryStored id)

def storeEntries (app : AppState F) (userId : String) (now : Int) : List BatchMemoryEntry → HandlerM F (List String)
  | [] => pure []
  | entry :: entries => do
    let vector ← embed app entry.content
    let id ← freshMemoryId userId
    let _ ← sqlx (write (.insertMemory
      { embeddedRow app id userId entry.content entry.category entry.memoryType vector now with
        metadata := entry.metadata }))
    let ids ← storeEntries app userId now entries
    pure (id :: ids)

def linkAll (weight : F) (now : Int) : List (String × String) → HandlerM F ℕ
  | [] => pure 0
  | (a, b) :: pairs => do
    let _ ← sqlx (linkBidirectional a b weight now "cooccurrence")
    let n ← linkAll weight now pairs
    pure (n + 2)

def handleMemoryStoreBatch (app : AppState F) (args : StoreBatchArgs F) (user : String) :
    HandlerM F (ResponseData F) := do
  requireUserMatch args.userId user
  if args.memories.isEmpty then pure (.memoryStoredBatch [] 0) else do
    let now ← unixNow
    let ids ← storeEntries app args.userId now args.memories
    let n ← linkAll args.initialLinkWeight now (orderedPairs ids)
    pure (.memoryStoredBatch ids n)

def boostedStability (cfg : LifecycleConfig F) (source : ResultSource) (now : Int) (row : MemoryRow F) : F :=
  let bump := match source with
    | .graphExpanded => cfg.associativeBoost
    | .direct => cfg.directBoost
  min (row.stability + bump * spacedRepFactor cfg row.lastAccessedAt now) 1

def sourceOf (retrieved : List (String × ResultSource)) (id : String) : ResultSource :=
  (retrieved.lookup id).getD .direct

def promotes (cfg : LifecycleConfig F) (newStability : F) (row : MemoryRow F) : Bool :=
  let sessions := if row.sessionIds.contains "__pending__" then row.sessionIds else row.sessionIds ++ ["__pending__"]
  row.category != "core" && decide (castI64 cfg.coreAccessThreshold ≤ row.retrievalCount + 1) &&
    decide (cfg.coreStabilityThreshold ≤ newStability) && decide (cfg.coreSessionThreshold ≤ sessions.length)

def applyPostRetrievalStrengthening (app : AppState F) (userId : String) (retrieved : List (String × ResultSource))
    (now : Int) : HandlerM F Unit := do
  let rows ← sqlx (getManyForUser userId (retrieved.map Prod.fst))
  let live := rows.filter fun r => !r.isStub
  let stability (r : MemoryRow F) : F := boostedStability app.lifecycle (sourceOf retrieved r.id) now r
  let boosts := live.map fun r => (r.id, stability r)
  let promotions := (live.filter fun r => promotes app.lifecycle (stability r) r).map MemoryRow.id
  let u : String ← Prog.call (Cmd.ulid userId)
  let _ ← sqlx (applyDirectBoost userId boosts now ("s_" ++ u))
  let _ ← sqlx (promoteToCore userId promotions)
  pure ()

def restoreCold (userId : String) (ids : List String) : HandlerM F Unit := do
  let rows ← sqlx (getManyForUser userId ids)
  let _ ← sqlx (migrateToHotMany userId ((rows.filter (·.isCold)).map MemoryRow.id))
  pure ()

def searchOptions (app : AppState F) (args : SearchMemoryArgs) (now : Int) : SearchOptions F where
  limit := args.limit
  deepRecall := args.deepRecall
  provider := app.embeddings.name
  model := app.embeddings.model
  now := now
  hybrid := args.hybrid
  queryText := some args.query
  graphExpansionHops := args.graphExpansionHops
  minBridgeEdgeWeight := 3 / 10
  bridgeDiscovery := args.bridgeDiscovery
  maxBridgePaths := 3

def strengthenResults (app : AppState F) (userId : String) (results : List (SearchResult F)) (now : Int) :
    HandlerM F Unit := do
  applyPostRetrievalStrengthening app userId (results.map fun r => (r.memoryId, r.source)) now
  let _ ← sqlx (strengthenPairs (orderedPairs ((results.map SearchResult.memoryId).take 10)) (1 / 10) now "co-retrieval")
  pure ()

def whenever (b : Bool) (p : HandlerM F Unit) : HandlerM F Unit := if b then p else pure ()

def handleMemorySearch (app : AppState F) (args : SearchMemoryArgs) (user : String) : HandlerM F (ResponseData F) := do
  requireUserMatch args.userId user
  let queryVec ← embed app args.query
  let now ← unixNow
  let o := searchOptions app args now
  let results ← (search app.lifecycle args.userId queryVec o).mapError .search
  let anchors := results.map SearchResult.memoryId
  let bridges ← (findBridges anchors o).mapError .search
  whenever (args.deepRecall && !anchors.isEmpty) (restoreCold args.userId anchors)
  whenever (!anchors.isEmpty) (strengthenResults app args.userId results now)
  pure (.memorySearchResults (results.map SearchResult.hit) bridges)

def handleMemoryGet (app : AppState F) (userId id user : String) : HandlerM F (ResponseData F) := do
  requireUserMatch userId user
  let row? : Option (MemoryRow F) ← sqlx (query (.getForUser userId id))
  match row? with
  | none => .fail .notFound
  | some row => do
    if row.isCold then do
      let _ ← sqlx (migrateToHotMany userId [row.id])
      let d ← memoryRowToData app (restoreRow row)
      pure (.memory d)
    else do
      let d ← memoryRowToData app row
      pure (.memory d)

def handleMemoryGetMany (app : AppState F) (userId : String) (ids : List String) (user : String) :
    HandlerM F (ResponseData F) := do
  requireUserMatch userId user
  let rows ← sqlx (getManyForUser userId ids)
  let _ ← sqlx (migrateToHotMany userId ((rows.filter (·.isCold)).map MemoryRow.id))
  let ds ← memoryRowsToData app (rows.map fun r => if r.isCold then restoreRow r else r)
  pure (.memories ds)

def handleMemoryList (app : AppState F) (userId : String) (filters : MemoryFilters F) (user : String) :
    HandlerM F (ResponseData F) := do
  requireUserMatch userId user
  let rows : List (MemoryRow F) ← sqlx (query (.queryMemories userId filters))
  let ds ← memoryRowsToData app rows
  pure (.memories ds)

def affecting (userId user : String) (p : Repo F ℕ) : HandlerM F (ResponseData F) := do
  requireUserMatch userId user
  let n ← sqlx p
  pure (.affected n)

def affectingOne (userId user : String) (p : Repo F ℕ) : HandlerM F (ResponseData F) := do
  requireUserMatch userId user
  let n ← sqlx p
  pure (.affected (if 0 < n then 1 else 0))

def updateOne (userId id : String) (upd : MemoryUpdate F) (user : String) : HandlerM F (ResponseData F) := do
  requireUserMatch userId user
  let updated ← sqlx (update userId id upd)
  pure (.affected (if updated then 1 else 0))

def handleMemoryUpdate (args : UpdateMemoryArgs F) (user : String) : HandlerM F (ResponseData F) :=
  updateOne args.userId args.id args.toMemoryUpdate user

def handleMemoryDelete (userId id user : String) : HandlerM F (ResponseData F) :=
  affectingOne userId user (write (.deleteMemory userId id))

def handleMemoryDeleteMany (userId : String) (ids : List String) (user : String) : HandlerM F (ResponseData F) :=
  affecting userId user (deleteMany userId ids)

def linkStrength (args : LinkMemoryArgs F) (now : Int) : Repo F F :=
  if args.bidirectional then linkBidirectional args.sourceId args.targetId args.strength now args.kind
  else createOrStrengthen args.sourceId args.targetId args.strength now args.kind

def handleMemoryLink (args : LinkMemoryArgs F) (user : String) : HandlerM F (ResponseData F) := do
  requireUserMatch args.userId user
  let now ← unixNow
  let strength ← sqlx (linkStrength args now)
  pure (.linkStrength strength)

def handleMemoryUnlink (args : UnlinkMemoryArgs) (user : String) : HandlerM F (ResponseData F) :=
  if args.bidirectional then
    affecting args.userId user (write (.deleteEdgeBidirectional args.sourceId args.targetId))
  else affectingOne args.userId user (write (.deleteEdge args.sourceId args.targetId))

def handleMemoryGetLinked (app : AppState F) (userId sourceId : String) (minStrength : F) (user : String) :
    HandlerM F (ResponseData F) := do
  requireUserMatch userId user
  let linked ← sqlx (linkedFor userId sourceId minStrength)
  let ds ← linkedToData app linked
  pure (.linkedMemories ds)

def handleMemoryGetLinkedMany (app : AppState F) (userId : String) (sourceIds : List String) (minStrength : F)
    (user : String) : HandlerM F (ResponseData F) := do
  requireUserMatch userId user
  let linked ← sqlx (linkedForMany userId sourceIds minStrength)
  let ds ← linkedToData app linked
  pure (.linkedMemories ds)

def handleVectorSearch (app : AppState F) (args : VectorSearchArgs F) (user : String) :
    HandlerM F (ResponseData F) := do
  requireUserMatch args.userId user
  let now ← unixNow
  let results ← (search app.lifecycle args.userId args.embedding
    { ingestOptions app now with
      limit := args.limit
      deepRecall := args.deepRecall
      provider := args.embeddingProvider
      model := args.embeddingModel }).mapError .search
  pure (.memorySearchResults (results.map SearchResult.hit) [])

def handleSearchLexical (userId text : String) (limit : ℕ) (user : String) : HandlerM F (ResponseData F) := do
  requireUserMatch userId user
  let ids : List String ← sqlx (query (.bm25Search userId (safeQuery text) (Int.bmod limit (2 ^ 64))))
  pure (.lexicalIds ids)

def handleBatchUpdate (userId : String) (updates : List (String × F)) (user : String) : HandlerM F (ResponseData F) :=
  affecting userId user (updateRetentionScores userId updates)

def handleMemoryRequest (app : AppState F) (req : MemoryRequest F) (user : String) : HandlerM F (ResponseData F) :=
  match req with
  | .subscribe _ => .fail (.invalidPayload "Subscribe is connection-scoped and must be handled by the server")
  | .store args => handleMemoryStore app args user
  | .storeBatch args => handleMemoryStoreBatch app args user
  | .search args => handleMemorySearch app args user
  | .get userId id => handleMemoryGet app userId id user
  | .getMany userId ids => handleMemoryGetMany app userId ids user
  | .list userId filters => handleMemoryList app userId filters user
  | .update args => handleMemoryUpdate args user
  | .delete userId id => handleMemoryDelete userId id user
  | .deleteMany userId ids => handleMemoryDeleteMany userId ids user
  | .link args => handleMemoryLink args user
  | .unlink args => handleMemoryUnlink args user
  | .getLinked userId sourceId minStrength => handleMemoryGetLinked app userId sourceId minStrength user
  | .getLinkedMany userId sourceIds minStrength => handleMemoryGetLinkedMany app userId sourceIds minStrength user
  | .vectorSearch args => handleVectorSearch app args user
  | .searchLexical userId text limit => handleSearchLexical userId text limit user
  | .batchUpdate userId updates => handleBatchUpdate userId updates user

/-! ## Lifecycle bucket, `Tick` aside -/

/-- Most faded first; a negative limit wraps to a huge `usize`. -/
def handleFindFading (app : AppState F) (userId : String) (maxRetention : F) (limit : Int) (user : String) :
    HandlerM F (ResponseData F) := do
  requireUserMatch userId user
  let rows : List (MemoryRow F) ← sqlx (query (.findFadingCandidates userId))
  let now ← unixNow
  let scored := (rows.map fun r => (r, computeCurrentRetention r now app.lifecycle)).filter
    fun p => decide (p.2 ≤ maxRetention)
  let ds ← memoryRowsToData app ((sqlLimit limit (sortAsc Prod.snd scored)).map Prod.fst)
  pure (.memories ds)

def handleFindStable (app : AppState F) (userId : String) (minStability : F) (minAccessCount limit : Int)
    (user : String) : HandlerM F (ResponseData F) := do
  requireUserMatch userId user
  let rows : List (MemoryRow F) ← sqlx (query (.findStable userId minStability minAccessCount limit))
  let ds ← memoryRowsToData app rows
  pure (.memories ds)

def handleMarkSuperseded (userId : String) (ids : List String) (summaryId user : String) :
    HandlerM F (ResponseData F) :=
  affecting userId user (markSuperseded userId ids summaryId)

def handleMigrateToCold (userId id : String) (coldSince : Int) (user : String) : HandlerM F (ResponseData F) :=
  affectingOne userId user (write (.migrateToCold userId id coldSince))

def handleMigrateToHot (userId id user : String) : HandlerM F (ResponseData F) :=
  affectingOne userId user (write (.migrateToHot userId id))

def handleConvertToStub (userId id stubContent user : String) : HandlerM F (ResponseData F) :=
  affectingOne userId user (write (.convertToStub userId id stubContent))

def handleUpdateRetention (userId id : String) (retentionFloor : F) (user : String) : HandlerM F (ResponseData F) :=
  updateOne userId id { retentionFloor := some retentionFloor } user

def handleClear (userId : String) (confirm : Bool) (user : String) : HandlerM F (ResponseData F) := do
  requireUserMatch userId user
  if !confirm then .fail (.invalidPayload "Lifecycle::Clear requires confirm=true — destructive") else do
    let n ← sqlx (write (.clearUser userId))
    pure (.affected n)

/-! ## Diagnostics bucket -/

def bridgeTokenHash (app : AppState F) (raw : String) : List UInt8 :=
  app.sha256 ("cm-daemon-bridge-token-salt" ++ raw)

/-- `now + ttl_seconds as i64`, wrapping as a release build does. -/
def handleMintBridgeToken (app : AppState F) (userId : String) (scope : BridgeScope) (ttlSeconds : ℕ) :
    HandlerM F (ResponseData F) := do
  let u : String ← Prog.call Cmd.uuid
  let v : String ← Prog.call Cmd.uuid
  let raw := "cmb_" ++ u ++ v
  let now ← unixNow
  let expires := Int.bmod (now + Int.bmod ttlSeconds (2 ^ 64)) (2 ^ 64)
  let _ ← sqlx (write (.insertBridgeToken ⟨bridgeTokenHash app raw, userId, scope, expires⟩))
  pure (.bridgeToken raw expires)

def bridgeScopeAllows : BridgeScope → BridgeScope → Bool
  | .admin, _ => true
  | .write, .write | .write, .read => true
  | .read, .read => true
  | _, _ => false

def handleValidateBridgeToken (app : AppState F) (token : String) (requiredScope : BridgeScope) :
    HandlerM F (ResponseData F) := do
  let row? : Option BridgeTokenRow ← sqlx (query (.bridgeToken (bridgeTokenHash app token)))
  match row? with
  | none => .fail (.invalidPayload "invalid bridge token")
  | some row => do
    let now ← unixNow
    if row.expiresAtUnix ≤ now then .fail (.invalidPayload "bridge token expired")
    else if !bridgeScopeAllows row.scope requiredScope then .fail (.invalidPayload "bridge token scope insufficient")
    else pure (.bridgeTokenValidated row.userId row.scope row.expiresAtUnix)

def handleCounts (userId user : String) : HandlerM F (ResponseData F) := do
  requireUserMatch userId user
  let counts : MemoryCounts ← sqlx (query (.countsForUser userId))
  pure (.counts counts)

def handleStatus : HandlerM F (ResponseData F) := do
  let n : ℕ ← sqlx (query .countMemories)
  pure (.status n)

/-- `run_doctor` after its looks at the socket and at three files. -/
def handleDoctor : HandlerM F (ResponseData F) := do
  let migrations : Except SqlError ℕ ← Prog.call (Cmd.query .countMigrations)
  let memories : Except SqlError ℕ ← Prog.call (Cmd.query .countMemories)
  pure (.doctor migrations memories)

def handleDiagnosticsRequest (app : AppState F) (req : DiagnosticsRequest) (user : String) :
    HandlerM F (ResponseData F) :=
  match req with
  | .status => handleStatus
  | .doctor => handleDoctor
  | .recentTraces _ => pure .recentTraces
  | .shutdown => pure .shutdown
  | .mintBridgeToken userId scope ttlSeconds => handleMintBridgeToken app userId scope ttlSeconds
  | .validateBridgeToken token requiredScope => handleValidateBridgeToken app token requiredScope
  | .counts userId => handleCounts userId user

end
end CognitiveMemory
