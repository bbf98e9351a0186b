import CognitiveMemory.Store.Rows

/-! Requests and response data of the wire protocol, by bucket. Process data the handlers only
copy out (versions, paths, traces, uptime) is left out of the responses. -/

namespace CognitiveMemory

structure StoreMemoryArgs (F : Type) where
  userId : String
  content : String
  category : String
  memoryType : String
  metadata : String
  importance : Option F

structure BatchMemoryEntry where
  content : String
  category : String
  memoryType : String
  metadata : String

structure StoreBatchArgs (F : Type) where
  userId : String
  memories : List BatchMemoryEntry
  initialLinkWeight : F

structure SearchMemoryArgs where
  userId : String
  query : String
  limit : ℕ
  deepRecall : Bool
  hybrid : Bool
  graphExpansionHops : ℕ
  bridgeDiscovery : Bool

structure UpdateMemoryArgs (F : Type) extends MemoryUpdate F where
  userId : String
  id : String

structure LinkMemoryArgs (F : Type) where
  userId : String
  sourceId : String
  targetId : String
  strength : F
  bidirectional : Bool
  kind : String

structure UnlinkMemoryArgs where
  userId : String
  sourceId : String
  targetId : String
  bidirectional : Bool

structure VectorSearchArgs (F : Type) where
  userId : String
  embedding : List F
  embeddingProvider : String
  embeddingModel : String
  limit : ℕ
  deepRecall : Bool

inductive MemoryRequest (F : Type)
  | subscribe (replaySnapshot : Bool)
  | store (args : StoreMemoryArgs F)
  | storeBatch (args : StoreBatchArgs F)
  | search (args : SearchMemoryArgs)
  | get (userId id : String)
  | getMany (userId : String) (ids : List String)
  | list (userId : String) (filters : MemoryFilters F)
  | update (args : UpdateMemoryArgs F)
  | delete (userId id : String)
  | deleteMany (userId : String) (ids : List String)
  | link (args : LinkMemoryArgs F)
  | unlink (args : UnlinkMemoryArgs)
  | getLinked (userId sourceId : String) (minStrength : F)
  | getLinkedMany (userId : String) (sourceIds : List String) (minStrength : F)
  | vectorSearch (args : VectorSearchArgs F)
  | searchLexical (userId query : String) (limit : ℕ)
  | batchUpdate (userId : String) (updates : List (String × F))

inductive LifecycleRequest (F : Type)
  | tick (synchronous : Bool)
  | findFading (userId : String) (maxRetention : F) (limit : Int)
  | findStable (userId : String) (minStability : F) (minAccessCount limit : Int)
  | markSuperseded (userId : String) (ids : List String) (summaryId : String)
  | migrateToCold (userId id : String) (coldSince : Int)
  | migrateToHot (userId id : String)
  | convertToStub (userId id stubContent : String)
  | updateRetention (userId id : String) (retentionFloor : F)
  | clear (userId : String) (confirm : Bool)

inductive DiagnosticsRequest
  | status
  | doctor
  | recentTraces (limit : ℕ)
  | shutdown
  | mintBridgeToken (userId : String) (scope : BridgeScope) (ttlSeconds : ℕ)
  | validateBridgeToken (token : String) (requiredScope : BridgeScope)
  | counts (userId : String)

inductive Request (F : Type)
  | diagnostics (req : DiagnosticsRequest)
  | memory (req : MemoryRequest F)
  | lifecycle (req : LifecycleRequest F)
  | unknownBucket

structure MemoryData (F : Type) where
  id : String
  userId : String
  content : String
  category : String
  memoryType : String
  createdAt : Int
  lastAccessedAt : Int
  validFrom : Option Int
  validUntil : Option Int
  retentionFloor : F
  retrievalCount : Int
  importance : F
  stability : F
  isCold : Bool
  coldSince : Option Int
  isSuperseded : Bool
  supersededBy : Option String
  isStub : Bool
  stubContent : Option String
  metadata : String
  currentRetention : F
  daysAtFloor : Int
  deriving DecidableEq

structure SearchHit (F : Type) where
  memoryId : String
  content : String
  category : String
  memoryType : String
  score : F
  deriving DecidableEq

inductive ResponseData (F : Type)
  | status (memoryCount : ℕ)
  /-- The two counts of the report; a failing one is reported. -/
  | doctor (migrations memories : Except SqlError ℕ)
  | recentTraces
  | shutdown
  | bridgeTokenValidated (userId : String) (scope : BridgeScope) (expiresAtUnix : Int)
  | memoryStored (id : String)
  | memoryStoredBatch (ids : List String) (associationsCreated : ℕ)
  | memorySearchResults (results : List (SearchHit F)) (bridgePaths : List (List String))
  | bridgeToken (token : String) (expiresAtUnix : Int)
  | counts (counts : MemoryCounts)
  | memory (data : MemoryData F)
  | memories (data : List (MemoryData F))
  | affected (count : ℕ)
  | linkedMemories (data : List (MemoryData F × F))
  | linkStrength (strength : F)
  | lexicalIds (ids : List String)
  | tick (memoriesDecayed : ℕ)
  deriving DecidableEq

end CognitiveMemory
