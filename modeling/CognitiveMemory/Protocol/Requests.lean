import CognitiveMemory.Lib.Json
import CognitiveMemory.Store.Rows
import Mathlib.Data.Fin.VecNotation
import Mathlib.Data.Fintype.Basic

/-! The requests of the wire, with the codecs serde derives for them. Numbers are read as exact
decimals, `usize` has 64 bits, and a struct is read from an object only. -/

namespace CognitiveMemory.Wire
open Json Codec Field

def oneTenth : Decimal := ⟨1, 1, .inl rfl⟩
def half : Decimal := ⟨5, 1, .inl rfl⟩

def bridgeScope : Codec BridgeScope :=
  enumeration
    (fun
      | .read => "read"
      | .write => "write"
      | .admin => "admin")
    (fun
      | "read" => some .read
      | "write" => some .write
      | "admin" => some .admin
      | _ => none)
    (by rintro (_ | _ | _) <;> rfl)

/-! ## Lifecycle -/

structure TickArgs where
  synchronous : Bool

def tickArgs : Object TickArgs :=
  .record (Fields.build TickArgs.mk
    |>.field "synchronous" (defaulted boolean false) (·.synchronous)) (fun _ => rfl) (by decide)

structure FindFadingArgs where
  userId : String
  maxRetention : Decimal
  limit : Int64

def findFadingArgs : Object FindFadingArgs :=
  .record (Fields.build FindFadingArgs.mk
    |>.field "user_id" (required string) (·.userId)
    |>.field "max_retention" (required decimal) (·.maxRetention)
    |>.field "limit" (defaulted i64 100) (·.limit)) (fun _ => rfl) (by decide)

structure FindStableArgs where
  userId : String
  minStability : Decimal
  minAccessCount : Int64
  limit : Int64

def findStableArgs : Object FindStableArgs :=
  .record (Fields.build FindStableArgs.mk
    |>.field "user_id" (required string) (·.userId)
    |>.field "min_stability" (required decimal) (·.minStability)
    |>.field "min_access_count" (required i64) (·.minAccessCount)
    |>.field "limit" (defaulted i64 100) (·.limit)) (fun _ => rfl) (by decide)

structure MarkSupersededArgs where
  userId : String
  ids : List String
  summaryId : String

def markSupersededArgs : Object MarkSupersededArgs :=
  .record (Fields.build MarkSupersededArgs.mk
    |>.field "user_id" (required string) (·.userId)
    |>.field "ids" (required string.list) (·.ids)
    |>.field "summary_id" (required string) (·.summaryId)) (fun _ => rfl) (by decide)

structure MigrateToColdArgs where
  userId : String
  id : String
  coldSince : Int64

def migrateToColdArgs : Object MigrateToColdArgs :=
  .record (Fields.build MigrateToColdArgs.mk
    |>.field "user_id" (required string) (·.userId)
    |>.field "id" (required string) (·.id)
    |>.field "cold_since" (required i64) (·.coldSince)) (fun _ => rfl) (by decide)

structure MemoryArgs where
  userId : String
  id : String

def memoryArgs : Object MemoryArgs :=
  .record (Fields.build MemoryArgs.mk
    |>.field "user_id" (required string) (·.userId)
    |>.field "id" (required string) (·.id)) (fun _ => rfl) (by decide)

abbrev MigrateToHotArgs := MemoryArgs
def migrateToHotArgs : Object MigrateToHotArgs := memoryArgs

structure ConvertToStubArgs where
  userId : String
  id : String
  stubContent : String

def convertToStubArgs : Object ConvertToStubArgs :=
  .record (Fields.build ConvertToStubArgs.mk
    |>.field "user_id" (required string) (·.userId)
    |>.field "id" (required string) (·.id)
    |>.field "stub_content" (required string) (·.stubContent)) (fun _ => rfl) (by decide)

structure UpdateRetentionArgs where
  userId : String
  id : String
  retentionFloor : Decimal

def updateRetentionArgs : Object UpdateRetentionArgs :=
  .record (Fields.build UpdateRetentionArgs.mk
    |>.field "user_id" (required string) (·.userId)
    |>.field "id" (required string) (·.id)
    |>.field "retention_floor" (required decimal) (·.retentionFloor)) (fun _ => rfl) (by decide)

structure ClearArgs where
  userId : String
  confirm : Bool

def clearArgs : Object ClearArgs :=
  .record (Fields.build ClearArgs.mk
    |>.field "user_id" (required string) (·.userId)
    |>.field "confirm" (required boolean) (·.confirm)) (fun _ => rfl) (by decide)

inductive LifecycleRequest
  | tick (args : TickArgs)
  | findFading (args : FindFadingArgs)
  | findStable (args : FindStableArgs)
  | markSuperseded (args : MarkSupersededArgs)
  | migrateToCold (args : MigrateToColdArgs)
  | migrateToHot (args : MigrateToHotArgs)
  | convertToStub (args : ConvertToStubArgs)
  | updateRetention (args : UpdateRetentionArgs)
  | clear (args : ClearArgs)

def lifecycleVariants : Fin 9 → Variant LifecycleRequest :=
  ![⟨"Tick", tickArgs, .tick⟩, ⟨"FindFading", findFadingArgs, .findFading⟩, ⟨"FindStable", findStableArgs, .findStable⟩,
    ⟨"MarkSuperseded", markSupersededArgs, .markSuperseded⟩, ⟨"MigrateToCold", migrateToColdArgs, .migrateToCold⟩,
    ⟨"MigrateToHot", migrateToHotArgs, .migrateToHot⟩, ⟨"ConvertToStub", convertToStubArgs, .convertToStub⟩,
    ⟨"UpdateRetention", updateRetentionArgs, .updateRetention⟩, ⟨"Clear", clearArgs, .clear⟩]

def lifecycleRequest : Object LifecycleRequest :=
  .tagged "op" lifecycleVariants none
    (fun
      | .tick args => ⟨0, args⟩
      | .findFading args => ⟨1, args⟩
      | .findStable args => ⟨2, args⟩
      | .markSuperseded args => ⟨3, args⟩
      | .migrateToCold args => ⟨4, args⟩
      | .migrateToHot args => ⟨5, args⟩
      | .convertToStub args => ⟨6, args⟩
      | .updateRetention args => ⟨7, args⟩
      | .clear args => ⟨8, args⟩)
    (by rintro (_ | _ | _ | _ | _ | _ | _ | _ | _) <;> rfl) (by decide +kernel) (by decide +kernel)

/-! ## Diagnostics -/

structure RecentTracesArgs where
  limit : UInt64

def recentTracesArgs : Object RecentTracesArgs :=
  .record (Fields.build RecentTracesArgs.mk
    |>.field "limit" (defaulted u64 20) (·.limit)) (fun _ => rfl) (by decide)

structure CountsArgs where
  userId : String

def countsArgs : Object CountsArgs :=
  .record (Fields.build CountsArgs.mk
    |>.field "user_id" (required string) (·.userId)) (fun _ => rfl) (by decide)

structure MintBridgeTokenArgs where
  userId : String
  scope : BridgeScope
  ttlSeconds : UInt64

def mintBridgeTokenArgs : Object MintBridgeTokenArgs :=
  .record (Fields.build MintBridgeTokenArgs.mk
    |>.field "user_id" (required string) (·.userId)
    |>.field "scope" (required bridgeScope) (·.scope)
    |>.field "ttl_seconds" (defaulted u64 2592000) (·.ttlSeconds)) (fun _ => rfl) (by decide)

structure ValidateBridgeTokenArgs where
  token : String
  requiredScope : BridgeScope

def validateBridgeTokenArgs : Object ValidateBridgeTokenArgs :=
  .record (Fields.build ValidateBridgeTokenArgs.mk
    |>.field "token" (required string) (·.token)
    |>.field "required_scope" (required bridgeScope) (·.requiredScope)) (fun _ => rfl) (by decide)

inductive DiagnosticsRequest
  | status
  | doctor
  | recentTraces (args : RecentTracesArgs)
  | shutdown
  | mintBridgeToken (args : MintBridgeTokenArgs)
  | validateBridgeToken (args : ValidateBridgeTokenArgs)
  | counts (args : CountsArgs)

def diagnosticsVariants : Fin 7 → Variant DiagnosticsRequest :=
  ![⟨"Status", .unit, fun _ => .status⟩, ⟨"Doctor", .unit, fun _ => .doctor⟩,
    ⟨"RecentTraces", recentTracesArgs, .recentTraces⟩, ⟨"Shutdown", .unit, fun _ => .shutdown⟩,
    ⟨"MintBridgeToken", mintBridgeTokenArgs, .mintBridgeToken⟩,
    ⟨"ValidateBridgeToken", validateBridgeTokenArgs, .validateBridgeToken⟩, ⟨"Counts", countsArgs, .counts⟩]

def diagnosticsRequest : Object DiagnosticsRequest :=
  .tagged "op" diagnosticsVariants none
    (fun
      | .status => ⟨0, ()⟩
      | .doctor => ⟨1, ()⟩
      | .recentTraces args => ⟨2, args⟩
      | .shutdown => ⟨3, ()⟩
      | .mintBridgeToken args => ⟨4, args⟩
      | .validateBridgeToken args => ⟨5, args⟩
      | .counts args => ⟨6, args⟩)
    (by rintro (_ | _ | _ | _ | _ | _ | _) <;> rfl) (by decide +kernel) (by decide +kernel)

/-! ## Memory -/

structure SubscribeArgs where
  replaySnapshot : Bool

def subscribeArgs : Object SubscribeArgs :=
  .record (Fields.build SubscribeArgs.mk
    |>.field "replay_snapshot" (defaulted boolean true) (·.replaySnapshot)) (fun _ => rfl) (by decide)

structure BatchMemoryEntry where
  content : String
  category : String
  memoryType : String
  metadata : String

def batchMemoryEntry : Object BatchMemoryEntry :=
  .record (Fields.build BatchMemoryEntry.mk
    |>.field "content" (required string) (·.content)
    |>.field "category" (defaulted string "semantic") (·.category)
    |>.field "memory_type" (defaulted string "fact") (·.memoryType)
    |>.field "metadata" (defaulted string "{}") (·.metadata)) (fun _ => rfl) (by decide)

structure StoreBatchArgs where
  userId : String
  memories : List BatchMemoryEntry
  initialLinkWeight : Decimal

def storeBatchArgs : Object StoreBatchArgs :=
  .record (Fields.build StoreBatchArgs.mk
    |>.field "user_id" (required string) (·.userId)
    |>.field "memories" (required batchMemoryEntry.codec.list) (·.memories)
    |>.field "initial_link_weight" (defaulted decimal half) (·.initialLinkWeight)) (fun _ => rfl) (by decide)

abbrev GetMemoryArgs := MemoryArgs
def getMemoryArgs : Object GetMemoryArgs := memoryArgs

structure ManyMemoryArgs where
  userId : String
  ids : List String

def manyMemoryArgs : Object ManyMemoryArgs :=
  .record (Fields.build ManyMemoryArgs.mk
    |>.field "user_id" (required string) (·.userId)
    |>.field "ids" (required string.list) (·.ids)) (fun _ => rfl) (by decide)

abbrev GetManyMemoryArgs := ManyMemoryArgs
def getManyMemoryArgs : Object GetManyMemoryArgs := manyMemoryArgs

structure ListMemoryArgs where
  userId : String
  categories : Option (List String)
  memoryTypes : Option (List String)
  minRetentionFloor : Option Decimal
  minImportance : Option Decimal
  createdAfter : Option Int64
  createdBefore : Option Int64
  limit : Option Int64
  offset : Option Int64
  includeSuperseded : Bool
  includeCold : Bool
  includeStubs : Bool

def listMemoryArgs : Object ListMemoryArgs :=
  .record (Fields.build ListMemoryArgs.mk
    |>.field "user_id" (required string) (·.userId)
    |>.field "categories" (nullable string.list) (·.categories)
    |>.field "memory_types" (nullable string.list) (·.memoryTypes)
    |>.field "min_retention_floor" (nullable decimal) (·.minRetentionFloor)
    |>.field "min_importance" (nullable decimal) (·.minImportance)
    |>.field "created_after" (nullable i64) (·.createdAfter)
    |>.field "created_before" (nullable i64) (·.createdBefore)
    |>.field "limit" (nullable i64) (·.limit)
    |>.field "offset" (nullable i64) (·.offset)
    |>.field "include_superseded" (defaulted boolean false) (·.includeSuperseded)
    |>.field "include_cold" (defaulted boolean false) (·.includeCold)
    |>.field "include_stubs" (defaulted boolean false) (·.includeStubs)) (fun _ => rfl) (by decide)

structure UpdateMemoryArgs where
  userId : String
  id : String
  content : Option String
  category : Option String
  memoryType : Option String
  metadata : Option String
  retentionFloor : Option Decimal
  importance : Option Decimal
  stability : Option Decimal
  validUntil : Option Int64

def updateMemoryArgs : Object UpdateMemoryArgs :=
  .record (Fields.build UpdateMemoryArgs.mk
    |>.field "user_id" (required string) (·.userId)
    |>.field "id" (required string) (·.id)
    |>.field "content" (nullable string) (·.content)
    |>.field "category" (nullable string) (·.category)
    |>.field "memory_type" (nullable string) (·.memoryType)
    |>.field "metadata" (nullable string) (·.metadata)
    |>.field "retention_floor" (nullable decimal) (·.retentionFloor)
    |>.field "importance" (nullable decimal) (·.importance)
    |>.field "stability" (nullable decimal) (·.stability)
    |>.field "valid_until" (nullable i64) (·.validUntil)) (fun _ => rfl) (by decide)

abbrev DeleteMemoryArgs := MemoryArgs
def deleteMemoryArgs : Object DeleteMemoryArgs := memoryArgs

abbrev DeleteManyMemoryArgs := ManyMemoryArgs
def deleteManyMemoryArgs : Object DeleteManyMemoryArgs := manyMemoryArgs

structure LinkMemoryArgs where
  userId : String
  sourceId : String
  targetId : String
  strength : Decimal
  bidirectional : Bool
  kind : String

def linkMemoryArgs : Object LinkMemoryArgs :=
  .record (Fields.build LinkMemoryArgs.mk
    |>.field "user_id" (required string) (·.userId)
    |>.field "source_id" (required string) (·.sourceId)
    |>.field "target_id" (required string) (·.targetId)
    |>.field "strength" (defaulted decimal oneTenth) (·.strength)
    |>.field "bidirectional" (defaulted boolean true) (·.bidirectional)
    |>.field "kind" (defaulted string "explicit") (·.kind)) (fun _ => rfl) (by decide)

structure UnlinkMemoryArgs where
  userId : String
  sourceId : String
  targetId : String
  bidirectional : Bool

def unlinkMemoryArgs : Object UnlinkMemoryArgs :=
  .record (Fields.build UnlinkMemoryArgs.mk
    |>.field "user_id" (required string) (·.userId)
    |>.field "source_id" (required string) (·.sourceId)
    |>.field "target_id" (required string) (·.targetId)
    |>.field "bidirectional" (defaulted boolean true) (·.bidirectional)) (fun _ => rfl) (by decide)

structure GetLinkedArgs where
  userId : String
  sourceId : String
  minStrength : Decimal

def getLinkedArgs : Object GetLinkedArgs :=
  .record (Fields.build GetLinkedArgs.mk
    |>.field "user_id" (required string) (·.userId)
    |>.field "source_id" (required string) (·.sourceId)
    |>.field "min_strength" (defaulted decimal (.ofInt 0)) (·.minStrength)) (fun _ => rfl) (by decide)

structure GetLinkedManyArgs where
  userId : String
  sourceIds : List String
  minStrength : Decimal

def getLinkedManyArgs : Object GetLinkedManyArgs :=
  .record (Fields.build GetLinkedManyArgs.mk
    |>.field "user_id" (required string) (·.userId)
    |>.field "source_ids" (required string.list) (·.sourceIds)
    |>.field "min_strength" (defaulted decimal (.ofInt 0)) (·.minStrength)) (fun _ => rfl) (by decide)

structure VectorSearchArgs where
  userId : String
  embedding : List Decimal
  embeddingProvider : String
  embeddingModel : String
  limit : UInt64
  deepRecall : Bool

def vectorSearchArgs : Object VectorSearchArgs :=
  .record (Fields.build VectorSearchArgs.mk
    |>.field "user_id" (required string) (·.userId)
    |>.field "embedding" (required decimal.list) (·.embedding)
    |>.field "embedding_provider" (required string) (·.embeddingProvider)
    |>.field "embedding_model" (required string) (·.embeddingModel)
    |>.field "limit" (defaulted u64 10) (·.limit)
    |>.field "deep_recall" (defaulted boolean false) (·.deepRecall)) (fun _ => rfl) (by decide)

structure SearchLexicalArgs where
  userId : String
  query : String
  limit : UInt64

def searchLexicalArgs : Object SearchLexicalArgs :=
  .record (Fields.build SearchLexicalArgs.mk
    |>.field "user_id" (required string) (·.userId)
    |>.field "query" (required string) (·.query)
    |>.field "limit" (defaulted u64 10) (·.limit)) (fun _ => rfl) (by decide)

structure RetentionUpdate where
  id : String
  retentionFloor : Decimal

def retentionUpdate : Object RetentionUpdate :=
  .record (Fields.build RetentionUpdate.mk
    |>.field "id" (required string) (·.id)
    |>.field "retention_floor" (required decimal) (·.retentionFloor)) (fun _ => rfl) (by decide)

structure BatchUpdateArgs where
  userId : String
  updates : List RetentionUpdate

def batchUpdateArgs : Object BatchUpdateArgs :=
  .record (Fields.build BatchUpdateArgs.mk
    |>.field "user_id" (required string) (·.userId)
    |>.field "updates" (required retentionUpdate.codec.list) (·.updates)) (fun _ => rfl) (by decide)

structure StoreMemoryArgs where
  userId : String
  content : String
  category : String
  memoryType : String
  metadata : String
  importance : Option Decimal

def storeMemoryArgs : Object StoreMemoryArgs :=
  .record (Fields.build StoreMemoryArgs.mk
    |>.field "user_id" (required string) (·.userId)
    |>.field "content" (required string) (·.content)
    |>.field "category" (required string) (·.category)
    |>.field "memory_type" (required string) (·.memoryType)
    |>.field "metadata" (defaulted string "{}") (·.metadata)
    |>.field "importance" (nullable decimal) (·.importance)) (fun _ => rfl) (by decide)

structure SearchMemoryArgs where
  userId : String
  query : String
  limit : UInt64
  deepRecall : Bool
  hybrid : Bool
  graphExpansionHops : UInt64
  bridgeDiscovery : Bool

def searchMemoryArgs : Object SearchMemoryArgs :=
  .record (Fields.build SearchMemoryArgs.mk
    |>.field "user_id" (required string) (·.userId)
    |>.field "query" (required string) (·.query)
    |>.field "limit" (defaulted u64 10) (·.limit)
    |>.field "deep_recall" (defaulted boolean false) (·.deepRecall)
    |>.field "hybrid" (defaulted boolean false) (·.hybrid)
    |>.field "graph_expansion_hops" (defaulted u64 0) (·.graphExpansionHops)
    |>.field "bridge_discovery" (defaulted boolean false) (·.bridgeDiscovery)) (fun _ => rfl) (by decide)

inductive MemoryRequest
  | subscribe (args : SubscribeArgs)
  | store (args : StoreMemoryArgs)
  | storeBatch (args : StoreBatchArgs)
  | search (args : SearchMemoryArgs)
  | get (args : GetMemoryArgs)
  | getMany (args : GetManyMemoryArgs)
  | list (args : ListMemoryArgs)
  | update (args : UpdateMemoryArgs)
  | delete (args : DeleteMemoryArgs)
  | deleteMany (args : DeleteManyMemoryArgs)
  | link (args : LinkMemoryArgs)
  | unlink (args : UnlinkMemoryArgs)
  | getLinked (args : GetLinkedArgs)
  | getLinkedMany (args : GetLinkedManyArgs)
  | vectorSearch (args : VectorSearchArgs)
  | searchLexical (args : SearchLexicalArgs)
  | batchUpdate (args : BatchUpdateArgs)

def memoryVariants : Fin 17 → Variant MemoryRequest :=
  ![⟨"Subscribe", subscribeArgs, .subscribe⟩, ⟨"Store", storeMemoryArgs, .store⟩,
    ⟨"StoreBatch", storeBatchArgs, .storeBatch⟩, ⟨"Search", searchMemoryArgs, .search⟩,
    ⟨"Get", getMemoryArgs, .get⟩, ⟨"GetMany", getManyMemoryArgs, .getMany⟩, ⟨"List", listMemoryArgs, .list⟩,
    ⟨"Update", updateMemoryArgs, .update⟩, ⟨"Delete", deleteMemoryArgs, .delete⟩,
    ⟨"DeleteMany", deleteManyMemoryArgs, .deleteMany⟩, ⟨"Link", linkMemoryArgs, .link⟩,
    ⟨"Unlink", unlinkMemoryArgs, .unlink⟩, ⟨"GetLinked", getLinkedArgs, .getLinked⟩,
    ⟨"GetLinkedMany", getLinkedManyArgs, .getLinkedMany⟩, ⟨"VectorSearch", vectorSearchArgs, .vectorSearch⟩,
    ⟨"SearchLexical", searchLexicalArgs, .searchLexical⟩, ⟨"BatchUpdate", batchUpdateArgs, .batchUpdate⟩]

def memoryRequest : Object MemoryRequest :=
  .tagged "op" memoryVariants none
    (fun
      | .subscribe args => ⟨0, args⟩
      | .store args => ⟨1, args⟩
      | .storeBatch args => ⟨2, args⟩
      | .search args => ⟨3, args⟩
      | .get args => ⟨4, args⟩
      | .getMany args => ⟨5, args⟩
      | .list args => ⟨6, args⟩
      | .update args => ⟨7, args⟩
      | .delete args => ⟨8, args⟩
      | .deleteMany args => ⟨9, args⟩
      | .link args => ⟨10, args⟩
      | .unlink args => ⟨11, args⟩
      | .getLinked args => ⟨12, args⟩
      | .getLinkedMany args => ⟨13, args⟩
      | .vectorSearch args => ⟨14, args⟩
      | .searchLexical args => ⟨15, args⟩
      | .batchUpdate args => ⟨16, args⟩)
    (by rintro (_ | _ | _ | _ | _ | _ | _ | _ | _ | _ | _ | _ | _ | _ | _ | _ | _) <;> rfl) (by decide +kernel)
      (by decide +kernel)

/-! ## Buckets -/

inductive Request
  | diagnostics (req : DiagnosticsRequest)
  | memory (req : MemoryRequest)
  | lifecycle (req : LifecycleRequest)
  | unknownBucket

def requestVariants : Fin 4 → Variant Request :=
  ![⟨"Diagnostics", diagnosticsRequest, .diagnostics⟩, ⟨"Memory", memoryRequest, .memory⟩,
    ⟨"Lifecycle", lifecycleRequest, .lifecycle⟩, ⟨"UnknownBucket", .unit, fun _ => .unknownBucket⟩]

/-- `#[serde(other)]`: a bucket this build does not know is read as `UnknownBucket`. -/
def request : Object Request :=
  .tagged "bucket" requestVariants (some .unknownBucket)
    (fun
      | .diagnostics req => ⟨0, req⟩
      | .memory req => ⟨1, req⟩
      | .lifecycle req => ⟨2, req⟩
      | .unknownBucket => ⟨3, ()⟩)
    (by rintro (_ | _ | _ | _) <;> rfl) (by decide +kernel) (by decide +kernel)

end CognitiveMemory.Wire
