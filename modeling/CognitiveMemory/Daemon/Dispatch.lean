import CognitiveMemory.Daemon.Tick
import CognitiveMemory.Protocol.Messages

/-! From a message of the wire to the handler of its request, and from the handler's error to the
one of the response. -/

def Decimal.value {F : Type} [Field F] (d : Decimal) : F := d.mantissa / 10 ^ d.places

namespace CognitiveMemory
variable {F : Type} [Field F] [LinearOrder F]

/-! ## Requests -/

namespace Wire

def MemoryRequest.request : MemoryRequest → CognitiveMemory.MemoryRequest F
  | .subscribe a => .subscribe a.replaySnapshot
  | .store a => .store ⟨a.userId, a.content, a.category, a.memoryType, a.metadata, a.importance.map Decimal.value⟩
  | .storeBatch a =>
    .storeBatch ⟨a.userId, a.memories.map fun e => ⟨e.content, e.category, e.memoryType, e.metadata⟩, a.initialLinkWeight.value⟩
  | .search a => .search ⟨a.userId, a.query, a.limit.toNat, a.deepRecall, a.hybrid, a.graphExpansionHops.toNat, a.bridgeDiscovery⟩
  | .get a => .get a.userId a.id
  | .getMany a => .getMany a.userId a.ids
  | .list a => .list a.userId
    { categories := a.categories
      memoryTypes := a.memoryTypes
      minRetentionFloor := a.minRetentionFloor.map Decimal.value
      minImportance := a.minImportance.map Decimal.value
      createdAfter := a.createdAfter.map Int64.toInt
      createdBefore := a.createdBefore.map Int64.toInt
      limit := a.limit.map Int64.toInt
      offset := a.offset.map Int64.toInt
      includeSuperseded := a.includeSuperseded
      includeCold := a.includeCold
      includeStubs := a.includeStubs }
  | .update a => .update
    { userId := a.userId
      id := a.id
      content := a.content
      category := a.category
      memoryType := a.memoryType
      metadata := a.metadata
      retentionFloor := a.retentionFloor.map Decimal.value
      importance := a.importance.map Decimal.value
      stability := a.stability.map Decimal.value
      validUntil := a.validUntil.map Int64.toInt }
  | .delete a => .delete a.userId a.id
  | .deleteMany a => .deleteMany a.userId a.ids
  | .link a => .link ⟨a.userId, a.sourceId, a.targetId, a.strength.value, a.bidirectional, a.kind⟩
  | .unlink a => .unlink ⟨a.userId, a.sourceId, a.targetId, a.bidirectional⟩
  | .getLinked a => .getLinked a.userId a.sourceId a.minStrength.value
  | .getLinkedMany a => .getLinkedMany a.userId a.sourceIds a.minStrength.value
  | .vectorSearch a => .vectorSearch
    ⟨a.userId, a.embedding.map Decimal.value, a.embeddingProvider, a.embeddingModel, a.limit.toNat, a.deepRecall⟩
  | .searchLexical a => .searchLexical a.userId a.query a.limit.toNat
  | .batchUpdate a => .batchUpdate a.userId (a.updates.map fun u => (u.id, u.retentionFloor.value))

def LifecycleRequest.request : LifecycleRequest → CognitiveMemory.LifecycleRequest F
  | .tick a => .tick a.synchronous
  | .findFading a => .findFading a.userId a.maxRetention.value a.limit.toInt
  | .findStable a => .findStable a.userId a.minStability.value a.minAccessCount.toInt a.limit.toInt
  | .markSuperseded a => .markSuperseded a.userId a.ids a.summaryId
  | .migrateToCold a => .migrateToCold a.userId a.id a.coldSince.toInt
  | .migrateToHot a => .migrateToHot a.userId a.id
  | .convertToStub a => .convertToStub a.userId a.id a.stubContent
  | .updateRetention a => .updateRetention a.userId a.id a.retentionFloor.value
  | .clear a => .clear a.userId a.confirm

def DiagnosticsRequest.request : DiagnosticsRequest → CognitiveMemory.DiagnosticsRequest
  | .status => .status
  | .doctor => .doctor
  | .recentTraces a => .recentTraces a.limit.toNat
  | .shutdown => .shutdown
  | .mintBridgeToken a => .mintBridgeToken a.userId a.scope a.ttlSeconds.toNat
  | .validateBridgeToken a => .validateBridgeToken a.token a.requiredScope
  | .counts a => .counts a.userId

def Request.request : Request → CognitiveMemory.Request F
  | .diagnostics req => .diagnostics req.request
  | .memory req => .memory req.request
  | .lifecycle req => .lifecycle req.request
  | .unknownBucket => .unknownBucket

end Wire

/-! ## Errors -/

structure Texts where
  sqlx : SqlError → String
  debug : Wire.IpcPayload → String

def EmbeddingError.text (texts : Texts) : EmbeddingError → String
  | .provider message => "provider error: " ++ message
  | .storage e => "storage error: " ++ texts.sqlx e

def SearchError.text (texts : Texts) : SearchError → String
  | .storage e => "storage: " ++ texts.sqlx e
  | .dimensionMismatch query memory =>
    "embedding dimension mismatch: query=" ++ toString query ++ ", memory=" ++ toString memory
  | .invalidQuery message => "invalid query: " ++ message

def HandlerError.text (texts : Texts) : HandlerError → String
  | .storage e => "storage: " ++ texts.sqlx e
  | .embedding e => "embedding: " ++ e.text texts
  | .search e => "search: " ++ e.text texts
  | .invalidPayload message => "invalid payload: " ++ message
  | .unknownBucket => "unknown bucket"
  | .notFound => "not found"

def errorKindFor : HandlerError → Wire.ResponseErrorKind
  | .storage _ => .storageError
  | .embedding _ => .providerError
  | .search _ => .internal
  | .invalidPayload _ | .unknownBucket => .invalidPayload
  | .notFound => .notFound

/-! ## Dispatch -/

structure Answer (F : Type) where
  id : UInt64
  result : Except Wire.ResponseError (ResponseData F)

def dispatch [Elementary F] (texts : Texts) (app : AppState F) (user : String) (message : Wire.IpcMessage) :
    Prog (Cmd F) Cmd.Res Empty (Answer F) :=
  match message.payload with
  | .request req => (handleRequest app req.request user).attempt.bind fun result =>
    .pure ⟨message.id, result.mapError fun e => ⟨errorKindFor e, e.text texts, false⟩⟩
  | other => .pure ⟨message.id, .error ⟨.invalidPayload, "unexpected payload kind: " ++ texts.debug other, false⟩⟩

end CognitiveMemory
