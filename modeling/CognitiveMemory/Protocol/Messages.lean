import CognitiveMemory.Protocol.Requests

/-! Responses, events and the envelope of the wire. -/

namespace CognitiveMemory.Wire
open Json Codec Field

inductive DoctorCheckLevel
  | ok
  | warn
  | error

def doctorCheckLevel : Codec DoctorCheckLevel :=
  enumeration
    (fun
      | .ok => "ok"
      | .warn => "warn"
      | .error => "error")
    (fun
      | "ok" => some .ok
      | "warn" => some .warn
      | "error" => some .error
      | _ => none)
    (by rintro (_ | _ | _) <;> rfl)

structure DoctorCheckData where
  name : String
  level : DoctorCheckLevel
  message : String

def doctorCheckData : Object DoctorCheckData :=
  .record (Fields.build DoctorCheckData.mk
    |>.field "name" (required string) (·.name)
    |>.field "level" (required doctorCheckLevel) (·.level)
    |>.field "message" (required string) (·.message)) (fun _ => rfl) (by decide)

structure DoctorData where
  exitCode : Int32
  checks : List DoctorCheckData

def doctorData : Object DoctorData :=
  .record (Fields.build DoctorData.mk
    |>.field "exit_code" (required i32) (·.exitCode)
    |>.field "checks" (required doctorCheckData.codec.list) (·.checks)) (fun _ => rfl) (by decide)

structure TraceData where
  traceId : String
  requestId : UInt64
  bucket : String
  op : String
  embedMs : Option Decimal
  vectorMs : Option Decimal
  fusionMs : Option Decimal
  formatMs : Option Decimal
  elapsedMs : Decimal

def traceData : Object TraceData :=
  .record (Fields.build TraceData.mk
    |>.field "trace_id" (required string) (·.traceId)
    |>.field "request_id" (required u64) (·.requestId)
    |>.field "bucket" (required string) (·.bucket)
    |>.field "op" (required string) (·.op)
    |>.field "embed_ms" (nullable decimal) (·.embedMs)
    |>.field "vector_ms" (nullable decimal) (·.vectorMs)
    |>.field "fusion_ms" (nullable decimal) (·.fusionMs)
    |>.field "format_ms" (nullable decimal) (·.formatMs)
    |>.field "elapsed_ms" (required decimal) (·.elapsedMs)) (fun _ => rfl) (by decide)

structure RecentTracesData where
  traces : List TraceData

def recentTracesData : Object RecentTracesData :=
  .record (Fields.build RecentTracesData.mk
    |>.field "traces" (required traceData.codec.list) (·.traces)) (fun _ => rfl) (by decide)

structure ShutdownData where
  accepted : Bool

def shutdownData : Object ShutdownData :=
  .record (Fields.build ShutdownData.mk
    |>.field "accepted" (required boolean) (·.accepted)) (fun _ => rfl) (by decide)

structure SubscribedData where
  replaySnapshotSent : Bool

def subscribedData : Object SubscribedData :=
  .record (Fields.build SubscribedData.mk
    |>.field "replay_snapshot_sent" (required boolean) (·.replaySnapshotSent)) (fun _ => rfl) (by decide)

structure BridgeTokenValidatedData where
  userId : String
  scope : BridgeScope
  expiresAtUnix : Int64

def bridgeTokenValidatedData : Object BridgeTokenValidatedData :=
  .record (Fields.build BridgeTokenValidatedData.mk
    |>.field "user_id" (required string) (·.userId)
    |>.field "scope" (required bridgeScope) (·.scope)
    |>.field "expires_at_unix" (required i64) (·.expiresAtUnix)) (fun _ => rfl) (by decide)

structure MemoryStoredBatchData where
  ids : List String
  associationsCreated : UInt64

def memoryStoredBatchData : Object MemoryStoredBatchData :=
  .record (Fields.build MemoryStoredBatchData.mk
    |>.field "ids" (required string.list) (·.ids)
    |>.field "associations_created" (required u64) (·.associationsCreated)) (fun _ => rfl) (by decide)

structure CountsData where
  hot : Int64
  cold : Int64
  stub : Int64
  total : Int64

def countsData : Object CountsData :=
  .record (Fields.build CountsData.mk
    |>.field "hot" (required i64) (·.hot)
    |>.field "cold" (required i64) (·.cold)
    |>.field "stub" (required i64) (·.stub)
    |>.field "total" (required i64) (·.total)) (fun _ => rfl) (by decide)

structure MemoryData where
  id : String
  userId : String
  content : String
  category : String
  memoryType : String
  createdAt : Int64
  lastAccessedAt : Int64
  validFrom : Option Int64
  validUntil : Option Int64
  retentionFloor : Decimal
  retrievalCount : Int64
  importance : Decimal
  stability : Decimal
  isCold : Bool
  coldSince : Option Int64
  isSuperseded : Bool
  supersededBy : Option String
  isStub : Bool
  stubContent : Option String
  metadata : String
  currentRetention : Decimal
  daysAtFloor : Int64

def memoryData : Object MemoryData :=
  .record (Fields.build MemoryData.mk
    |>.field "id" (required string) (·.id)
    |>.field "user_id" (required string) (·.userId)
    |>.field "content" (required string) (·.content)
    |>.field "category" (required string) (·.category)
    |>.field "memory_type" (required string) (·.memoryType)
    |>.field "created_at" (required i64) (·.createdAt)
    |>.field "last_accessed_at" (required i64) (·.lastAccessedAt)
    |>.field "valid_from" (nullable i64) (·.validFrom)
    |>.field "valid_until" (nullable i64) (·.validUntil)
    |>.field "retention_floor" (required decimal) (·.retentionFloor)
    |>.field "retrieval_count" (required i64) (·.retrievalCount)
    |>.field "importance" (required decimal) (·.importance)
    |>.field "stability" (required decimal) (·.stability)
    |>.field "is_cold" (required boolean) (·.isCold)
    |>.field "cold_since" (nullable i64) (·.coldSince)
    |>.field "is_superseded" (required boolean) (·.isSuperseded)
    |>.field "superseded_by" (nullable string) (·.supersededBy)
    |>.field "is_stub" (required boolean) (·.isStub)
    |>.field "stub_content" (nullable string) (·.stubContent)
    |>.field "metadata" (required string) (·.metadata)
    |>.field "current_retention" (defaulted decimal (.ofInt 0)) (·.currentRetention)
    |>.field "days_at_floor" (defaulted i64 0) (·.daysAtFloor)) (fun _ => rfl) (by decide)

structure MemoriesData where
  memories : List MemoryData

def memoriesData : Object MemoriesData :=
  .record (Fields.build MemoriesData.mk
    |>.field "memories" (required memoryData.codec.list) (·.memories)) (fun _ => rfl) (by decide)

structure AffectedData where
  affected : UInt64

def affectedData : Object AffectedData :=
  .record (Fields.build AffectedData.mk
    |>.field "affected" (required u64) (·.affected)) (fun _ => rfl) (by decide)

structure LinkedMemoryData where
  memory : MemoryData
  linkStrength : Decimal

def linkedMemoryData : Object LinkedMemoryData :=
  .record (Fields.build LinkedMemoryData.mk
    |>.field "memory" (required memoryData.codec) (·.memory)
    |>.field "link_strength" (required decimal) (·.linkStrength)) (fun _ => rfl) (by decide)

structure LinkedMemoriesData where
  memories : List LinkedMemoryData

def linkedMemoriesData : Object LinkedMemoriesData :=
  .record (Fields.build LinkedMemoriesData.mk
    |>.field "memories" (required linkedMemoryData.codec.list) (·.memories)) (fun _ => rfl) (by decide)

structure LinkStrengthData where
  strength : Decimal

def linkStrengthData : Object LinkStrengthData :=
  .record (Fields.build LinkStrengthData.mk
    |>.field "strength" (required decimal) (·.strength)) (fun _ => rfl) (by decide)

structure LexicalIdsData where
  ids : List String

def lexicalIdsData : Object LexicalIdsData :=
  .record (Fields.build LexicalIdsData.mk
    |>.field "ids" (required string.list) (·.ids)) (fun _ => rfl) (by decide)

structure TickResultData where
  completed : Bool
  memoriesDecayed : UInt64

def tickResultData : Object TickResultData :=
  .record (Fields.build TickResultData.mk
    |>.field "completed" (required boolean) (·.completed)
    |>.field "memories_decayed" (required u64) (·.memoriesDecayed)) (fun _ => rfl) (by decide)

structure BridgeTokenData where
  token : String
  expiresAtUnix : Int64

def bridgeTokenData : Object BridgeTokenData :=
  .record (Fields.build BridgeTokenData.mk
    |>.field "token" (required string) (·.token)
    |>.field "expires_at_unix" (required i64) (·.expiresAtUnix)) (fun _ => rfl) (by decide)

structure MemoryStoredData where
  id : String

def memoryStoredData : Object MemoryStoredData :=
  .record (Fields.build MemoryStoredData.mk
    |>.field "id" (required string) (·.id)) (fun _ => rfl) (by decide)

structure SearchHit where
  memoryId : String
  content : String
  category : String
  memoryType : String
  score : Decimal

def searchHit : Object SearchHit :=
  .record (Fields.build SearchHit.mk
    |>.field "memory_id" (required string) (·.memoryId)
    |>.field "content" (required string) (·.content)
    |>.field "category" (required string) (·.category)
    |>.field "memory_type" (required string) (·.memoryType)
    |>.field "score" (required decimal) (·.score)) (fun _ => rfl) (by decide)

structure MemorySearchResultsData where
  results : List SearchHit
  bridgePaths : List (List String)

def memorySearchResultsData : Object MemorySearchResultsData :=
  .record (Fields.build MemorySearchResultsData.mk
    |>.field "results" (required searchHit.codec.list) (·.results)
    |>.field "bridge_paths" (defaulted string.list.list []) (·.bridgePaths)) (fun _ => rfl) (by decide)

structure StatusData where
  daemonVersion : String
  protocolVersion : UInt32
  buildId : String
  instanceName : String
  daemonPid : UInt32
  socketPath : String
  pidPath : String
  dbPath : String
  logPath : String
  uptimeSeconds : UInt64
  memoryCount : UInt64

def statusData : Object StatusData :=
  .record (Fields.build StatusData.mk
    |>.field "daemon_version" (required string) (·.daemonVersion)
    |>.field "protocol_version" (defaulted u32 0) (·.protocolVersion)
    |>.field "build_id" (defaulted string "") (·.buildId)
    |>.field "instance" (defaulted string "") (·.instanceName)
    |>.field "daemon_pid" (defaulted u32 0) (·.daemonPid)
    |>.field "socket_path" (defaulted string "") (·.socketPath)
    |>.field "pid_path" (defaulted string "") (·.pidPath)
    |>.field "db_path" (defaulted string "") (·.dbPath)
    |>.field "log_path" (defaulted string "") (·.logPath)
    |>.field "uptime_seconds" (required u64) (·.uptimeSeconds)
    |>.field "memory_count" (required u64) (·.memoryCount)) (fun _ => rfl) (by decide)

inductive ResponseData
  | status (data : StatusData)
  | doctor (data : DoctorData)
  | recentTraces (data : RecentTracesData)
  | shutdown (data : ShutdownData)
  | subscribed (data : SubscribedData)
  | bridgeTokenValidated (data : BridgeTokenValidatedData)
  | memoryStored (data : MemoryStoredData)
  | memoryStoredBatch (data : MemoryStoredBatchData)
  | memorySearchResults (data : MemorySearchResultsData)
  | bridgeToken (data : BridgeTokenData)
  | counts (data : CountsData)
  | memory (data : MemoryData)
  | memories (data : MemoriesData)
  | affected (data : AffectedData)
  | linkedMemories (data : LinkedMemoriesData)
  | linkStrength (data : LinkStrengthData)
  | lexicalIds (data : LexicalIdsData)
  | tick (data : TickResultData)

def responseDataVariants : Fin 18 → Variant ResponseData :=
  ![⟨"Status", statusData, .status⟩, ⟨"Doctor", doctorData, .doctor⟩,
    ⟨"RecentTraces", recentTracesData, .recentTraces⟩, ⟨"Shutdown", shutdownData, .shutdown⟩,
    ⟨"Subscribed", subscribedData, .subscribed⟩,
    ⟨"BridgeTokenValidated", bridgeTokenValidatedData, .bridgeTokenValidated⟩,
    ⟨"MemoryStored", memoryStoredData, .memoryStored⟩,
    ⟨"MemoryStoredBatch", memoryStoredBatchData, .memoryStoredBatch⟩,
    ⟨"MemorySearchResults", memorySearchResultsData, .memorySearchResults⟩,
    ⟨"BridgeToken", bridgeTokenData, .bridgeToken⟩, ⟨"Counts", countsData, .counts⟩,
    ⟨"Memory", memoryData, .memory⟩, ⟨"Memories", memoriesData, .memories⟩, ⟨"Affected", affectedData, .affected⟩,
    ⟨"LinkedMemories", linkedMemoriesData, .linkedMemories⟩, ⟨"LinkStrength", linkStrengthData, .linkStrength⟩,
    ⟨"LexicalIds", lexicalIdsData, .lexicalIds⟩, ⟨"Tick", tickResultData, .tick⟩]

def responseData : Object ResponseData :=
  .tagged "kind" responseDataVariants none
    (fun
      | .status data => ⟨0, data⟩
      | .doctor data => ⟨1, data⟩
      | .recentTraces data => ⟨2, data⟩
      | .shutdown data => ⟨3, data⟩
      | .subscribed data => ⟨4, data⟩
      | .bridgeTokenValidated data => ⟨5, data⟩
      | .memoryStored data => ⟨6, data⟩
      | .memoryStoredBatch data => ⟨7, data⟩
      | .memorySearchResults data => ⟨8, data⟩
      | .bridgeToken data => ⟨9, data⟩
      | .counts data => ⟨10, data⟩
      | .memory data => ⟨11, data⟩
      | .memories data => ⟨12, data⟩
      | .affected data => ⟨13, data⟩
      | .linkedMemories data => ⟨14, data⟩
      | .linkStrength data => ⟨15, data⟩
      | .lexicalIds data => ⟨16, data⟩
      | .tick data => ⟨17, data⟩)
    (by rintro (_ | _ | _ | _ | _ | _ | _ | _ | _ | _ | _ | _ | _ | _ | _ | _ | _ | _) <;> rfl) (by decide +kernel)
      (by decide +kernel)

inductive ResponseErrorKind
  | protocolMismatch
  | invalidPayload
  | invalidQuery
  | notFound
  | conflict
  | providerError
  | noLlmConfigured
  | storageError
  | rateLimited
  | shuttingDown
  | internal
  deriving DecidableEq

def responseErrorKind : Codec ResponseErrorKind :=
  enumeration
    (fun
      | .protocolMismatch => "ProtocolMismatch"
      | .invalidPayload => "InvalidPayload"
      | .invalidQuery => "InvalidQuery"
      | .notFound => "NotFound"
      | .conflict => "Conflict"
      | .providerError => "ProviderError"
      | .noLlmConfigured => "NoLlmConfigured"
      | .storageError => "StorageError"
      | .rateLimited => "RateLimited"
      | .shuttingDown => "ShuttingDown"
      | .internal => "Internal")
    (fun
      | "ProtocolMismatch" => some .protocolMismatch
      | "InvalidPayload" => some .invalidPayload
      | "InvalidQuery" => some .invalidQuery
      | "NotFound" => some .notFound
      | "Conflict" => some .conflict
      | "ProviderError" => some .providerError
      | "NoLlmConfigured" => some .noLlmConfigured
      | "StorageError" => some .storageError
      | "RateLimited" => some .rateLimited
      | "ShuttingDown" => some .shuttingDown
      | "Internal" => some .internal
      | _ => none)
    (by rintro (_ | _ | _ | _ | _ | _ | _ | _ | _ | _ | _) <;> rfl)

structure ResponseError where
  kind : ResponseErrorKind
  message : String
  retriable : Bool

def responseError : Object ResponseError :=
  .record (Fields.build ResponseError.mk
    |>.field "kind" (required responseErrorKind) (·.kind)
    |>.field "message" (required string) (·.message)
    |>.field "retriable" (required boolean) (·.retriable)) (fun _ => rfl) (by decide)

structure Response where
  ok : Bool
  data : Option ResponseData
  error : Option ResponseError

def response : Object Response :=
  .record (Fields.build Response.mk
    |>.field "ok" (required boolean) (·.ok)
    |>.field "data" (skipped responseData.codec) (·.data)
    |>.field "error" (skipped responseError.codec) (·.error)) (fun _ => rfl) (by decide)

/-! ## Events -/

structure CurrentState where
  memoryCount : UInt64
  occurredAt : String

def currentState : Object CurrentState :=
  .record (Fields.build CurrentState.mk
    |>.field "memory_count" (required u64) (·.memoryCount)
    |>.field "occurred_at" (required string) (·.occurredAt)) (fun _ => rfl) (by decide)

structure TickCompleted where
  memoriesDecayed : UInt64
  consolidationsAttempted : UInt64
  occurredAt : String

def tickCompleted : Object TickCompleted :=
  .record (Fields.build TickCompleted.mk
    |>.field "memories_decayed" (required u64) (·.memoriesDecayed)
    |>.field "consolidations_attempted" (required u64) (·.consolidationsAttempted)
    |>.field "occurred_at" (required string) (·.occurredAt)) (fun _ => rfl) (by decide)

structure EventStreamLagged where
  skipped : UInt64
  occurredAt : String

def eventStreamLagged : Object EventStreamLagged :=
  .record (Fields.build EventStreamLagged.mk
    |>.field "skipped" (required u64) (·.skipped)
    |>.field "occurred_at" (required string) (·.occurredAt)) (fun _ => rfl) (by decide)

inductive Event
  | currentState (fields : CurrentState)
  | tickCompleted (fields : TickCompleted)
  | eventStreamLagged (fields : EventStreamLagged)

def eventVariants : Fin 3 → Variant Event :=
  ![⟨"CurrentState", currentState, .currentState⟩, ⟨"TickCompleted", tickCompleted, .tickCompleted⟩,
    ⟨"EventStreamLagged", eventStreamLagged, .eventStreamLagged⟩]

def event : Object Event :=
  .tagged "kind" eventVariants none
    (fun
      | .currentState fields => ⟨0, fields⟩
      | .tickCompleted fields => ⟨1, fields⟩
      | .eventStreamLagged fields => ⟨2, fields⟩)
    (by rintro (_ | _ | _) <;> rfl) (by decide +kernel) (by decide +kernel)

/-! ## The envelope -/

def body {α : Type} (o : Object α) : Object α :=
  .record (Fields.build id |>.field "body" (required o.codec) id) (fun _ => rfl) (List.nodup_singleton _)

inductive IpcPayload
  | request (req : Request)
  | response (res : Response)
  | event (event : Event)

def ipcPayloadVariants : Fin 3 → Variant IpcPayload :=
  ![⟨"Request", body Wire.request, .request⟩, ⟨"Response", body Wire.response, .response⟩, ⟨"Event", body Wire.event, .event⟩]

def ipcPayload : Object IpcPayload :=
  .tagged "kind" ipcPayloadVariants none
    (fun
      | .request req => ⟨0, req⟩
      | .response res => ⟨1, res⟩
      | .event event => ⟨2, event⟩)
    (by rintro (_ | _ | _) <;> rfl) (by decide +kernel) (by decide +kernel)

structure IpcMessage where
  id : UInt64
  payload : IpcPayload

def ipcMessage : Object IpcMessage :=
  .record (Fields.build IpcMessage.mk
    |>.field "id" (required u64) (·.id)
    |>.field "payload" (required ipcPayload.codec) (·.payload)) (fun _ => rfl) (by decide)

end CognitiveMemory.Wire
