import CognitiveMemory.Lib.Numerals
import Mathlib.Algebra.Order.Field.Basic
import Mathlib.Data.List.Sort

/-! The tables of `data.db` at schema version 5, as the daemon's statements see them. A table
is the list of its rows in rowid order. -/

namespace CognitiveMemory

/-- A row of `memories`. An embedding blob is the `f32` sequence it encodes, `session_ids` the
list its JSON text encodes. -/
structure MemoryRow (F : Type) where
  id : String
  userId : String
  content : String
  category : String
  memoryType : String
  embedding : Option (List F)
  embeddingProvider : Option String
  embeddingModel : Option String
  createdAt : Int
  lastAccessedAt : Int
  validFrom : Option Int
  validUntil : Option Int
  ttlSeconds : Option Int
  retentionFloor : F
  retrievalCount : Int
  metadata : String
  importance : F
  stability : F
  isCold : Bool
  coldSince : Option Int
  daysAtFloor : Int
  isSuperseded : Bool
  supersededBy : Option String
  isStub : Bool
  stubContent : Option String
  contradictedBy : Option String
  sessionIds : List String
  deriving DecidableEq

def MemoryRow.newMinimal {F : Type} [Field F] (id userId content category memoryType : String) (now : Int) :
    MemoryRow F where
  id := id
  userId := userId
  content := content
  category := category
  memoryType := memoryType
  embedding := none
  embeddingProvider := none
  embeddingModel := none
  createdAt := now
  lastAccessedAt := now
  validFrom := none
  validUntil := none
  ttlSeconds := none
  retentionFloor := 0
  retrievalCount := 0
  metadata := "{}"
  importance := 0
  stability := 1 / 10
  isCold := false
  coldSince := none
  daysAtFloor := 0
  isSuperseded := false
  supersededBy := none
  isStub := false
  stubContent := none
  contradictedBy := none
  sessionIds := []

/-- A row of `memories_fts`, kept by the triggers on `memories`. -/
structure FtsRow where
  id : String
  content : String
  deriving DecidableEq

structure AssociationRow (F : Type) where
  sourceMemoryId : String
  targetMemoryId : String
  weight : F
  kind : String
  updatedAt : Int
  lastCoRetrieval : Option Int
  deriving DecidableEq

structure ConflictRow (F : Type) where
  id : ℕ
  userId : String
  newMemoryId : String
  existingMemoryId : String
  similarity : F
  queuedAt : Int
  deriving DecidableEq

structure CacheRow (F : Type) where
  provider : String
  model : String
  textHash : List UInt8
  embedding : List F
  deriving DecidableEq

inductive BridgeScope
  | read
  | write
  | admin
  deriving DecidableEq, Repr

/-- A row of `kv` in the namespace `bridge_tokens`, its JSON value decoded. -/
structure BridgeTokenRow where
  key : List UInt8
  userId : String
  scope : BridgeScope
  expiresAtUnix : Int
  deriving DecidableEq

structure Db (F : Type) where
  memories : List (MemoryRow F)
  memoriesFts : List FtsRow
  associations : List (AssociationRow F)
  conflictQueue : List (ConflictRow F)
  /-- The AUTOINCREMENT counter of `conflict_queue`. -/
  conflictSeq : ℕ
  embeddingCache : List (CacheRow F)
  bridgeTokens : List BridgeTokenRow
  deriving DecidableEq

def Db.empty {F : Type} : Db F := ⟨[], [], [], [], 0, [], []⟩

structure MemoryUpdate (F : Type) where
  content : Option String := none
  category : Option String := none
  memoryType : Option String := none
  metadata : Option String := none
  retentionFloor : Option F := none
  importance : Option F := none
  stability : Option F := none
  validUntil : Option Int := none

def MemoryUpdate.isEmpty {F : Type} (upd : MemoryUpdate F) : Bool :=
  upd.content.isNone && upd.category.isNone && upd.memoryType.isNone && upd.metadata.isNone &&
    upd.retentionFloor.isNone && upd.importance.isNone && upd.stability.isNone && upd.validUntil.isNone

def MemoryUpdate.set {F : Type} (upd : MemoryUpdate F) (r : MemoryRow F) : MemoryRow F :=
  { r with
    content := upd.content.getD r.content
    category := upd.category.getD r.category
    memoryType := upd.memoryType.getD r.memoryType
    metadata := upd.metadata.getD r.metadata
    retentionFloor := upd.retentionFloor.getD r.retentionFloor
    importance := upd.importance.getD r.importance
    stability := upd.stability.getD r.stability
    validUntil := match upd.validUntil with
      | some v => some v
      | none => r.validUntil }

structure MemoryFilters (F : Type) where
  categories : Option (List String)
  memoryTypes : Option (List String)
  minRetentionFloor : Option F
  minImportance : Option F
  createdAfter : Option Int
  createdBefore : Option Int
  limit : Option Int
  offset : Option Int
  includeSuperseded : Bool
  includeCold : Bool
  includeStubs : Bool

structure MemoryCounts where
  hot : ℕ
  cold : ℕ
  stub : ℕ
  total : ℕ
  deriving DecidableEq

structure SearchCandidate (F : Type) where
  id : String
  content : String
  embedding : List F
  category : String
  memoryType : String
  lastAccessedAt : Int
  createdAt : Int
  retentionFloor : F
  retrievalCount : Int
  stability : F
  importance : F
  isStub : Bool
  deriving DecidableEq

structure NeighborEdge (F : Type) where
  targetId : String
  weight : F
  lastCoRetrieval : Option Int
  deriving DecidableEq

structure LinkedMemory (F : Type) where
  memory : MemoryRow F
  linkStrength : F
  lastCoRetrieval : Option Int

/-- Errors `sqlx` surfaces: constraint violations, a statement SQLite rejects, and the failures of the file
underneath. -/
inductive SqlError
  | foreignKey
  | unique
  | syntaxError
  | io
  deriving DecidableEq, Repr

end CognitiveMemory
