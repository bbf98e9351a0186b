import CognitiveMemory.Daemon.Handlers

/-! `Lifecycle::Tick`, the one request that works on every user's memories, and the dispatch
over all requests. -/

namespace CognitiveMemory
variable {F : Type} [Field F] [LinearOrder F] [Elementary F]

/-! ## Passes 1 to 3 -/

def atFloor (app : AppState F) (now : Int) (row : MemoryRow F) : Bool :=
  decide (|computeCurrentRetention row now app.lifecycle - row.retentionFloor| < 1 / 10 ^ 9) &&
    decide (0 < row.retentionFloor)

def resolveConflicts (app : AppState F) : HandlerM F ℕ := do
  let pairs : List ConflictPair ← sqlx (query (.conflictPairs 50))
  if pairs.isEmpty then pure 0
  else sqlx (Prog.cmd (.resolveConflicts app.llm pairs) Prog.ofExcept)

/-! ## Pass 4: consolidation -/

def consolidationPrompt : String :=
  "Compress these related memories into a single concise summary that preserves all key facts.\n\n" ++
  "Memories:\n{memories}\n\n" ++
  "Write one clear paragraph. Preserve specific names, dates, numbers, and preferences. " ++
  "Do not add information that isn't in the originals."

def consolidationGroupSize : ℕ := 5

def consolidationMaxPerTick : ℕ := 5

/-- Unlike the search crate's cosine it takes the square roots first. -/
def cosineSimilarityF32 (a b : List F) : F :=
  let na := Elementary.sqrt (a.map fun x => x * x).sum
  let nb := Elementary.sqrt (b.map fun y => y * y).sum
  if na = 0 ∨ nb = 0 then 0 else ((a.zip b).map fun p => p.1 * p.2).sum / (na * nb)

def decodeEmbedding (row : MemoryRow F) : List F := row.embedding.getD []

def summaryRow (app : AppState F) (id userId text : String) (vector : List F) (now : Int) (group : List (MemoryRow F)) :
    MemoryRow F :=
  let category := (group.head?.map MemoryRow.category).getD ""
  { embeddedRow app id userId text category "summary" vector now with
    importance := group.foldl (fun m r => max m r.importance) 0
    stability := (group.map MemoryRow.stability).sum / group.length }

def compressCluster (app : AppState F) (userId : String) (group : List (MemoryRow F)) (now : Int) :
    HandlerM F String := do
  let bulletList := "\n".intercalate (group.map fun m => "- " ++ m.content)
  let answer : Except String String ← Prog.call (Cmd.llm (consolidationPrompt.replace "{memories}" bulletList) 200)
  let text ← (Prog.ofExcept answer).mapError fun e => .invalidPayload ("LLM compress: " ++ e)
  let vector ← embed app text
  let id ← freshMemoryId userId
  let _ ← sqlx (write (.insertMemory (summaryRow app id userId text vector now group)))
  let _ ← sqlx (write (.supersedeCluster userId id (group.map MemoryRow.id) now))
  pure id

/-- The inner loop: later rows of the category close to the head, up to the group size. -/
def growGroup (headVec : List F) (used : List String) : List (MemoryRow F) → List (MemoryRow F) → List (MemoryRow F)
  | [], group => group
  | cand :: rest, group =>
    if used.contains cand.id || (decodeEmbedding cand).length != headVec.length ||
        !decide (7 / 10 ≤ cosineSimilarityF32 headVec (decodeEmbedding cand)) then
      growGroup headVec used rest group
    else if consolidationGroupSize ≤ group.length + 1 then group ++ [cand]
    else growGroup headVec used rest (group ++ [cand])

/-- The rows of one category; returns the summaries created so far in the tick. -/
def consolidateCategory (app : AppState F) (userId : String) (now : Int) :
    List (MemoryRow F) → List String → ℕ → HandlerM F ℕ
  | [], _, created => pure created
  | head :: rest, used, created =>
    if consolidationMaxPerTick ≤ created then pure created
    else if used.contains head.id || (decodeEmbedding head).isEmpty then
      consolidateCategory app userId now rest used created
    else
      let group := growGroup (decodeEmbedding head) used rest [head]
      if consolidationGroupSize ≤ group.length then do
        let _ ← compressCluster app userId group now
        consolidateCategory app userId now rest (used ++ group.map MemoryRow.id) (created + 1)
      else consolidateCategory app userId now rest used created

def consolidateMembers (app : AppState F) (userId : String) (now : Int) (mems : List (MemoryRow F)) (created : ℕ) :
    HandlerM F ℕ :=
  if mems.length < consolidationGroupSize then pure created
  else consolidateCategory app userId now mems [] created

def consolidateCategories (app : AppState F) (userId : String) (now : Int) (fading : List (MemoryRow F)) :
    List String → ℕ → HandlerM F ℕ
  | [], created => pure created
  | category :: categories, created => do
    let created ← consolidateMembers app userId now (fading.filter (·.category == category)) created
    consolidateCategories app userId now fading categories created

/-- `break 'outer` once the cap is reached: no later user is read. -/
def consolidateUsers (app : AppState F) (now : Int) : List String → ℕ → HandlerM F ℕ
  | [], created => pure created
  | userId :: users, created =>
    if consolidationMaxPerTick ≤ created then pure created else do
      let rows : List (MemoryRow F) ← sqlx (query (.hotEmbedded userId))
      let fading := rows.filter fun r => decide (computeCurrentRetention r now app.lifecycle < 20 / 100)
      let categories : List String ← Prog.call (Cmd.order (fading.map MemoryRow.category).dedup)
      let created ← consolidateCategories app userId now fading categories created
      consolidateUsers app now users created

def consolidateAtTick (app : AppState F) (now : Int) : HandlerM F ℕ :=
  if !app.llm then pure 0 else do
    let users : List String ← sqlx (query .hotUsers)
    consolidateUsers app now users 0

def handleTick (app : AppState F) : HandlerM F (ResponseData F) := do
  let now ← unixNow
  let hotRows : List (MemoryRow F) ← sqlx (query .hotRows)
  let rows := hotRows.map fun r => (r, atFloor app now r)
  let _ ← sqlx (write (.tickFloor rows now))
  let staleCold : List (MemoryRow F) ← sqlx (query (.staleCold (now - 180 * 86400)))
  let _ ← sqlx (write (.tickExpire staleCold))
  let _ ← resolveConflicts app
  let _ ← consolidateAtTick app now
  pure (.tick (rows.filter Prod.snd).length)

/-! ## Dispatch -/

def handleLifecycleRequest (app : AppState F) (req : LifecycleRequest F) (user : String) :
    HandlerM F (ResponseData F) :=
  match req with
  | .tick _ => handleTick app
  | .findFading userId maxRetention limit => handleFindFading app userId maxRetention limit user
  | .findStable userId minStability minAccessCount limit =>
      handleFindStable app userId minStability minAccessCount limit user
  | .markSuperseded userId ids summaryId => handleMarkSuperseded userId ids summaryId user
  | .migrateToCold userId id coldSince => handleMigrateToCold userId id coldSince user
  | .migrateToHot userId id => handleMigrateToHot userId id user
  | .convertToStub userId id stubContent => handleConvertToStub userId id stubContent user
  | .updateRetention userId id retentionFloor => handleUpdateRetention userId id retentionFloor user
  | .clear userId confirm => handleClear userId confirm user

def handleRequest (app : AppState F) (req : Request F) (user : String) : HandlerM F (ResponseData F) :=
  match req with
  | .diagnostics req => handleDiagnosticsRequest app req user
  | .memory req => handleMemoryRequest app req user
  | .lifecycle req => handleLifecycleRequest app req user
  | .unknownBucket => .fail .unknownBucket

end CognitiveMemory
