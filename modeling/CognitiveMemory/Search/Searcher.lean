import CognitiveMemory.Lifecycle
import CognitiveMemory.Store.Machine

/-! The search crate: cosine scoring, reciprocal rank fusion, graph expansion and bridge
discovery over the store's reads. -/

namespace CognitiveMemory

inductive SearchError
  | storage (e : SqlError)
  | dimensionMismatch (query memory : ℕ)
  | invalidQuery (message : String)
  deriving DecidableEq, Repr

inductive ResultSource
  | direct
  | graphExpanded
  deriving DecidableEq, Repr

structure SearchResult (F : Type) where
  memoryId : String
  content : String
  category : String
  memoryType : String
  score : F
  source : ResultSource
  deriving DecidableEq

structure SearchOptions (F : Type) where
  limit : ℕ
  deepRecall : Bool
  provider : String
  model : String
  now : Int
  hybrid : Bool
  queryText : Option String
  graphExpansionHops : ℕ
  minBridgeEdgeWeight : F
  bridgeDiscovery : Bool
  maxBridgePaths : ℕ

abbrev SearchM (F α : Type) := Prog (Cmd F) Cmd.Res SearchError α

variable {F : Type} [Field F] [LinearOrder F]

/-! ## Scoring -/

section
variable [Elementary F]

def cosineSimilarity (a b : List F) : F :=
  let pairs := a.zip b
  let dot := pairs.foldl (fun s p => s + p.1 * p.2) 0
  let normA := pairs.foldl (fun s p => s + p.1 * p.1) 0
  let normB := pairs.foldl (fun s p => s + p.2 * p.2) 0
  if normA = 0 ∨ normB = 0 then 0 else dot / (Elementary.sqrt normA * Elementary.sqrt normB)

/-- `candidate_to_state`, and the same view of a linked row in `expand_via_graph`. -/
def candidateToState (c : SearchCandidate F) (cfg : LifecycleConfig F) : MemoryState F where
  lastAccessedAt := c.lastAccessedAt
  createdAt := c.createdAt
  stability := c.stability
  importance := c.importance
  baseDecayRate := cfg.betaFor c.category
  floor := c.retentionFloor
  isStub := c.isStub
  accessCount := (c.retrievalCount % 2 ^ 64).toNat
  sessionCount := 0
  category := parseCategory c.category

/-- Equation 3: cosine times `R^α`. -/
def compositeScore (cfg : LifecycleConfig F) (queryVec : List F) (now : Int) (c : SearchCandidate F) : F :=
  cosineSimilarity queryVec c.embedding *
    Elementary.powf (computeRetention (candidateToState c cfg) now cfg) cfg.retrievalScoreExponent

def SearchCandidate.result (c : SearchCandidate F) (score : F) (source : ResultSource) : SearchResult F :=
  ⟨c.id, c.content, c.category, c.memoryType, score, source⟩

def scoreCandidate (cfg : LifecycleConfig F) (queryVec : List F) (now : Int) (c : SearchCandidate F) :
    Except SearchError (SearchResult F) :=
  if c.embedding.length ≠ queryVec.length then .error (.dimensionMismatch queryVec.length c.embedding.length)
  else .ok (c.result (compositeScore cfg queryVec now c) .direct)

/-! ## Hybrid fusion -/

structure RankedHit where
  id : String
  rank : ℕ

def rankedHits (ids : List String) : List RankedHit := ids.zipIdx.map fun p => ⟨p.1, p.2⟩

def addContribution (k : ℕ) : List (String × F) → RankedHit → List (String × F)
  | [], hit => [(hit.id, 0 + 1 / ((k : F) + (hit.rank : F) + 1))]
  | (id, s) :: rest, hit =>
    if id = hit.id then (id, s + 1 / ((k : F) + (hit.rank : F) + 1)) :: rest
    else (id, s) :: addContribution k rest hit

def rrfScores (lists : List (List RankedHit)) (k : ℕ) : List (String × F) :=
  lists.flatten.foldl (addContribution k) []

/-- The score map is read in hash order before the stable sort. -/
def reciprocalRankFusion (lists : List (List RankedHit)) (k : ℕ) : SearchM F (List (String × F)) := do
  let scores : List (String × F) := rrfScores lists k
  let keys : List String ← Prog.call (Cmd.order (scores.map Prod.fst))
  pure (sortDesc Prod.snd (keys.filterMap fun id => (scores.lookup id).map fun s => (id, s)))

/-- `(limit * 4).max(20)` in `usize`, then `as i64`. -/
def bm25Limit (limit : ℕ) : Int := Int.bmod (max (limit * 4 % 2 ^ 64) 20 : ℕ) (2 ^ 64)

def safeQuery (query : String) : String :=
  "\"" ++ String.ofList (query.toList.map fun c => if c = '"' then ' ' else c) ++ "\""

/-- BM25-only items are dropped: a result needs a dense score. -/
def fuseHybrid (userId : String) (o : SearchOptions F) (scored : List (SearchResult F)) :
    SearchM F (List (SearchResult F)) :=
  match o.queryText with
  | none => .fail (.invalidQuery "hybrid mode requires query_text in SearchOptions")
  | some text => do
    let bm25Ids ← (query (.bm25Search userId (safeQuery text) (bm25Limit o.limit))).mapError .storage
    let fused ← reciprocalRankFusion [rankedHits (scored.map SearchResult.memoryId), rankedHits bm25Ids] 60
    pure (fused.filterMap fun p => (scored.find? (·.memoryId == p.1)).map fun r => { r with score := p.2 })

/-! ## Graph expansion -/

def liveWeight (cfg : LifecycleConfig F) (now : Int) (lm : LinkedMemory F) : F :=
  match lm.lastCoRetrieval with
  | some last => decayAssociationWeight lm.linkStrength last now cfg.associationDecayConstantDays
  | none => lm.linkStrength

/-- The entry a linked memory contributes, unless its edge has decayed below the threshold or
its vector is missing or of another dimension. -/
def expandEntry (cfg : LifecycleConfig F) (queryVec : List F) (o : SearchOptions F) (lm : LinkedMemory F) :
    Option (SearchResult F) :=
  if liveWeight cfg o.now lm < o.minBridgeEdgeWeight then none
  else match lm.memory.embedding with
    | none => none
    | some v =>
      if v.length ≠ queryVec.length then none
      else some ((SearchCandidate.ofRow lm.memory).result
        (compositeScore cfg queryVec o.now (SearchCandidate.ofRow lm.memory) * liveWeight cfg o.now lm)
        .graphExpanded)

/-- The loop over the linked memories of one hop: ids already held, results, next frontier. -/
structure Expansion (F : Type) where
  alreadyHave : List String
  scored : List (SearchResult F)
  frontier : List String

def Expansion.add (cfg : LifecycleConfig F) (queryVec : List F) (o : SearchOptions F) (x : Expansion F)
    (lm : LinkedMemory F) : Expansion F :=
  if x.alreadyHave.contains lm.memory.id then x
  else match expandEntry cfg queryVec o lm with
    | none => x
    | some r => ⟨lm.memory.id :: x.alreadyHave, x.scored ++ [r], x.frontier ++ [lm.memory.id]⟩

def expandHops (cfg : LifecycleConfig F) (userId : String) (queryVec : List F) (o : SearchOptions F) :
    ℕ → Expansion F → SearchM F (List (SearchResult F))
  | 0, x => pure x.scored
  | hops + 1, x =>
    if x.frontier.isEmpty then pure x.scored else do
      let linked ← (linkedForMany userId x.frontier o.minBridgeEdgeWeight).mapError .storage
      expandHops cfg userId queryVec o hops
        (linked.foldl (Expansion.add cfg queryVec o) ⟨x.alreadyHave, x.scored, []⟩)

def expandViaGraph (cfg : LifecycleConfig F) (userId : String) (queryVec : List F) (o : SearchOptions F)
    (scored : List (SearchResult F)) : SearchM F (List (SearchResult F)) :=
  let ids := scored.map SearchResult.memoryId
  expandHops cfg userId queryVec o o.graphExpansionHops ⟨ids, scored, ids.take (max o.limit 5)⟩

def hybridHits (userId : String) (o : SearchOptions F) (scored : List (SearchResult F)) :
    SearchM F (List (SearchResult F)) :=
  if o.hybrid then fuseHybrid userId o scored else pure scored

def expandedHits (cfg : LifecycleConfig F) (userId : String) (queryVec : List F) (o : SearchOptions F)
    (scored : List (SearchResult F)) : SearchM F (List (SearchResult F)) :=
  if 0 < o.graphExpansionHops ∧ scored ≠ [] then do
    let expanded ← expandViaGraph cfg userId queryVec o scored
    pure (sortDesc SearchResult.score expanded)
  else pure scored

/-- `Searcher::search`. -/
def search (cfg : LifecycleConfig F) (userId : String) (queryVec : List F) (o : SearchOptions F) :
    SearchM F (List (SearchResult F)) :=
  if queryVec.isEmpty then .fail (.invalidQuery "query vector is empty")
  else if o.limit = 0 then pure []
  else do
    let candidates : List (SearchCandidate F) ←
      (query (.candidatesForSearch userId o.provider o.model o.now o.deepRecall)).mapError .storage
    let dense ← Prog.ofExcept (candidates.mapM (scoreCandidate cfg queryVec o.now))
    let hits ← hybridHits userId o (sortDesc SearchResult.score dense)
    let final ← expandedHits cfg userId queryVec o hits
    pure (final.take o.limit)

end

/-! ## Bridge discovery -/

/-- The neighbours of one dequeued node: the goal's path, or the visited set and the back of
the queue. -/
def visitNeighbors (goal : String) (path : List String) :
    List (NeighborEdge F) → List String → List (String × List String) →
      List String ⊕ (List String × List (String × List String))
  | [], visited, back => .inr (visited, back)
  | e :: es, visited, back =>
    if visited.contains e.targetId then visitNeighbors goal path es visited back
    else if e.targetId = goal then .inl (path ++ [e.targetId])
    else visitNeighbors goal path es (e.targetId :: visited) (back ++ [(e.targetId, path ++ [e.targetId])])

def bfsFront (goal : String) (minWeight : F) :
    List (String × List String) → List String → List (String × List String) →
      Repo F (List String ⊕ (List String × List (String × List String)))
  | [], visited, back => pure (.inr (visited, back))
  | (current, path) :: front, visited, back => do
    let edges ← query (.edgesFrom current minWeight)
    match visitNeighbors goal path edges visited back with
    | .inl found => pure (.inl found)
    | .inr (visited, back) => bfsFront goal minWeight front visited back

/-- The FIFO queue of `bfs_path`, cut where its paths get longer: `front` holds the paths of
one length, and after `depth` such fronts the remaining paths are longer than `max_depth`. -/
def bfsLevels (goal : String) (minWeight : F) :
    ℕ → List (String × List String) → List String → Repo F (Option (List String))
  | 0, _, _ => pure none
  | depth + 1, front, visited => do
    match ← bfsFront goal minWeight front visited [] with
    | .inl found => pure (some found)
    | .inr (visited, back) => bfsLevels goal minWeight depth back visited

def bfsPath (start goal : String) (maxDepth : ℕ) (minWeight : F) : Repo F (Option (List String)) :=
  bfsLevels goal minWeight maxDepth [(start, [start])] [start]

def orderedPairs {α : Type} : List α → List (α × α)
  | [] => []
  | a :: as => as.map (fun b => (a, b)) ++ orderedPairs as

def bridgeChains (o : SearchOptions F) : List (String × String) → List (List String) →
    SearchM F (List (List String))
  | [], chains => pure chains
  | (a, b) :: pairs, chains =>
    if o.maxBridgePaths ≤ chains.length then bridgeChains o pairs chains
    else do
      let path ← (bfsPath a b 3 o.minBridgeEdgeWeight).mapError .storage
      match path with
      | some p => bridgeChains o pairs (if 2 < p.length then chains ++ [p] else chains)
      | none => bridgeChains o pairs chains

def findBridges (anchors : List String) (o : SearchOptions F) : SearchM F (List (List String)) :=
  if !o.bridgeDiscovery || decide (anchors.length < 2) then pure []
  else bridgeChains o (orderedPairs (anchors.take 3)) []

end CognitiveMemory
