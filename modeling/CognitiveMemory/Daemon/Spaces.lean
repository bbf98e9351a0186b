import CognitiveMemory.Daemon.Promotion
import CognitiveMemory.Daemon.Provenance
import CognitiveMemory.Daemon.Tenancy
import CognitiveMemory.Daemon.Writes
import CognitiveMemory.Lib.Notes

/-! Embedding spaces. The requests that compare vectors note what they compare; without the notes
they are the requests of the daemon. -/

namespace CognitiveMemory
variable {F : Type}

def MemoryRow.space (r : MemoryRow F) : Option String × Option String := (r.embeddingProvider, r.embeddingModel)

/-- A cosine: of the query vector of a space with a candidate or a linked memory, or of the head of
a cluster with a member. -/
inductive Comparison (F : Type)
  | candidate (provider model : String) (c : SearchCandidate F)
  | linked (provider model : String) (row : MemoryRow F)
  | clustered (head cand : MemoryRow F)

/-- Both vectors are recorded under one provider and model. The columns of a candidate leave them
out, so its row is looked up in the store it was read from. -/
def Comparison.Within (db : Db F) : Comparison F → Prop
  | candidate provider model c => ∃ r ∈ db.memories, SearchCandidate.ofRow r = c ∧ r.space = (some provider, some model)
  | linked provider model row => row.space = (some provider, some model)
  | clustered head cand => head.space = cand.space

variable [Field F] [LinearOrder F] [Elementary F]

namespace Comparing

abbrev SearchM (F α : Type) := Prog.Noting (Cmd F) (Comparison F) Cmd.Res SearchError α

abbrev HandlerM (F α : Type) := Prog.Noting (Cmd F) (Comparison F) Cmd.Res HandlerError α

/-! ## Searches -/

def scoredCandidates (queryVec : List F) (candidates : List (SearchCandidate F)) : List (SearchCandidate F) :=
  candidates.takeWhile fun c => decide (c.embedding.length = queryVec.length)

def scoredLinks (cfg : LifecycleConfig F) (queryVec : List F) (o : SearchOptions F) : Expansion F → List (LinkedMemory F) →
    List (MemoryRow F)
  | _, [] => []
  | x, lm :: linked =>
    if !x.alreadyHave.contains lm.memory.id && (expandEntry cfg queryVec o lm).isSome then
      lm.memory :: scoredLinks cfg queryVec o (x.add cfg queryVec o lm) linked
    else scoredLinks cfg queryVec o (x.add cfg queryVec o lm) linked

def expandHops (provider model : String) (cfg : LifecycleConfig F) (userId : String) (queryVec : List F)
    (o : SearchOptions F) :
    ℕ → Expansion F → SearchM F (List (SearchResult F))
  | 0, x => pure x.scored
  | hops + 1, x =>
    if x.frontier.isEmpty then pure x.scored else do
      let linked ← (((linkedForMany userId x.frontier o.minBridgeEdgeWeight).mapError .storage).lift :
          SearchM F (List (LinkedMemory F)))
      Prog.note ((scoredLinks cfg queryVec o ⟨x.alreadyHave, x.scored, []⟩ linked).map (.linked provider model))
      expandHops provider model cfg userId queryVec o hops
        (linked.foldl (Expansion.add cfg queryVec o) ⟨x.alreadyHave, x.scored, []⟩)

def expandViaGraph (provider model : String) (cfg : LifecycleConfig F) (userId : String) (queryVec : List F)
    (o : SearchOptions F) (scored : List (SearchResult F)) : SearchM F (List (SearchResult F)) :=
  let ids := scored.map SearchResult.memoryId
  expandHops provider model cfg userId queryVec o o.graphExpansionHops ⟨ids, scored, ids.take (max o.limit 5)⟩

def expandedHits (provider model : String) (cfg : LifecycleConfig F) (userId : String) (queryVec : List F)
    (o : SearchOptions F) (scored : List (SearchResult F)) : SearchM F (List (SearchResult F)) :=
  if 0 < o.graphExpansionHops ∧ scored ≠ [] then do
    let expanded ← expandViaGraph provider model cfg userId queryVec o scored
    pure (sortDesc SearchResult.score expanded)
  else pure scored

/-- `Searcher::search` with a query vector of this provider and model. -/
def search (provider model : String) (cfg : LifecycleConfig F) (userId : String) (queryVec : List F) (o : SearchOptions F) :
    SearchM F (List (SearchResult F)) :=
  if queryVec.isEmpty then .fail (.invalidQuery "query vector is empty")
  else if o.limit = 0 then pure []
  else do
    let candidates ← (((query (.candidatesForSearch userId o.provider o.model o.now o.deepRecall)).mapError .storage).lift :
      SearchM F (List (SearchCandidate F)))
    Prog.note ((scoredCandidates queryVec candidates).map (.candidate provider model))
    let dense ← (Prog.ofExcept (candidates.mapM (scoreCandidate cfg queryVec o.now))).lift
    let hits ← (hybridHits userId o (sortDesc SearchResult.score dense)).lift
    let final ← expandedHits provider model cfg userId queryVec o hits
    pure (final.take o.limit)

/-! ## The memory bucket -/

def queueConflictsFor (app : AppState F) (userId newId : String) (newVec : List F) (now : Int) : HandlerM F Unit := do
  let hits ← (search app.embeddings.name app.embeddings.model app.lifecycle userId newVec
      (ingestOptions app now)).mapError .search
  (sqlx (write (.queueConflicts userId newId (hits.map fun h => (h.memoryId, h.score)) now))).lift

def handleMemoryStore (app : AppState F) (args : StoreMemoryArgs F) (user : String) : HandlerM F (ResponseData F) := do
  (requireUserMatch args.userId user).lift
  let vector ← (embed app args.content).lift
  let id ← (freshMemoryId args.userId).lift
  let now ← unixNow.lift
  let _ ← (sqlx (write (.insertMemory (storedRow app args id vector now)))).lift
  queueConflictsFor app args.userId id vector now
  pure (.memoryStored id)

def handleMemorySearch (app : AppState F) (args : SearchMemoryArgs) (user : String) : HandlerM F (ResponseData F) := do
  (requireUserMatch args.userId user).lift
  let queryVec ← (embed app args.query).lift
  let now ← unixNow.lift
  let o := searchOptions app args now
  let results ← (search app.embeddings.name app.embeddings.model app.lifecycle args.userId queryVec o).mapError .search
  let anchors := results.map SearchResult.memoryId
  let bridges ← ((findBridges anchors o).mapError .search).lift
  (whenever (args.deepRecall && !anchors.isEmpty) (restoreCold args.userId anchors)).lift
  (whenever (!anchors.isEmpty) (strengthenResults app args.userId results now)).lift
  pure (.memorySearchResults (results.map SearchResult.hit) bridges)

def handleVectorSearch (app : AppState F) (args : VectorSearchArgs F) (user : String) : HandlerM F (ResponseData F) := do
  (requireUserMatch args.userId user).lift
  let now ← unixNow.lift
  let results ← (search args.embeddingProvider args.embeddingModel app.lifecycle args.userId args.embedding
    { ingestOptions app now with
      limit := args.limit
      deepRecall := args.deepRecall
      provider := args.embeddingProvider
      model := args.embeddingModel }).mapError .search
  pure (.memorySearchResults (results.map SearchResult.hit) [])

/-! ## The tick -/

def clusterScans (headVec : List F) (used : List String) : List (MemoryRow F) → List (MemoryRow F) → List (MemoryRow F)
  | [], _ => []
  | cand :: rest, group =>
    if used.contains cand.id || (decodeEmbedding cand).length != headVec.length then clusterScans headVec used rest group
    else if !decide (7 / 10 ≤ cosineSimilarityF32 headVec (decodeEmbedding cand)) then
      cand :: clusterScans headVec used rest group
    else if consolidationGroupSize ≤ group.length + 1 then [cand]
    else cand :: clusterScans headVec used rest (group ++ [cand])

def consolidateCategory (app : AppState F) (userId : String) (now : Int) :
    List (MemoryRow F) → List String → ℕ → HandlerM F ℕ
  | [], _, created => pure created
  | head :: rest, used, created =>
    if consolidationMaxPerTick ≤ created then pure created
    else if used.contains head.id || (decodeEmbedding head).isEmpty then
      consolidateCategory app userId now rest used created
    else do
      let group := growGroup (decodeEmbedding head) used rest [head]
      Prog.note ((clusterScans (decodeEmbedding head) used rest [head]).map (.clustered head))
      if consolidationGroupSize ≤ group.length then do
        let _ ← (compressCluster app userId group now).lift
        consolidateCategory app userId now rest (used ++ group.map MemoryRow.id) (created + 1)
      else consolidateCategory app userId now rest used created

def consolidateMembers (app : AppState F) (userId : String) (now : Int) (mems : List (MemoryRow F)) (created : ℕ) :
    HandlerM F ℕ :=
  if mems.length < consolidationGroupSize then pure created
  else consolidateCategory app userId now mems [] created

def consolidateCategories (app : AppState F) (userId : String) (now : Int) (fading : List (MemoryRow F)) :
    List String → ℕ → HandlerM F ℕ
  | [], created => pure created
  | category :: categories, created => do
    let created ← consolidateMembers app userId now (fading.filter (·.category == category)) created
    consolidateCategories app userId now fading categories created

def fading (app : AppState F) (now : Int) (rows : List (MemoryRow F)) : List (MemoryRow F) :=
  rows.filter fun r => decide (computeCurrentRetention r now app.lifecycle < 20 / 100)

def consolidateUsers (app : AppState F) (now : Int) : List String → ℕ → HandlerM F ℕ
  | [], created => pure created
  | userId :: users, created =>
    if consolidationMaxPerTick ≤ created then pure created else do
      let rows ← ((sqlx (query (.hotEmbedded userId))).lift : HandlerM F (List (MemoryRow F)))
      let categories ← ((Prog.call (Cmd.order ((fading app now rows).map MemoryRow.category).dedup)).lift :
          HandlerM F (List String))
      let created ← consolidateCategories app userId now (fading app now rows) categories created
      consolidateUsers app now users created

def consolidateAtTick (app : AppState F) (now : Int) : HandlerM F ℕ :=
  if !app.llm then pure 0 else do
    let users ← ((sqlx (query .hotUsers)).lift : HandlerM F (List String))
    consolidateUsers app now users 0

def handleTick (app : AppState F) : HandlerM F (ResponseData F) := do
  let now ← unixNow.lift
  let hotRows ← ((sqlx (query .hotRows)).lift : HandlerM F (List (MemoryRow F)))
  let rows := hotRows.map fun r => (r, atFloor app now r)
  let _ ← (sqlx (write (.tickFloor rows now))).lift
  let staleCold ← ((sqlx (query (.staleCold (now - 180 * 86400)))).lift : HandlerM F (List (MemoryRow F)))
  let _ ← (sqlx (write (.tickExpire staleCold))).lift
  let _ ← (resolveConflicts app).lift
  let _ ← consolidateAtTick app now
  pure (.tick (rows.filter Prod.snd).length)

/-! ## Dispatch -/

def handleRequest (app : AppState F) (req : Request F) (user : String) : HandlerM F (ResponseData F) :=
  match req with
  | .memory (.store args) => handleMemoryStore app args user
  | .memory (.search args) => handleMemorySearch app args user
  | .memory (.vectorSearch args) => handleVectorSearch app args user
  | .lifecycle (.tick _) => handleTick app
  | _ => (CognitiveMemory.handleRequest app req user).lift

open Prog

/-! ## Without the notes -/

theorem erase_expandHops (provider model : String) (cfg : LifecycleConfig F) (userId : String) (queryVec : List F)
    (o : SearchOptions F) (hops : ℕ) (x : Expansion F) :
    (expandHops provider model cfg userId queryVec o hops x).erase = CognitiveMemory.expandHops cfg userId queryVec o hops x := by
  induction hops generalizing x with
  | zero => rfl
  | succ hops ih =>
    rw [expandHops, CognitiveMemory.expandHops]
    split
    · rfl
    · simp only [bind_eq, erase_bind, erase_lift, erase_note, pure_bind', ih]

theorem erase_search (provider model : String) (cfg : LifecycleConfig F) (userId : String) (queryVec : List F)
    (o : SearchOptions F) :
    (search provider model cfg userId queryVec o).erase = CognitiveMemory.search cfg userId queryVec o := by
  unfold search CognitiveMemory.search
  split
  · rfl
  split
  · rfl
  have hexpanded : ∀ hits, (expandedHits provider model cfg userId queryVec o hits).erase =
      CognitiveMemory.expandedHits cfg userId queryVec o hits := by
    intro hits
    unfold expandedHits CognitiveMemory.expandedHits expandViaGraph CognitiveMemory.expandViaGraph
    split
    · simp only [bind_eq, pure_eq, erase_bind, erase_expandHops, erase_pure]
    · rfl
  simp only [bind_eq, pure_eq, erase_bind, erase_lift, erase_note, pure_bind', hexpanded, erase_pure]

theorem erase_consolidateCategory (app : AppState F) (userId : String) (now : Int) (rows : List (MemoryRow F))
    (used : List String) (created : ℕ) : (consolidateCategory app userId now rows used created).erase =
      CognitiveMemory.consolidateCategory app userId now rows used created := by
  induction rows generalizing used created with
  | nil => rfl
  | cons head rest ih =>
    rw [consolidateCategory, CognitiveMemory.consolidateCategory]
    split
    · rfl
    split
    · exact ih _ _
    · simp only [bind_eq, erase_bind, erase_note, pure_bind']
      split
      · simp only [erase_bind, erase_lift, ih]
      · exact ih _ _

theorem erase_consolidateCategories (app : AppState F) (userId : String) (now : Int) (rows : List (MemoryRow F))
    (categories : List String) (created : ℕ) : (consolidateCategories app userId now rows categories created).erase =
      CognitiveMemory.consolidateCategories app userId now rows categories created := by
  induction categories generalizing created with
  | nil => rfl
  | cons category categories ih =>
    rw [consolidateCategories, CognitiveMemory.consolidateCategories]
    have hmembers : ∀ mems, (consolidateMembers app userId now mems created).erase =
        CognitiveMemory.consolidateMembers app userId now mems created := by
      intro mems
      unfold consolidateMembers CognitiveMemory.consolidateMembers
      split
      · rfl
      · exact erase_consolidateCategory ..
    simp only [bind_eq, erase_bind, hmembers, ih]

theorem erase_consolidateUsers (app : AppState F) (now : Int) (users : List String) (created : ℕ) :
    (consolidateUsers app now users created).erase = CognitiveMemory.consolidateUsers app now users created := by
  induction users generalizing created with
  | nil => rfl
  | cons user users ih =>
    rw [consolidateUsers, CognitiveMemory.consolidateUsers]
    split
    · rfl
    · simp only [bind_eq, erase_bind, erase_lift, erase_consolidateCategories, ih]
      rfl

theorem erase_handleRequest (app : AppState F) (req : Request F) (user : String) :
    (handleRequest app req user).erase = CognitiveMemory.handleRequest app req user := by
  unfold handleRequest
  split
  · show (handleMemoryStore app _ user).erase = CognitiveMemory.handleMemoryStore app _ user
    simp only [handleMemoryStore, CognitiveMemory.handleMemoryStore, queueConflictsFor, CognitiveMemory.queueConflictsFor,
      bind_eq, pure_eq, erase_bind, erase_lift, erase_mapError, erase_search, erase_pure]
  · show (handleMemorySearch app _ user).erase = CognitiveMemory.handleMemorySearch app _ user
    simp only [handleMemorySearch, CognitiveMemory.handleMemorySearch, bind_eq, pure_eq, erase_bind, erase_lift, erase_mapError,
      erase_search, erase_pure]
  · show (handleVectorSearch app _ user).erase = CognitiveMemory.handleVectorSearch app _ user
    simp only [handleVectorSearch, CognitiveMemory.handleVectorSearch, bind_eq, pure_eq, erase_bind, erase_lift, erase_mapError,
      erase_search, erase_pure]
  · show (handleTick app).erase = CognitiveMemory.handleTick app
    have hconsolidate : ∀ now, (consolidateAtTick app now).erase = CognitiveMemory.consolidateAtTick app now := by
      intro now
      unfold consolidateAtTick CognitiveMemory.consolidateAtTick
      split
      · rfl
      · simp only [bind_eq, erase_bind, erase_lift, erase_consolidateUsers]
    simp only [handleTick, CognitiveMemory.handleTick, bind_eq, pure_eq, erase_bind, erase_lift, hconsolidate, erase_pure]
  · exact erase_lift _

end Comparing

/-! ## What is compared when -/

open Prog

section

def vectorsIn (h : Seen F) : List (List F) :=
  h.filterMap fun
    | ⟨.query (.cacheGet ..), .ok (some v)⟩ => some v
    | ⟨.provider .., .ok v⟩ => some v
    | _ => none

def clocksIn (h : Seen F) : List Int :=
  h.filterMap fun
    | ⟨.clock, now⟩ => some now
    | _ => none

def LinksWithin (t : Caller F) (h : Seen F) (rows : List (MemoryRow F)) : Prop :=
  match t.request, h with
  | .memory (.search args), ⟨.query (.edgesFromMany ..), .ok edges⟩ :: rest =>
    ∀ q ∈ vectorsIn rest, ∀ now ∈ clocksIn rest, ∀ lm ∈ attachEdges edges rows,
      (expandEntry t.app.lifecycle q (searchOptions t.app args now) lm).isSome = true →
        lm.memory.space = (some t.app.embeddings.name, some t.app.embeddings.model)
  | _, _ => True

instance (t : Caller F) (h : Seen F) (rows : List (MemoryRow F)) : Decidable (LinksWithin t h rows) := by
  unfold LinksWithin
  split <;> infer_instance

/-- Of the memories that a tick reads for consolidation, those that fade, share a category with
enough others for a group and have vectors of one dimension are of one provider and model. -/
def ClustersWithin (t : Caller F) (h : Seen F) (rows : List (MemoryRow F)) : Prop :=
  match t.request with
  | .lifecycle (.tick _) =>
    ∀ now ∈ clocksIn h, ∀ a ∈ Comparing.fading t.app now rows, ∀ b ∈ Comparing.fading t.app now rows, a.category = b.category →
      consolidationGroupSize ≤ ((Comparing.fading t.app now rows).filter (·.category == a.category)).length →
        0 < (decodeEmbedding a).length → (decodeEmbedding b).length = (decodeEmbedding a).length → a.space = b.space
  | _ => True

instance (t : Caller F) (h : Seen F) (rows : List (MemoryRow F)) : Decidable (ClustersWithin t h rows) := by
  unfold ClustersWithin
  split <;> infer_instance

/-- The two reads whose rows are compared by dimension only. -/
def OneSpace (p : Requests F) (i : ℕ) (t : Caller F) : Cmd F → Prop
  | .query (.getManyForUser user keys) => p.state.oracle.sqlFault 0 = false →
      LinksWithin t (Pool.seen p.log i) (p.state.db.getManyForUser user keys)
  | .query (.hotEmbedded user) => p.state.oracle.sqlFault 0 = false →
      ClustersWithin t (Pool.seen p.log i) (p.state.db.memories.filter fun r => r.userId == user && r.hot && r.embedding.isSome)
  | _ => True

instance (p : Requests F) (i : ℕ) (t : Caller F) (c : Cmd F) : Decidable (OneSpace p i t c) := by
  unfold OneSpace
  induction c using Cmd.casesOn with
  | query q => induction q using Query.casesOn <;> infer_instance
  | _ => infer_instance

/-- Whatever the request compares on this answer is of one provider and model. -/
def ComparesWithin (bm25 : Bm25 F) (p : Requests F) (i : ℕ) (t : Caller F) (c : Cmd F) : Prop :=
  ∀ n, TakesAt n (Comparing.handleRequest t.app t.request t.user)
    ((Pool.seen p.log i).reverse ++ [⟨c, (exec bm25 c p.state).1⟩]) → n.Within p.state.db

inductive Caller.Compares (t : Caller F) : Seen F → Comparison F → Prop
  | candidate {user provider model now deep cs c} (h : Seen F) (hc : c ∈ cs) :
      t.Compares (⟨.query (.candidatesForSearch user provider model now deep), .ok cs⟩ :: h) (.candidate provider model c)
  | linked {args q now ids weight edges user keys rows lm} (h : Seen F) (hreq : t.request = .memory (.search args))
      (hq : q ∈ vectorsIn h) (hnow : now ∈ clocksIn h) (hlm : lm ∈ attachEdges edges rows)
      (hscored : (expandEntry t.app.lifecycle q (searchOptions t.app args now) lm).isSome = true) :
      t.Compares (⟨.query (.getManyForUser user keys), .ok rows⟩ :: ⟨.query (.edgesFromMany ids weight), .ok edges⟩ :: h)
        (.linked t.app.embeddings.name t.app.embeddings.model lm.memory)
  | clustered {sync user now rows head cand} (newer older : Seen F) (hreq : t.request = .lifecycle (.tick sync))
      (hnow : now ∈ clocksIn older) (hhead : head ∈ Comparing.fading t.app now rows)
        (hcand : cand ∈ Comparing.fading t.app now rows)
      (hcategory : head.category = cand.category)
      (hsize : consolidationGroupSize ≤ ((Comparing.fading t.app now rows).filter (·.category == head.category)).length)
      (hpos : 0 < (decodeEmbedding head).length) (hlen : (decodeEmbedding cand).length = (decodeEmbedding head).length) :
      t.Compares (newer ++ ⟨.query (.hotEmbedded user), .ok rows⟩ :: older) (.clustered head cand)

theorem mem_scoredLinks {cfg : LifecycleConfig F} {q : List F} {o : SearchOptions F} {x : Expansion F}
    {linked : List (LinkedMemory F)} {row : MemoryRow F} (h : row ∈ Comparing.scoredLinks cfg q o x linked) :
    ∃ lm ∈ linked, lm.memory = row ∧ (expandEntry cfg q o lm).isSome = true := by
  induction linked generalizing x with
  | nil => cases h
  | cons lm linked ih =>
    rw [Comparing.scoredLinks] at h
    split at h
    · rename_i hscored
      rcases List.mem_cons.mp h with rfl | h
      · exact ⟨lm, List.mem_cons_self, rfl, (Bool.and_eq_true_iff.mp hscored).2⟩
      · obtain ⟨lm', hlm', hrow⟩ := ih h
        exact ⟨lm', List.mem_cons_of_mem _ hlm', hrow⟩
    · obtain ⟨lm', hlm', hrow⟩ := ih h
      exact ⟨lm', List.mem_cons_of_mem _ hlm', hrow⟩

/-- The members a head is compared with stand after it and have its dimension. -/
theorem mem_clusterScans {headVec : List F} {used : List String} {rows group : List (MemoryRow F)} {cand : MemoryRow F}
    (h : cand ∈ Comparing.clusterScans headVec used rows group) : cand ∈ rows ∧ (decodeEmbedding cand).length =
      headVec.length := by
  induction rows generalizing group with
  | nil => cases h
  | cons row rows ih =>
    have hlater : ∀ {group}, cand ∈ Comparing.clusterScans headVec used rows group →
        cand ∈ row :: rows ∧ (decodeEmbedding cand).length = headVec.length :=
      fun hcand => ⟨List.mem_cons_of_mem _ (ih hcand).1, (ih hcand).2⟩
    rw [Comparing.clusterScans] at h
    split at h
    · exact hlater h
    · rename_i hscanned
      have hlen : (decodeEmbedding row).length = headVec.length := by
        by_contra hne
        simp [hne] at hscanned
      have hhere : row ∈ row :: rows ∧ (decodeEmbedding row).length = headVec.length := ⟨List.mem_cons_self, hlen⟩
      split at h
      · rcases List.mem_cons.mp h with rfl | h
        · exact hhere
        · exact hlater h
      · split at h
        · rw [List.mem_singleton.mp h]
          exact hhere
        · rcases List.mem_cons.mp h with rfl | h
          · exact hhere
          · exact hlater h

omit [Field F] [LinearOrder F] [Elementary F] in
theorem issues_links {userId : String} {ids : List String} {weight : F} {h : Seen F} :
    (linkedForMany userId ids weight : Repo F _).Issues (fun _ _ => True) (fun linked h' => h <:+ h' ∧ (linked = [] ∨
      ∃ keys edges rows, h' = ⟨.query (.getManyForUser userId keys), .ok rows⟩ ::
        ⟨.query (.edgesFromMany ids weight), .ok edges⟩ :: h ∧
        linked = attachEdges edges rows)) h := by
  unfold linkedForMany
  split
  · exact ⟨List.suffix_refl h, .inl rfl⟩
  refine .seq (P := fun edges h' => h' = ⟨.query (.edgesFromMany ids weight), .ok edges⟩ :: h) ⟨trivial,
      fun answer => ?_⟩ fun edges h₁ h₁eq => ?_
  · cases answer with
    | error e => trivial
    | ok edges => rfl
  subst h₁eq
  unfold memoriesAt
  split
  · exact ⟨List.suffix_cons _ h, .inl rfl⟩
  unfold getManyForUser
  split
  · refine ⟨List.suffix_cons _ h, .inl ?_⟩
    rfl
  · refine .seq (P := fun rows h' => h' = ⟨.query (.getManyForUser userId (edges.map NeighborEdge.targetId)), .ok rows⟩ ::
      ⟨.query (.edgesFromMany ids weight), .ok edges⟩ :: h) ⟨trivial, fun answer => ?_⟩ fun rows h₂ h₂eq => ?_
    · cases answer with
      | error e => trivial
      | ok rows => rfl
    · subst h₂eq
      exact ⟨(List.suffix_cons _ h).trans (List.suffix_cons _ _), .inr ⟨_, edges, rows, rfl, rfl⟩⟩

/-! ### Notes of searches -/

section
variable {allows : Seen F → Comparison F → Prop} {provider model userId : String} {cfg : LifecycleConfig F} {q : List F}
  {o : SearchOptions F} {h₀ h : Seen F}

omit [Field F] [LinearOrder F] [Elementary F] in
theorem notes_lift {ε α : Type} (p : Prog (Cmd F) Cmd.Res ε α) (hh : h₀ <:+ h) :
    (p.lift : Noting (Cmd F) (Comparison F) Cmd.Res ε α).Notes allows (fun _ h' => h₀ <:+ h') h :=
  (issues_suffix p h).notes.imp fun _ _ hsuffix => hh.trans hsuffix

theorem notes_expandHops (hlinked : ∀ h' ids keys edges rows lm, h₀ <:+ h' → lm ∈ attachEdges edges rows →
      (expandEntry cfg q o lm).isSome = true →
        allows (⟨.query (.getManyForUser userId keys), .ok rows⟩ ::
          ⟨.query (.edgesFromMany ids o.minBridgeEdgeWeight), .ok edges⟩ :: h')
          (.linked provider model lm.memory))
    (hops : ℕ) (x : Expansion F) (hh : h₀ <:+ h) :
    (Comparing.expandHops provider model cfg userId q o hops x).Notes allows (fun _ h' => h₀ <:+ h') h := by
  induction hops generalizing x h with
  | zero => exact hh
  | succ hops ih =>
    rw [Comparing.expandHops]
    split
    · exact hh
    refine .seq issues_links.mapError.notes fun linked h₁ hread => ?_
    obtain ⟨hsuffix, hlinks⟩ := hread
    refine .seq (P := fun _ h' => h' = h₁) ⟨fun n hn => ?_, rfl⟩ fun _ h₂ h₂eq => ?_
    · obtain ⟨row, hrow, rfl⟩ := List.mem_map.mp hn
      obtain ⟨lm, hlm, rfl, hscored⟩ := mem_scoredLinks hrow
      rcases hlinks with rfl | ⟨keys, edges, rows, rfl, rfl⟩
      · cases hlm
      · exact hlinked h _ keys edges rows lm hh hlm hscored
    · subst h₂eq
      exact ih _ (hh.trans hsuffix)

theorem notes_search (hcandidate : ∀ h' cs c, h₀ <:+ h' → c ∈ cs →
      allows (⟨.query (.candidatesForSearch userId o.provider o.model o.now o.deepRecall), .ok cs⟩ :: h')
        (.candidate provider model c))
    (hlinked : 0 < o.graphExpansionHops → ∀ h' ids keys edges rows lm, h₀ <:+ h' → lm ∈ attachEdges edges rows →
      (expandEntry cfg q o lm).isSome = true →
        allows (⟨.query (.getManyForUser userId keys), .ok rows⟩ ::
          ⟨.query (.edgesFromMany ids o.minBridgeEdgeWeight), .ok edges⟩ :: h')
          (.linked provider model lm.memory))
    (hh : h₀ <:+ h) : (Comparing.search provider model cfg userId q o).Notes allows (fun _ h' => h₀ <:+ h') h := by
  unfold Comparing.search
  split
  · trivial
  split
  · exact hh
  have hread : ((query (.candidatesForSearch userId o.provider o.model o.now o.deepRecall)).mapError SearchError.storage).Issues
      (fun _ _ => True) (fun cs h' => h' =
        ⟨.query (.candidatesForSearch userId o.provider o.model o.now o.deepRecall), .ok cs⟩ :: h) h := by
    refine .mapError ⟨trivial, fun answer => ?_⟩
    cases answer with
    | error e => trivial
    | ok cs => rfl
  refine .seq hread.notes fun cs h₁ h₁eq => ?_
  subst h₁eq
  refine .seq (P := fun _ h' => h₀ <:+ h') ⟨fun n hn => ?_, hh.trans (List.suffix_cons _ h)⟩ fun _ h₂ hh₂ => ?_
  · obtain ⟨c, hc, rfl⟩ := List.mem_map.mp hn
    exact hcandidate h cs c hh (List.takeWhile_subset _ hc)
  refine .seq (notes_lift _ hh₂) fun dense h₃ hh₃ => .seq (notes_lift _ hh₃) fun hits h₄ hh₄ => ?_
  refine .seq (P := fun _ h' => h₀ <:+ h') ?_ fun final h₅ hh₅ => hh₅
  unfold Comparing.expandedHits
  split
  · rename_i hexpands
    exact .seq (notes_expandHops (hlinked hexpands.1) _ _ hh₄) fun _ _ hh' => hh'
  · exact hh₄

end

/-! ### Notes of requests -/

section
variable {t : Caller F} {h : Seen F}

theorem notes_dense {provider model userId : String} {cfg : LifecycleConfig F} {q : List F} {o : SearchOptions F}
    (hspace : o.provider = provider ∧ o.model = model) (hhops : o.graphExpansionHops = 0) :
    (Comparing.search provider model cfg userId q o).Notes t.Compares (fun _ _ => True) h := by
  obtain ⟨rfl, rfl⟩ := hspace
  refine (notes_search (fun h' cs c _ hc => .candidate h' hc) (fun hpos => ?_) (List.nil_suffix)).imp fun _ _ _ => trivial
  rw [hhops] at hpos
  cases hpos

theorem notes_any {ε α : Type} (p : Prog (Cmd F) Cmd.Res ε α) :
    (p.lift : Noting (Cmd F) (Comparison F) Cmd.Res ε α).Notes t.Compares (fun _ _ => True) h :=
  (notes_lift p (List.nil_suffix)).imp fun _ _ _ => trivial

theorem notes_store {args : StoreMemoryArgs F} :
    (Comparing.handleMemoryStore t.app args t.user).Notes t.Compares (fun _ _ => True) h := by
  refine .seq (notes_any _) fun _ _ _ => .seq (notes_any _) fun vector _ _ => .seq (notes_any _) fun id _ _ => ?_
  refine .seq (notes_any _) fun now _ _ => .seq (notes_any _) fun _ _ _ => .seq (P := fun _ _ => True) ?_ fun _ _ _ => trivial
  exact .seq (.mapError (notes_dense ⟨rfl, rfl⟩ rfl)) fun _ _ _ => notes_any _

theorem notes_vectorSearch {args : VectorSearchArgs F} :
    (Comparing.handleVectorSearch t.app args t.user).Notes t.Compares (fun _ _ => True) h := by
  refine .seq (notes_any _) fun _ _ _ => .seq (notes_any _) fun now _ _ => ?_
  exact .seq (.mapError (notes_dense ⟨rfl, rfl⟩ rfl)) fun _ _ _ => trivial

omit [Field F] [LinearOrder F] [Elementary F] in
/-- A text is embedded to a vector from the cache or from the provider. -/
theorem issues_embed {app : AppState F} {text : String} :
    (embed app text).Issues (fun _ _ => True) (fun v h' => v ∈ vectorsIn h') h := by
  refine .mapError ?_
  unfold cachedEmbed
  refine .seq (P := fun cached h' => ∀ v, cached = some v → v ∈ vectorsIn h') (.mapError ⟨trivial, fun answer => ?_⟩)
      fun cached h₁ hcached => ?_
  · cases answer with
    | error e => trivial
    | ok cached =>
      rintro v rfl
      exact List.mem_cons_self
  cases cached with
  | some v => exact hcached v rfl
  | none =>
    refine .seq (P := fun answer h' => ∀ v, answer = .ok v → v ∈ vectorsIn h') ⟨trivial, fun answer => ?_⟩
        fun answer h₂ hanswer => ?_
    · rintro v rfl
      exact List.mem_cons_self
    cases answer with
    | error e => trivial
    | ok v =>
      refine .seq (P := fun v' h' => v' = v ∧ h' = h₂) ⟨rfl, rfl⟩ fun v' h₃ hv => ?_
      obtain ⟨rfl, rfl⟩ := hv
      refine .seq (P := fun _ h' => v' ∈ vectorsIn h') (.mapError ⟨trivial, fun answer => ?_⟩) fun _ _ hv' => hv'
      cases answer with
      | error e => trivial
      | ok => exact hanswer v' rfl

omit [Field F] [LinearOrder F] [Elementary F] in
theorem vectorsIn_suffix {h₀ : Seen F} (hh : h₀ <:+ h) : vectorsIn h₀ ⊆ vectorsIn h := (hh.sublist.filterMap _).subset

omit [Field F] [LinearOrder F] [Elementary F] in
theorem clocksIn_suffix {h₀ : Seen F} (hh : h₀ <:+ h) : clocksIn h₀ ⊆ clocksIn h := (hh.sublist.filterMap _).subset

theorem notes_memorySearch {args : SearchMemoryArgs} (hreq : t.request = .memory (.search args)) :
    (Comparing.handleMemorySearch t.app args t.user).Notes t.Compares (fun _ _ => True) h := by
  refine .seq (notes_any _) fun _ h₁ _ => .seq issues_embed.notes fun q h₂ hq => ?_
  have hclock : (unixNow : HandlerM F Int).Issues (fun _ _ => True) (fun now h' => h' = ⟨.clock, now⟩ :: h₂) h₂ :=
    ⟨trivial, fun now => rfl⟩
  refine .seq hclock.notes fun now h₃ h₃eq => ?_
  subst h₃eq
  have hsearch : (Comparing.search t.app.embeddings.name t.app.embeddings.model t.app.lifecycle args.userId q
      (searchOptions t.app args now)).Notes t.Compares (fun _ h' => ⟨.clock, now⟩ :: h₂ <:+ h') (⟨.clock, now⟩ :: h₂) := by
    refine notes_search (fun h' cs c _ hc => .candidate h' hc) ?_ (List.suffix_refl _)
    intro _ h' ids keys edges rows lm hsuffix hlm hscored
    exact .linked h' hreq (vectorsIn_suffix hsuffix hq) (clocksIn_suffix hsuffix List.mem_cons_self) hlm hscored
  refine .seq hsearch.mapError fun results h₄ _ => .seq (notes_any _) fun bridges _ _ => ?_
  exact .seq (notes_any _) fun _ _ _ => .seq (notes_any _) fun _ _ _ => trivial

/-! ### Notes of the tick -/

section
variable {allows : Seen F → Comparison F → Prop} {app : AppState F} {now : Int} {h₀ : Seen F}

theorem notes_consolidateCategory {userId : String} {mems : List (MemoryRow F)}
    (hallows : ∀ h' head cand, h₀ <:+ h' → head ∈ mems → cand ∈ mems → 0 < (decodeEmbedding head).length →
      (decodeEmbedding cand).length = (decodeEmbedding head).length → allows h' (.clustered head cand))
    (rows : List (MemoryRow F)) (hrows : rows ⊆ mems) (used : List String) (created : ℕ) (hh : h₀ <:+ h) :
    (Comparing.consolidateCategory app userId now rows used created).Notes allows (fun _ h' => h₀ <:+ h') h := by
  induction rows generalizing used created h with
  | nil => exact hh
  | cons head rest ih =>
    have hrest : rest ⊆ mems := fun r hr => hrows (List.mem_cons_of_mem _ hr)
    rw [Comparing.consolidateCategory]
    split
    · exact hh
    split
    · exact ih hrest _ _ hh
    rename_i hhead
    have hpos : 0 < (decodeEmbedding head).length := by
      rw [List.length_pos_iff]
      intro hnil
      simp [hnil] at hhead
    refine .seq (P := fun _ h' => h₀ <:+ h') ⟨fun n hn => ?_, hh⟩ fun _ h₁ hh₁ => ?_
    · obtain ⟨cand, hcand, rfl⟩ := List.mem_map.mp hn
      obtain ⟨hmem, hlen⟩ := mem_clusterScans hcand
      exact hallows h head cand hh (hrows List.mem_cons_self) (hrest hmem) hpos hlen
    · split
      · exact .seq (notes_lift _ hh₁) fun _ h₂ hh₂ => ih hrest _ _ hh₂
      · exact ih hrest _ _ hh₁

theorem notes_consolidateCategories {userId : String} {faded : List (MemoryRow F)}
    (hallows : ∀ h' head cand, h₀ <:+ h' → head ∈ faded → cand ∈ faded → head.category = cand.category →
      consolidationGroupSize ≤ (faded.filter (·.category == head.category)).length → 0 < (decodeEmbedding head).length →
        (decodeEmbedding cand).length = (decodeEmbedding head).length → allows h' (.clustered head cand))
    (categories : List String) (created : ℕ) (hh : h₀ <:+ h) :
    (Comparing.consolidateCategories app userId now faded categories created).Notes allows (fun _ h' => h₀ <:+ h') h := by
  induction categories generalizing created h with
  | nil => exact hh
  | cons category categories ih =>
    refine .seq (P := fun _ h' => h₀ <:+ h') ?_ fun created' h₁ hh₁ => ih created' hh₁
    unfold Comparing.consolidateMembers
    split
    · exact hh
    rename_i hsize
    refine notes_consolidateCategory (fun h' head cand hh' hhead hcand hpos hlen => ?_) _ (List.Subset.refl _) _ _ hh
    obtain ⟨hhead', hcategory⟩ := List.mem_filter.mp hhead
    obtain ⟨hcand', hcategory'⟩ := List.mem_filter.mp hcand
    obtain rfl : head.category = category := beq_iff_eq.mp hcategory
    exact hallows h' head cand hh' hhead' hcand' (beq_iff_eq.mp hcategory').symm (not_lt.mp hsize) hpos hlen

theorem notes_consolidateUsers {sync : Bool} (hreq : t.request = .lifecycle (.tick sync)) (hnow : now ∈ clocksIn h₀)
    (users : List String) (created : ℕ) (hh : h₀ <:+ h) :
    (Comparing.consolidateUsers t.app now users created).Notes t.Compares (fun _ _ => True) h := by
  induction users generalizing created h with
  | nil => trivial
  | cons user users ih =>
    rw [Comparing.consolidateUsers]
    split
    · trivial
    have hread : (sqlx (query (.hotEmbedded user)) : HandlerM F (List (MemoryRow F))).Issues (fun _ _ => True)
        (fun rows h' => h' = ⟨.query (.hotEmbedded user), .ok rows⟩ :: h) h := by
      refine .mapError ⟨trivial, fun answer => ?_⟩
      cases answer with
      | error e => trivial
      | ok rows => rfl
    refine .seq hread.notes fun rows h₁ h₁eq => ?_
    subst h₁eq
    refine .seq (notes_lift _ (List.suffix_refl _)) fun categories h₂ hh₂ => ?_
    refine .seq (P := fun _ h' => h₀ <:+ h') ?_ fun created' h₃ hh₃ => ih created' hh₃
    refine (notes_consolidateCategories ?_ categories created hh₂).imp fun _ h' hh' => (hh.trans (List.suffix_cons _ h)).trans hh'
    rintro h' head cand ⟨newer, rfl⟩ hhead hcand hcategory hsize hpos hlen
    exact .clustered newer h hreq (clocksIn_suffix hh hnow) hhead hcand hcategory hsize hpos hlen

end

theorem notes_tick {sync : Bool} (hreq : t.request = .lifecycle (.tick sync)) :
    (Comparing.handleTick t.app).Notes t.Compares (fun _ _ => True) h := by
  have hclock : (unixNow : HandlerM F Int).Issues (fun _ _ => True) (fun now h' => h' = ⟨.clock, now⟩ :: h) h :=
    ⟨trivial, fun now => rfl⟩
  refine .seq hclock.notes fun now h₁ h₁eq => ?_
  have hnow : now ∈ clocksIn h₁ := h₁eq ▸ List.mem_cons_self
  refine .seq (notes_lift _ (List.suffix_refl h₁)) fun rows h₂ hh₂ => .seq (notes_lift _ hh₂) fun _ h₃ hh₃ => ?_
  refine .seq (notes_lift _ hh₃) fun stale h₄ hh₄ => .seq (notes_lift _ hh₄) fun _ h₅ hh₅ => ?_
  refine .seq (notes_lift _ hh₅) fun _ h₆ hh₆ => .seq (P := fun _ _ => True) ?_ fun _ _ _ => trivial
  unfold Comparing.consolidateAtTick
  split
  · trivial
  · exact .seq (notes_lift _ hh₆) fun users h₇ hh₇ => notes_consolidateUsers hreq hnow users 0 hh₇

theorem notes_request (t : Caller F) :
    (Comparing.handleRequest t.app t.request t.user).Notes t.Compares (fun _ _ => True) [] := by
  unfold Comparing.handleRequest
  split
  · exact notes_store
  · exact notes_memorySearch ‹_›
  · exact notes_vectorSearch
  · exact notes_tick ‹_›
  · exact notes_any _

end

/-! ## Runs -/

def ClusterReads (labels : List (Caller F)) (log : List (Event (Cmd F) Cmd.Res)) : Prop :=
  ∀ before after i t user rows, labels[i]? = some t → log = before ++ ⟨i, .query (.hotEmbedded user), .ok rows⟩ :: after →
    ClustersWithin t (Pool.seen after i) rows

omit [Elementary F] in
theorem query_answered {bm25 : Bm25 F} {w : World F} {q : Query F} {r : q.Res} (h : (exec bm25 (.query q) w).1 = .ok r) :
    w.oracle.sqlFault 0 = false ∧ q.eval bm25 w.db = .ok r := by
  unfold exec at h
  dsimp only at h
  split at h
  · cases h
  · exact ⟨Bool.not_eq_true _ ▸ ‹_›, h⟩

theorem ClusterReads.turn {p : Requests F} (h : ClusterReads (p.tasks.map Prod.fst) p.log) (bm25 : Bm25 F) {i : ℕ}
    {t : Caller F} {c : Cmd F} (hn : p.next? i = some (t, c)) (hg : OneSpace p i t c) :
    ClusterReads ((p.turn (exec bm25) i).tasks.map Prod.fst) (p.turn (exec bm25) i).log := by
  rw [Pool.labels_turn]
  obtain ⟨k, -, hturn⟩ := Pool.turn_some (x := exec bm25) hn
  rw [hturn]
  intro before after j t' user rows hlabel hsplit
  rcases List.cons_eq_append_iff.mp hsplit with ⟨rfl, hhere⟩ | ⟨before', rfl, hearlier⟩
  · -- the read of this turn
    obtain ⟨hevent, rfl⟩ := List.cons.inj hhere
    generalize hanswer : (exec bm25 c p.state).1 = answer at hevent
    cases hevent
    rw [label_of_next hn] at hlabel
    cases hlabel
    obtain ⟨hfault, heval⟩ := query_answered hanswer
    cases heval
    exact hg hfault
  · exact h before' after j t' user rows hlabel hearlier

/-- What is compared on an answer is of one provider and model, given that the reads were. -/
theorem comparesWithin_of_oneSpace {bm25 : Bm25 F} {p : Requests F} (h : ClusterReads (p.tasks.map Prod.fst) p.log) {i : ℕ}
    {t : Caller F} {c : Cmd F} (hn : p.next? i = some (t, c)) (hg : OneSpace p i t c) : ComparesWithin bm25 p i t c := by
  intro n htakes
  have hcompares : t.Compares (⟨c, (exec bm25 c p.state).1⟩ :: Pool.seen p.log i) n := by
    simpa using (notes_request t).takesAt htakes
  generalize hanswer : (exec bm25 c p.state).1 = answer at hcompares
  generalize hseen : Pool.seen p.log i = seen at hcompares
  generalize hhistory : (⟨c, answer⟩ : (c : Cmd F) × c.Res) :: seen = history at hcompares
  cases hcompares with
  | @candidate user provider model now deep cs cand older hcand =>
    cases hhistory
    obtain ⟨-, heval⟩ := query_answered hanswer
    cases heval
    obtain ⟨r, hr, rfl⟩ := List.mem_map.mp hcand
    obtain ⟨hr, hsearchable⟩ := List.mem_filter.mp hr
    simp only [MemoryRow.searchable, Bool.and_eq_true, beq_iff_eq] at hsearchable
    exact ⟨r, hr, rfl, Prod.ext hsearchable.1.1.1.1.2 hsearchable.1.1.1.2⟩
  | linked older hreq hq hnow hlm hscored =>
    cases hhistory
    obtain ⟨hfault, heval⟩ := query_answered hanswer
    cases heval
    have hlinks : LinksWithin t (Pool.seen p.log i) _ := hg hfault
    rw [hseen] at hlinks
    unfold LinksWithin at hlinks
    rw [hreq] at hlinks
    exact hlinks _ hq _ hnow _ hlm hscored
  | @clustered sync user now rows head cand newer older hreq hnow hhead hcand hcategory hsize hpos hlen =>
    have hwithin : ClustersWithin t older rows := by
      rcases List.append_eq_cons_iff.mp hhistory.symm with ⟨rfl, hhere⟩ | ⟨newer', rfl, hearlier⟩
      · cases hhere
        obtain ⟨hfault, heval⟩ := query_answered hanswer
        cases heval
        exact hseen ▸ hg hfault
      · obtain ⟨before, after, hlog, -, rfl⟩ := Pool.seen_split (hseen.trans hearlier)
        exact h before after i t user rows (label_of_next hn) hlog
    unfold ClustersWithin at hwithin
    rw [hreq] at hwithin
    exact hwithin now hnow head hhead cand hcand hcategory hsize hpos hlen

/-- In a run where every linked memory that gets a score is of the provider and model of the
search, and the fading memories of a category that have one dimension are of one provider and
model, every cosine is of two vectors of one provider and model. -/
theorem comparesWithin_of_reads {bm25 : Bm25 F} {w : World F} (ts : List (Caller F)) {schedule : List ℕ}
    (h : (accepted w ts).Meets (exec bm25) OneSpace schedule) :
    (accepted w ts).Meets (exec bm25) (ComparesWithin bm25) schedule := by
  have hstart : ClusterReads ((accepted w ts).tasks.map Prod.fst) (accepted w ts).log := by
    intro before after i t user rows _ hsplit
    exact absurd hsplit.symm (by simp [accepted, Pool.start])
  exact Pool.meets_imp (fun p i t c hp hn hg => hp.turn bm25 hn hg) (fun p i t c hp hn hg => comparesWithin_of_oneSpace hp hn hg)
    hstart h

end

/-! ### A hop across models -/

def underModel (model : String) (t : Caller ℚ) : Caller ℚ :=
  { t with app := { t.app with embeddings := { t.app.embeddings with model := model } } }

def hopSearch : Caller ℚ := { teaSearch with request := .memory (.search ⟨"alice", "tea", 5, false, false, 1, false⟩) }

theorem comparesWithin_one_model : (accepted World.quiet [batch "alice" ["tea", "milk"], hopSearch]).Meets (exec Bm25.none)
    (ComparesWithin Bm25.none) (List.replicate 13 0 ++ List.replicate 9 1) :=
  comparesWithin_of_reads _ (by decide +kernel)

/-- Alice stores a memory, and when the model has changed another one, which she links to it. Then
she searches. -/
def twoModels : List (Caller ℚ) :=
  batch "alice" ["tea"] :: [batch "alice" ["milk"], link "alice" "mem_a" "mem_", hopSearch].map (underModel "flat-2")

def firstHop : List ℕ := List.replicate 6 0 ++ List.replicate 6 1 ++ List.replicate 3 2 ++ List.replicate 4 3

def aliceRow (id content model : String) : MemoryRow ℚ :=
  { (MemoryRow.newMinimal id "alice" content "semantic" "fact" 0 : MemoryRow ℚ) with
    embedding := some [1], embeddingProvider := some "flat", embeddingModel := some model }

theorem reads_of_hop : Pool.seen ((accepted World.quiet twoModels).play (exec Bm25.none) firstHop).log 3 =
    [⟨.query (.edgesFromMany ["mem_a"] (3 / 10)), .ok [⟨"mem_", 1, some 0⟩]⟩,
      ⟨.query (.candidatesForSearch "alice" "flat" "flat-2" 0 false), .ok [.ofRow (aliceRow "mem_a" "milk" "flat-2")]⟩,
      ⟨.clock, (0 : Int)⟩, ⟨.query (.cacheGet "flat" "flat-2" []), .ok (some [1])⟩] := by
  with_unfolding_all rfl

/-- The memory of the old model is read by its id and has the dimension of the query. -/
theorem hop_across_models : ¬ ∀ (w : World ℚ) (ts : List (Caller ℚ)) (schedule : List ℕ), w.Start →
    (accepted w ts).Meets (exec Bm25.none) (ComparesWithin Bm25.none) schedule := by
  intro h
  have hnext : ((accepted World.quiet twoModels).play (exec Bm25.none) firstHop).next? 3 =
      some (underModel "flat-2" hopSearch, .query (.getManyForUser "alice" ["mem_"])) := by with_unfolding_all rfl
  have hanswer : (exec Bm25.none (.query (.getManyForUser "alice" ["mem_"]))
      ((accepted World.quiet twoModels).play (exec Bm25.none) firstHop).state).1 = .ok [aliceRow "mem_" "tea" "flat-1"] := by
    with_unfolding_all rfl
  have htakes : TakesAt (.linked "flat" "flat-2" (aliceRow "mem_" "tea" "flat-1"))
      (Comparing.handleRequest (underModel "flat-2" hopSearch).app hopSearch.request hopSearch.user)
      [⟨.query (.cacheGet "flat" "flat-2" []), .ok (some [1])⟩, ⟨.clock, (0 : Int)⟩,
        ⟨.query (.candidatesForSearch "alice" "flat" "flat-2" 0 false), .ok [.ofRow (aliceRow "mem_a" "milk" "flat-2")]⟩,
        ⟨.query (.edgesFromMany ["mem_a"] (3 / 10)), .ok [⟨"mem_", 1, some 0⟩]⟩,
        ⟨.query (.getManyForUser "alice" ["mem_"]), .ok [aliceRow "mem_" "tea" "flat-1"]⟩] := by
    -- the candidate is noted first, the linked memory when the hop has read it
    with_unfolding_all exact ⟨_, rfl, _, rfl, _, rfl, .inr ⟨_, rfl, _, rfl, .inl ⟨rfl, List.mem_cons_self⟩⟩⟩
  have hwithin := (Pool.meets_append.mp (h World.quiet twoModels (firstHop ++ [3]) quiet_start)).2.1 _ hnext
  unfold ComparesWithin at hwithin
  rw [reads_of_hop, hanswer] at hwithin
  have hspace : (aliceRow "mem_" "tea" "flat-1").space = (some "flat", some "flat-2") := hwithin _ htakes
  exact absurd hspace (by decide)

end CognitiveMemory
