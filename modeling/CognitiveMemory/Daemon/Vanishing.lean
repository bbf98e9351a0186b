import CognitiveMemory.Daemon.Coherence
import CognitiveMemory.Daemon.Reinforcement
import CognitiveMemory.Daemon.Strengthening
import CognitiveMemory.Lib.Rely
import CognitiveMemory.Lib.Selection
import CognitiveMemory.Search.Ranking

/-! A search while other connections delete the user's memories: what it still boosts and
strengthens, and where it fails. -/

namespace CognitiveMemory
open Prog
variable {F : Type}

/-! ## Output dimensions -/

def sized (dim : String → String → ℕ) : EmbeddingSpec F where
  good provider model _ v := v.length = dim provider model
  cached c := c.embedding.length = dim c.provider c.model

/-- The daemon's provider answers with vectors of its output dimension. -/
def Sized (dim : String → String → ℕ) (t : Caller F) : Prop :=
  ∀ text v, t.app.embeddings.embed text = .ok v → v.length = dim t.app.embeddings.name t.app.embeddings.model

theorem Sized.serves {dim : String → String → ℕ} (t : Caller F) (h : Sized dim t) : (sized dim).Serves t.app :=
  ⟨h, fun _ _ => .rfl⟩

structure Db.Sized (dim : String → String → ℕ) (db : Db F) : Prop where
  rows : ∀ r ∈ db.memories, r.Coherent (sized dim)
  cache : ∀ c ∈ db.embeddingCache, (sized dim).cached c

theorem Reachable.sized [Field F] [LinearOrder F] [Elementary F] {bm25 : Bm25 F} {dim : String → String → ℕ} {w : World F}
    (h : Reachable bm25 (Sized dim) anyStep w) : w.db.Sized dim := by
  refine ⟨?_, (h.sound Sized.serves).cache⟩
  refine h.keeps (J := fun w => ∀ r ∈ w.db.memories, r.Coherent (CognitiveMemory.sized dim)) Sized.serves
    (fun w₀ h₀ => by simp [h₀.db, Db.empty]) fun t w c _ hJ hall _ => ?_
  refine coherent_exec bm25 hJ hall fun userId id upd _ r hr _ => ?_
  exact hJ r hr

/-! ## Deletions -/

structure Db.Thins (db db' : Db F) : Prop where
  memories : db'.memories.Sublist db.memories
  associations : db'.associations ⊆ db.associations
  edges : ∀ a b, db'.hasMemory a → db'.hasMemory b → db'.edge? a b = db.edge? a b
  cache : db'.embeddingCache = db.embeddingCache

section
variable {db db' db'' : Db F}

theorem Db.Thins.refl (db : Db F) : db.Thins db :=
  ⟨.refl _, List.Subset.refl _, fun _ _ _ _ => rfl, rfl⟩

theorem Db.Thins.hasMemory (h : db.Thins db') {id : String} (hid : db'.hasMemory id) : db.hasMemory id := by
  obtain ⟨r, hr, rfl⟩ := hasMemory_iff.mp hid
  exact hasMemory_iff.mpr ⟨r, h.memories.subset hr, rfl⟩

theorem Db.Thins.keyed (h : db.Thins db') (hk : db.Keyed) : db'.Keyed := hk.sublist (h.memories.map _)

theorem Db.Thins.trans (h : db.Thins db') (h' : db'.Thins db'') : db.Thins db'' where
  memories := h'.memories.trans h.memories
  associations := List.Subset.trans h'.associations h.associations
  edges a b ha hb := (h'.edges a b ha hb).trans (h.edges a b (h'.hasMemory ha) (h'.hasMemory hb))
  cache := h'.cache.trans h.cache

theorem thins_delete (hk : db.Keyed) (p : MemoryRow F → Bool) : db.Thins (db.deleteMemories p) := by
  -- an id that is left is the id of no deleted row
  have hleft : ∀ id, (db.deleteMemories p).hasMemory id → ((db.memories.filter p).map MemoryRow.id).contains id = false := by
    intro id hid
    obtain ⟨r, hr, rfl⟩ := hasMemory_iff.mp hid
    obtain ⟨hmem, hkept⟩ := List.mem_filter.mp hr
    by_contra hgone
    rw [Bool.not_eq_false, List.contains_iff_mem] at hgone
    obtain ⟨r', hr', hid'⟩ := List.mem_map.mp hgone
    obtain ⟨hmem', hp⟩ := List.mem_filter.mp hr'
    rw [hk.eq_of_id hmem' hmem hid'] at hp
    simp [hp] at hkept
  refine ⟨List.filter_sublist, fun e he => List.mem_of_mem_filter he, fun a b ha hb => ?_, rfl⟩
  unfold Db.edge? Db.deleteMemories
  rw [List.find?_filter]
  congr 1
  funext e
  by_cases he : (e.sourceMemoryId == a && e.targetMemoryId == b) = true
  · have hends := he
    simp only [Bool.and_eq_true, beq_iff_eq] at hends
    rw [hends.1, hends.2, hleft a ha, hleft b hb]
    simp
  · rw [Bool.not_eq_true] at he
    simp [he]

theorem Db.Thins.weightOf [Field F] (h : db.Thins db') {a b : String} (ha : db'.hasMemory a) (hb : db'.hasMemory b) :
    db'.weightOf a b = db.weightOf a b := by
  unfold Db.weightOf
  rw [h.edges a b ha hb]

theorem Db.Thins.reinforced? (h : db.Thins db') (hk : db.Keyed) {user id : String} {f : Reinforced F}
    (hf : db'.reinforced? user id = some f) : db.reinforced? user id = some f := by
  unfold Db.reinforced? at hf ⊢
  obtain ⟨r, hr, rfl⟩ := Option.map_eq_some_iff.mp hf
  rw [find?_owned hk (h.memories.subset (List.mem_of_find?_eq_some hr)) (List.find?_some hr)]
  rfl

theorem Db.Thins.sized {dim : String → String → ℕ} (h : db.Thins db') (hs : db.Sized dim) : db'.Sized dim :=
  ⟨fun r hr => hs.rows r (h.memories.subset hr), fun c hc => hs.cache c (h.cache ▸ hc)⟩

end

def deletions : Rely (World F) where
  rel w w' := w.db.Keyed → w.db.Thins w'.db
  refl w _ := .refl w.db
  trans h h' hk := (h hk).trans (h' ((h hk).keyed hk))

def Cmd.deletes : Cmd F → Prop
  | .write (.deleteMemory ..) | .write (.deleteMany ..) | .write (.clearUser _) => True
  | _ => False

variable [Field F] [LinearOrder F]

theorem deletions_exec (bm25 : Bm25 F) {c : Cmd F} (w : World F) (hc : c.deletes) : deletions.rel w (exec bm25 c w).2 := by
  intro hk
  cases c with
  | write wr =>
    simp only [exec]
    split
    · exact .refl _
    · cases wr with
      | deleteMemory | deleteMany | clearUser => exact thins_delete hk _
      | _ => exact hc.elim
  | _ => exact hc.elim

section

/-- A Delete, a DeleteMany or a Clear of this user. -/
def Caller.deletes (user : String) (t : Caller F) : Prop :=
  t.user = user ∧ ((∃ userId id, t.request = .memory (.delete userId id)) ∨
    (∃ userId ids, t.request = .memory (.deleteMany userId ids)) ∨ ∃ userId confirm, t.request =
      .lifecycle (.clear userId confirm))

theorem only_deleting [Elementary F] {user : String} {t : Caller F} (h : t.deletes user) :
    (handleRequest t.app t.request t.user).Only Cmd.deletes := by
  obtain ⟨-, ⟨userId, id, hreq⟩ | ⟨userId, ids, hreq⟩ | ⟨userId, confirm, hreq⟩⟩ := h
  · rw [hreq]
    exact only_affectingOne (only_write trivial)
  · rw [hreq]
    exact only_affecting (only_unlessEmpty (only_write trivial))
  · rw [hreq]
    refine only_bind only_require fun _ => ?_
    split
    · trivial
    · exact only_bind (only_mapError (only_write trivial)) fun _ => trivial

end

/-! ## What a search reads -/

def Query.total (q : Query F) : Prop := ∀ bm25 db, ∃ r, q.eval bm25 db = .ok r

def Cmd.looksUp (dim : String → String → ℕ) : Cmd F → Prop
  | .clock | .order _ => True
  | .query q => q.total
  | .provider p _ => ∀ text v, p.embed text = .ok v → v.length = dim p.name p.model
  | .write (.cacheInsert row) => (sized dim).cached row
  | .write (.migrateToHotMany ..) | .write (.promoteToCore ..) => True
  | _ => False

/-- What they are answered when nothing fails and all vectors have their dimension. -/
def Answers (dim : String → String → ℕ) : (c : Cmd F) → c.Res → Prop
  | .query (.candidatesForSearch _ provider model _ _), .ok cs =>
    (cs.map SearchCandidate.id).Nodup ∧ ∀ c ∈ cs, c.embedding.length = dim provider model
  | .query (.cacheGet provider model _), .ok cached => ∀ v ∈ cached, v.length = dim provider model
  | .query _, .ok _ => True
  | .query _, .error _ => False
  | .provider p _, .ok v => v.length = dim p.name p.model
  | .provider .., .error _ => False
  | .write _, .error _ => False
  | .order keys, l => l.Perm keys
  | _, _ => True

section
variable {dim : String → String → ℕ}

omit [Field F] in
theorem yields_query {q : Query F} (hq : q.total) :
    (query q).Yields (Cmd.looksUp dim) (Answers dim) fun r => Answers dim (.query q) (.ok r) := by
  refine ⟨hq, fun answer hanswer => ?_⟩
  cases answer with
  | error e => cases q <;> exact hanswer.elim
  | ok r => exact hanswer

omit [Field F] in
theorem yields_write {w : Write F} (hw : (Cmd.write w).looksUp dim) :
    (write w).Yields (Cmd.looksUp dim) (Answers dim) fun _ => True := by
  refine ⟨hw, fun answer hanswer => ?_⟩
  cases answer with
  | error e => exact hanswer.elim
  | ok r => trivial

omit [Field F] in
theorem yields_unlessEmpty {α : Type} {xs : List α} {p : Repo F ℕ}
    (hp : p.Yields (Cmd.looksUp dim) (Answers dim) fun _ => True) :
    (unlessEmpty xs p).Yields (Cmd.looksUp dim) (Answers dim) fun _ => True := by
  unfold unlessEmpty
  split
  · trivial
  · exact hp

omit [Field F] in
theorem yields_getManyForUser (userId : String) (ids : List String) :
    (getManyForUser userId ids : Repo F _).Yields (Cmd.looksUp dim) (Answers dim) fun _ => True := by
  unfold getManyForUser
  split
  · trivial
  · exact yields_query fun _ _ => ⟨_, rfl⟩

omit [Field F] in
theorem yields_linkedForMany (userId : String) (sourceIds : List String) (minWeight : F) :
    (linkedForMany userId sourceIds minWeight).Yields (Cmd.looksUp dim) (Answers dim) fun _ => True := by
  unfold linkedForMany
  split
  · trivial
  · refine .seq (yields_query fun _ _ => ⟨_, rfl⟩) fun edges _ => ?_
    unfold memoriesAt
    split
    · trivial
    · exact .seq (yields_getManyForUser _ _) fun _ _ => trivial

section

omit [Field F] in
theorem yields_embed {app : AppState F} {text : String}
    (happ : ∀ text v, app.embeddings.embed text = .ok v → v.length = dim app.embeddings.name app.embeddings.model) :
    (embed app text).Yields (Cmd.looksUp dim) (Answers dim) fun v => v.length = dim app.embeddings.name app.embeddings.model := by
  refine .mapError (.seq (.mapError (yields_query fun _ _ => ⟨_, rfl⟩)) fun cached hcached => ?_)
  cases cached with
  | some v => exact hcached v rfl
  | none =>
    refine .seq (Q := Answers dim (.provider app.embeddings (canonicalise text))) ⟨happ, fun _ h => h⟩ fun answer hanswer => ?_
    cases answer with
    | error e => exact hanswer.elim
    | ok v =>
      refine Yields.seq (p := (Prog.ofExcept (.ok v)).mapError .provider) (Q := (· = v)) rfl fun v' hv => ?_
      subst hv
      exact .seq (.mapError (yields_write hanswer)) fun _ _ => hanswer

/-! ### No memory twice -/

variable {cfg : LifecycleConfig F} {userId : String} {queryVec : List F} {o : SearchOptions F}

theorem yields_hybridHits (ho : o.queryText.isSome) {scored : List (SearchResult F)}
    (h : (scored.map SearchResult.memoryId).Nodup) :
    (hybridHits userId o scored).Yields (Cmd.looksUp dim) (Answers dim) fun hits => (hits.map SearchResult.memoryId).Nodup := by
  unfold hybridHits
  split
  · obtain ⟨text, htext⟩ := Option.isSome_iff_exists.mp ho
    unfold fuseHybrid
    rw [htext]
    refine .seq (.mapError (yields_query fun _ _ => ⟨_, rfl⟩)) fun bm25Ids _ => ?_
    have hfused : (reciprocalRankFusion [rankedHits (scored.map SearchResult.memoryId), rankedHits bm25Ids] 60 :
        SearchM F _).Yields
        (Cmd.looksUp dim) (Answers dim) fun fused => (fused.map Prod.fst).Nodup := by
      refine ⟨trivial, fun keys hkeys => nodup_sortDesc (Selection.nodup_filterMap (k := id) ?_ ?_)⟩
      · rintro id ⟨id', score⟩ hentry
        obtain ⟨score', -, heq⟩ := Option.map_eq_some_iff.mp hentry
        exact (Prod.mk.inj heq).1.symm
      · rw [List.map_id]
        exact (List.Perm.nodup_iff hkeys).mpr (nodup_rrfScores _ _)
    refine .seq hfused fun fused hnodup => Selection.nodup_filterMap ?_ hnodup
    intro p r hr
    obtain ⟨r', hfound, rfl⟩ := Option.map_eq_some_iff.mp hr
    simpa using List.find?_some hfound
  · exact h

theorem yields_expandHops [Elementary F] (hops : ℕ) {x : Expansion F}
    (hheld : ∀ id, id ∈ x.alreadyHave ↔ id ∈ x.scored.map SearchResult.memoryId)
    (h : (x.scored.map SearchResult.memoryId).Nodup) : (expandHops cfg userId queryVec o hops x).Yields (Cmd.looksUp dim)
      (Answers dim) fun scored => (scored.map SearchResult.memoryId).Nodup := by
  induction hops generalizing x with
  | zero => exact h
  | succ hops ih =>
    rw [expandHops]
    split
    · exact h
    · refine .seq (.mapError (yields_linkedForMany _ _ _)) fun linked _ => ?_
      refine ih ?_ ?_
      · exact (held_foldl_add (x := ⟨x.alreadyHave, x.scored, []⟩) hheld h).1
      · exact (held_foldl_add (x := ⟨x.alreadyHave, x.scored, []⟩) hheld h).2

theorem yields_expandedHits [Elementary F] {scored : List (SearchResult F)} (h : (scored.map SearchResult.memoryId).Nodup) :
    (expandedHits cfg userId queryVec o scored).Yields (Cmd.looksUp dim) (Answers dim)
      fun hits => (hits.map SearchResult.memoryId).Nodup := by
  unfold expandedHits
  split
  · exact .seq (yields_expandHops _ (fun _ => .rfl) h) fun expanded hexpanded => nodup_sortDesc hexpanded
  · exact h

theorem yields_search [Elementary F] (hq : queryVec.length = dim o.provider o.model) (hpos : 0 < dim o.provider o.model)
    (ho : o.queryText.isSome) :
    (search cfg userId queryVec o).Yields (Cmd.looksUp dim) (Answers dim)
      fun results => (results.map SearchResult.memoryId).Nodup := by
  unfold search
  split
  · rename_i hempty
    rw [List.isEmpty_iff.mp hempty, List.length_nil] at hq
    exact absurd hq.symm hpos.ne'
  split
  · exact List.nodup_nil
  refine .seq (.mapError (yields_query fun _ _ => ⟨_, rfl⟩)) fun cs hcs => ?_
  obtain ⟨hnodup, hdims⟩ := hcs
  obtain ⟨dense, hdense⟩ := mapM_scoreCandidate_ok cfg o.now fun c hc => (hdims c hc).trans hq.symm
  refine .seq (yields_ofExcept (Q := fun d => d = dense) hdense rfl) fun d hd => ?_
  subst hd
  have hids : ((sortDesc SearchResult.score d).map SearchResult.memoryId).Nodup := by
    rw [(mapM_scoreCandidate hdense).2]
    refine nodup_sortDesc ?_
    rw [List.map_map]
    exact hnodup
  refine .seq (yields_hybridHits ho hids) fun hits hhits => ?_
  refine .seq (yields_expandedHits hhits) fun final hfinal => ?_
  have htaken : ((final.take o.limit).map SearchResult.memoryId).Nodup := hfinal.sublist ((List.take_sublist _ _).map _)
  exact htaken

/-! ### Bridges -/

omit [Field F] in
theorem yields_bfsFront (goal : String) (minWeight : F) (front : List (String × List String)) (visited : List String)
    (back : List (String × List String)) :
    (bfsFront goal minWeight front visited back : Repo F _).Yields (Cmd.looksUp dim) (Answers dim) fun _ => True := by
  induction front generalizing visited back with
  | nil => trivial
  | cons entry front ih =>
    refine .seq (yields_query fun _ _ => ⟨_, rfl⟩) fun edges _ => ?_
    split
    · trivial
    · exact ih _ _

omit [Field F] in
theorem yields_bfsLevels (goal : String) (minWeight : F) (depth : ℕ) (front : List (String × List String))
    (visited : List String) :
    (bfsLevels goal minWeight depth front visited : Repo F _).Yields (Cmd.looksUp dim) (Answers dim) fun _ => True := by
  induction depth generalizing front visited with
  | zero => trivial
  | succ depth ih =>
    refine .seq (yields_bfsFront _ _ _ _ _) fun found _ => ?_
    cases found with
    | inl path => trivial
    | inr rest => exact ih _ _

omit [Field F] in
theorem yields_bridgeChains (pairs : List (String × String)) (chains : List (List String)) :
    (bridgeChains o pairs chains).Yields (Cmd.looksUp dim) (Answers dim) fun _ => True := by
  induction pairs generalizing chains with
  | nil => trivial
  | cons pair pairs ih =>
    rw [bridgeChains]
    split
    · exact ih _
    · refine .seq (.mapError (yields_bfsLevels _ _ _ _ _)) fun path _ => ?_
      cases path <;> exact ih _

omit [Field F] in
theorem yields_findBridges (anchors : List String) :
    (findBridges anchors o).Yields (Cmd.looksUp dim) (Answers dim) fun _ => True := by
  unfold findBridges
  split
  · trivial
  · exact yields_bridgeChains _ _

end

omit [Field F] in
theorem yields_restoreCold (userId : String) (ids : List String) :
    (restoreCold userId ids : HandlerM F Unit).Yields (Cmd.looksUp dim) (Answers dim) fun _ => True := by
  refine .seq (.mapError (yields_getManyForUser _ _)) fun rows _ => ?_
  exact .seq (.mapError (yields_unlessEmpty (yields_write trivial))) fun _ _ => trivial

end

/-! ## What is left of a store -/

/-- The memories of the user and the edges that are left of `db₀`: `touch` was done to the fields
retrieval reinforces, `bump` to the weights. -/
structure Remains (user : String) (db₀ : Db F) (touch : String → Reinforced F → Reinforced F)
    (bump : String → String → F → F) (db : Db F) : Prop where
  keyed : db.Keyed
  weighted : db.Weighted
  fields : ∀ id f, db.reinforced? user id = some f → ∃ f₀, db₀.reinforced? user id = some f₀ ∧ f = touch id f₀
  weights : ∀ a b, db.hasMemory a → db.hasMemory b → db.weightOf a b = bump a b (db₀.weightOf a b)

structure Shown (user : String) (ids : List String) (rows : List (MemoryRow F)) (db : Db F) : Prop where
  nodup : (rows.map MemoryRow.id).Nodup
  shows : ∀ id f, db.reinforced? user id = some f →
    if id ∈ ids then ∃ r ∈ rows, r.id = id ∧ r.reinforced = f else id ∉ rows.map MemoryRow.id

omit [Field F] [LinearOrder F] in
theorem shown_getManyForUser {db : Db F} (hk : db.Keyed) (user : String) (ids : List String) :
    Shown user ids (db.getManyForUser user ids) db := by
  have hperm := List.perm_insertionSort (fun a b : MemoryRow F => ids.idxOf a.id ≤ ids.idxOf b.id)
    (db.memories.filter fun r => r.userId == user && ids.contains r.id)
  refine ⟨(hperm.map _).nodup_iff.mpr (hk.sublist (List.Sublist.map _ List.filter_sublist)), fun id f hf => ?_⟩
  unfold Db.reinforced? at hf
  obtain ⟨r, hr, rfl⟩ := Option.map_eq_some_iff.mp hf
  have hmem := List.mem_of_find?_eq_some hr
  have ho := List.find?_some hr
  simp only [owned, Bool.and_eq_true, beq_iff_eq] at ho
  obtain ⟨rfl, rfl⟩ := ho
  split
  · exact ⟨r, mem_getManyForUser.mpr ⟨hmem, rfl, ‹_›⟩, rfl, rfl⟩
  · intro hid
    obtain ⟨r', hr', heq⟩ := List.mem_map.mp hid
    have hids := (mem_getManyForUser.mp hr').2.2
    rw [heq] at hids
    exact absurd hids ‹_›

omit [Field F] [LinearOrder F] in
theorem Shown.thins {db db' : Db F} {user : String} {ids : List String} {rows : List (MemoryRow F)}
    (h : Shown user ids rows db) (hk : db.Keyed) (ht : db.Thins db') : Shown user ids rows db' :=
  ⟨h.nodup, fun id f hf => h.shows id f (ht.reinforced? hk hf)⟩

def retrieves (cfg : LifecycleConfig F) (retrieved : List (String × ResultSource)) (now : Int) (id : String)
    (f : Reinforced F) :
    Reinforced F :=
  if id ∈ retrieved.map Prod.fst then (Touch.retrieve (sourceOf retrieved id) now).apply cfg f else f

def coRetrieves (pairs : List (String × String)) (a b : String) (weight : F) : F :=
  if (a, b) ∈ bothWays pairs then min 1 (weight + 1 / 10) else weight

namespace Remains
variable {user : String} {db₀ db db' : Db F} {touch : String → Reinforced F → Reinforced F} {bump : String → String → F → F}

theorem thins (h : Remains user db₀ touch bump db) (ht : db.Thins db') : Remains user db₀ touch bump db' where
  keyed := ht.keyed h.keyed
  weighted e he := h.weighted e (ht.associations he)
  fields id f hf := h.fields id f (ht.reinforced? h.keyed hf)
  weights a b ha hb := (ht.weightOf ha hb).trans (h.weights a b (ht.hasMemory ha) (ht.hasMemory hb))

theorem restate {touch' : String → Reinforced F → Reinforced F} (h : Remains user db₀ touch bump db)
    (hfollows : db'.Follows db) (hassoc : db'.associations = db.associations)
    (hfields : ∀ id f', db'.reinforced? user id = some f' → ∃ f₀, db₀.reinforced? user id = some f₀ ∧ f' = touch' id f₀) :
    Remains user db₀ touch' bump db' := by
  have hstored : ∀ id, db'.hasMemory id → db.hasMemory id := fun id => (hasMemory_of_ids hfollows.ids id).mpr
  refine ⟨?_, fun e he => h.weighted e (hassoc ▸ he), hfields, fun a b ha hb => ?_⟩
  · unfold Db.Keyed
    rw [hfollows.ids]
    exact h.keyed
  · rw [← h.weights a b (hstored a ha) (hstored b hb)]
    unfold Db.weightOf Db.edge?
    rw [hassoc]

theorem modifyEach {α : Type} (h : Remains user db₀ touch bump db) {p : α → MemoryRow F → Bool}
    {f : α → MemoryRow F → MemoryRow F}
    (hf : ∀ x r, (f x r).Follows r) (hsame : ∀ x r, (f x r).reinforced = r.reinforced) (xs : List α) :
    Remains user db₀ touch bump (db.modifyEach p f xs).1 := by
  refine h.restate (follows_modifyEach db p hf xs) (sameRest_modifyEach db p f xs).associations fun id x hx => h.fields id x ?_
  rwa [reinforced?_modifyEach db (fun x r => ?_) hsame] at hx
  unfold owned
  rw [(hf x r).userId, (hf x r).id]

/-- The boost of the rows just read, none of which has changed since. -/
theorem boost (h : Remains user db₀ (fun _ f => f) bump db) {cfg : LifecycleConfig F}
    {retrieved : List (String × ResultSource)}
    {now : Int} {sessionId : String} {rows : List (MemoryRow F)} (hrows : Shown user (retrieved.map Prod.fst) rows db) :
    Remains user db₀ (retrieves cfg retrieved now) bump (db.modifyEach (fun b => owned user b.1)
      (fun b => boostRow b.2 now sessionId)
        (rows.map fun r => (r.id, boostedStability cfg (sourceOf retrieved r.id) now r))).1 := by
  let boosts := rows.map fun r => (r.id, boostedStability cfg (sourceOf retrieved r.id) now r)
  have hids : boosts.map Prod.fst = rows.map MemoryRow.id := by simp [boosts]
  have hfollows := follows_modifyEach db (fun b : String × F => owned user b.1)
    (f := fun b => boostRow b.2 now sessionId) (fun _ _ => ⟨rfl, rfl, rfl, rfl, rfl, .inl rfl⟩) boosts
  refine h.restate hfollows (sameRest_modifyEach _ _ _ _).associations fun id f' hf' => ?_
  rw [reinforced?_boost] at hf'
  obtain ⟨f, hf, rfl⟩ := Option.map_eq_some_iff.mp hf'
  obtain ⟨f₀, hf₀, rfl⟩ := h.fields id f hf
  have hid := hrows.shows id f hf
  refine ⟨f, hf₀, ?_⟩
  unfold retrieves
  split
  · rw [if_pos ‹_›] at hid
    obtain ⟨r, hr, rfl, rfl⟩ := hid
    exact foldl_boostStep_mem _ (hids ▸ hrows.nodup) (List.mem_map.mpr ⟨r, hr, rfl⟩)
  · rw [if_neg ‹_›] at hid
    exact foldl_boostStep_other _ (hids ▸ hid)

end Remains

/-! ### Co-retrieval -/

theorem coRetrieves_nil : (coRetrieves [] : String → String → F → F) = fun _ _ weight => weight := by
  funext a b weight
  exact if_neg List.not_mem_nil

theorem mem_bothWays {pairs : List (String × String)} {a b : String} :
    (a, b) ∈ bothWays pairs ↔ (a, b) ∈ pairs ∨ (b, a) ∈ pairs := by
  unfold bothWays
  rw [List.mem_flatMap]
  constructor
  · rintro ⟨⟨x, y⟩, hp, hab⟩
    rcases List.mem_pair.mp hab with heq | heq <;> cases heq
    · exact .inl hp
    · exact .inr hp
  · rintro (h | h)
    · exact ⟨_, h, List.mem_cons_self⟩
    · exact ⟨_, h, List.mem_cons_of_mem _ List.mem_cons_self⟩

/-- Every edge of the pairs among distinct memories is bumped once. -/
theorem nodup_bothWays {ids : List String} (h : ids.Nodup) : (bothWays (orderedPairs ids)).Nodup := by
  induction ids with
  | nil => exact List.nodup_nil
  | cons x xs ih =>
    obtain ⟨hx, hxs⟩ := List.nodup_cons.mp h
    have hsplit : bothWays (orderedPairs (x :: xs)) = bothWays (xs.map fun y => (x, y)) ++ bothWays (orderedPairs xs) :=
      List.flatMap_append
    have hends : ∀ {a b : String}, (a, b) ∈ bothWays (orderedPairs xs) → a ∈ xs ∧ b ∈ xs := fun hab => by
      rcases mem_bothWays.mp hab with hab | hab
      · exact mem_orderedPairs hab
      · exact (mem_orderedPairs hab).symm
    rw [hsplit]
    refine List.Nodup.append ?_ (ih hxs) ?_
    · unfold bothWays
      rw [List.flatMap_map, List.nodup_flatMap]
      refine ⟨fun y hy => ?_, hxs.pairwise_of_forall_ne fun y hy z hz hne => ?_⟩
      · have hxy : x ≠ y := fun heq => hx (heq ▸ hy)
        simp [hxy]
      · have hxy : x ≠ y := fun heq => hx (heq ▸ hy)
        have hxz : x ≠ z := fun heq => hx (heq ▸ hz)
        simp [Function.onFun, hxy, hxz.symm, Ne.symm hne]
    · rintro ⟨a, b⟩ hab hab'
      obtain ⟨ha, hb⟩ := hends hab'
      rcases mem_bothWays.mp hab with hab | hab
      · obtain ⟨y, -, heq⟩ := List.mem_map.mp hab
        cases heq
        exact hx ha
      · obtain ⟨y, -, heq⟩ := List.mem_map.mp hab
        cases heq
        exact hx hb

theorem strengthenPairs_ok {pairs : List (String × String)} {amount : F} {now : Int} {kind : String} {db : Db F}
    (h : ∀ p ∈ pairs, db.hasMemory p.1 ∧ db.hasMemory p.2) : ∃ db', db.strengthenPairs pairs amount now kind = .ok db' := by
  have hall : ∀ es : List (String × String), (∀ e ∈ es, db.hasMemory e.1 ∧ db.hasMemory e.2) → ∀ d : Db F,
      d.memories = db.memories → ∃ db', es.foldlM (Db.strengthenEdge amount now kind) d = .ok db' := by
    intro es hes
    induction es with
    | nil => exact fun d _ => ⟨d, rfl⟩
    | cons e es ih =>
      intro d hd
      obtain ⟨he, hes⟩ := List.forall_mem_cons.mp hes
      have hone : ∃ d', Db.strengthenEdge amount now kind d e = .ok d' := by
        unfold Db.strengthenEdge Db.upsertAssociation
        split
        · exact ⟨_, rfl⟩
        · have hends : d.hasMemory e.1 && d.hasMemory e.2 := by
            unfold Db.hasMemory at he ⊢
            rw [hd, he.1, he.2]
            rfl
          rw [if_pos hends]
          exact ⟨_, rfl⟩
      obtain ⟨d', hd'⟩ := hone
      obtain ⟨db', hdb'⟩ := ih hes d' ((upsertAssociation_memories hd').1.trans hd)
      exact ⟨db', by rw [List.foldlM_cons, hd']; exact hdb'⟩
  refine hall _ (fun e he => ?_) db rfl
  rcases mem_bothWays.mp he with he | he
  · exact h _ he
  · exact (h _ he).symm

theorem Remains.strengthen [IsStrictOrderedRing F] {user : String} {db₀ db db' : Db F}
    {touch : String → Reinforced F → Reinforced F}
    (h : Remains user db₀ touch (fun _ _ x => x) db) {ids : List String} (hnodup : ids.Nodup) {now : Int} {kind : String}
    (hdb' : db.strengthenPairs (orderedPairs ids) (1 / 10) now kind = .ok db') :
    Remains user db₀ touch (coRetrieves (orderedPairs ids)) db' := by
  have hmem := (strengthenPairs_memories hdb').1
  have htenth : (0 : F) ≤ 1 / 10 := by norm_num
  refine ⟨?_, weighted_strengthen htenth h.weighted hdb', fun id f hf => h.fields id f ?_, fun a b ha hb => ?_⟩
  · unfold Db.Keyed
    rw [hmem]
    exact h.keyed
  · unfold Db.reinforced? at hf ⊢
    rwa [hmem] at hf
  · rw [weightOf_strengthen a b h.weighted htenth hdb', (nodup_bothWays hnodup).count]
    unfold Db.hasMemory at ha hb
    rw [hmem] at ha hb
    unfold coRetrieves
    rw [← h.weights a b ha hb]
    split
    · rw [Nat.cast_one, one_mul]
    · rw [Nat.cast_zero, zero_mul, add_zero, min_eq_right (h.weighted.weightOf a b).2]

/-! ## A search, command by command -/

def boostedBy : (c : Cmd F) × c.Res → List String
  | ⟨.write (.applyDirectBoost _ boosts _ _), .ok _⟩ => boosts.map Prod.fst
  | _ => []

def boostedIds (h : History (Cmd F) Cmd.Res) : List String := h.flatMap boostedBy

def lastRead : History (Cmd F) Cmd.Res → List (MemoryRow F)
  | ⟨.query (.getManyForUser ..), .ok rows⟩ :: _ => rows
  | _ => []

/-- No statement fails below SQLite, the provider answers, no memory about to be boosted is a
stub, and all memories whose edges are about to be strengthened are still there. -/
def Spares (h : History (Cmd F) Cmd.Res) (w : World F) : Cmd F → Prop
  | .query _ => w.oracle.sqlFault 0 = false
  | .provider p text => w.oracle.providerFault 0 = false ∧ (p.embed text).toOption.isSome
  | .ulid _ => ∀ r ∈ lastRead h, r.isStub = false
  | .write (.strengthenPairs pairs ..) => w.oracle.sqlFault 0 = false ∧ ∀ p ∈ pairs, w.db.hasMemory p.1 ∧ w.db.hasMemory p.2
  | .write _ => w.oracle.sqlFault 0 = false
  | _ => True

/-- How far a search has come: what it has done to the store it began on, and seen. -/
structure Stage (user : String) (db₀ : Db F) (dim : String → String → ℕ) (touch : String → Reinforced F → Reinforced F)
    (past : History (Cmd F) Cmd.Res) (boosted : List String) (h : History (Cmd F) Cmd.Res) (w : World F) : Prop where
  remains : Remains user db₀ touch (fun _ _ x => x) w.db
  sized : w.db.Sized dim
  past : past ⊆ h
  boosted : boostedIds h = boosted

/-- How a search ends with these results: it boosted the rows it found for them, each once, and
left the store so but for deletions. -/
structure Recalled (app : AppState F) (user : String) (db₀ : Db F) (results : List (SearchResult F)) (now : Int)
    (found : List (MemoryRow F)) (h : History (Cmd F) Cmd.Res) (db : Db F) : Prop where
  clock : ⟨.clock, now⟩ ∈ h
  read : results ≠ [] → ⟨.query (.getManyForUser user (results.map SearchResult.memoryId)), .ok found⟩ ∈ h
  once : (found.map MemoryRow.id).Nodup
  boosted : boostedIds h = found.map MemoryRow.id
  remains : Remains user db₀ (retrieves app.lifecycle (results.map fun r => (r.memoryId, r.source)) now)
    (coRetrieves (orderedPairs ((results.map SearchResult.memoryId).take 10))) db

section
variable {user : String} {db₀ : Db F} {dim : String → String → ℕ} {touch : String → Reinforced F → Reinforced F}
  {past h : History (Cmd F) Cmd.Res} {boosted : List String} {w w' : World F}

theorem Stage.thins (hs : Stage user db₀ dim touch past boosted h w) (hr : deletions.rel w w') :
    Stage user db₀ dim touch past boosted h w' := by
  have ht := hr hs.remains.keyed
  exact ⟨hs.remains.thins ht, ht.sized hs.sized, hs.past, hs.boosted⟩

theorem Stage.next (hs : Stage user db₀ dim touch past boosted h w) {e : (c : Cmd F) × c.Res} (he : boostedBy e = [])
    {touch' : String → Reinforced F → Reinforced F} (hremains : Remains user db₀ touch' (fun _ _ x => x) w'.db)
      (hsized : w'.db.Sized dim) :
    Stage user db₀ dim touch' past boosted (e :: h) w' := by
  refine ⟨hremains, hsized, fun x hx => List.mem_cons_of_mem _ (hs.past hx), ?_⟩
  rw [boostedIds, List.flatMap_cons, he]
  exact hs.boosted

omit [Field F] [LinearOrder F] in
theorem sized_modifyEach {α : Type} {db : Db F} (hs : db.Sized dim) {p : α → MemoryRow F → Bool}
    {f : α → MemoryRow F → MemoryRow F}
    (hf : ∀ x r, (f x r).Follows r) (xs : List α) : (db.modifyEach p f xs).1.Sized dim := by
  refine ⟨fun r hr => ?_, fun c hc => hs.cache c ((sameRest_modifyEach db p f xs).embeddingCache ▸ hc)⟩
  obtain ⟨r₀, hr₀, hfr⟩ := (follows_modifyEach db p hf xs).mem hr
  exact (hs.rows r₀ hr₀).follows hfr

omit [Field F] in
theorem answers_eval {bm25 : Bm25 F} {db : Db F} (hk : db.Keyed) (hs : db.Sized dim) {q : Query F} {r : q.Res}
    (hq : q.eval bm25 db = .ok r) : Answers dim (.query q) (.ok r) := by
  cases q with
  | candidatesForSearch userId provider model now includeExpired =>
    cases hq
    refine ⟨?_, fun c hc => ?_⟩
    · rw [List.map_map]
      exact hk.sublist (List.Sublist.map _ List.filter_sublist)
    · obtain ⟨r, hr, rfl⟩ := List.mem_map.mp hc
      obtain ⟨hmem, hsearchable⟩ := List.mem_filter.mp hr
      simp only [MemoryRow.searchable, Bool.and_eq_true, beq_iff_eq] at hsearchable
      obtain ⟨⟨⟨⟨⟨⟨-, hsome⟩, hprovider⟩, hmodel⟩, -⟩, -⟩, -⟩ := hsearchable
      obtain ⟨v, hv⟩ := Option.isSome_iff_exists.mp hsome
      obtain ⟨provider', model', hp, hm, hlen⟩ := hs.rows r hmem v hv
      rw [hprovider] at hp
      rw [hmodel] at hm
      cases hp
      cases hm
      have hget : (r.embedding.getD []).length = v.length := by rw [hv]; rfl
      exact hget.trans hlen
  | cacheGet provider model hash =>
    cases hq
    intro v hv
    obtain ⟨c, hc, rfl⟩ := Option.map_eq_some_iff.mp hv
    have hkey := List.find?_some hc
    simp only [Bool.and_eq_true, beq_iff_eq] at hkey
    rw [← hkey.1.1, ← hkey.1.2]
    exact hs.cache c (List.mem_of_find?_eq_some hc)
  | _ => trivial

theorem Stage.lookup (bm25 : Bm25 F) (hs : Stage user db₀ dim touch past boosted h w) {c : Cmd F} (hc : c.looksUp dim)
    (hg : Spares h w c) : Answers dim c (exec bm25 c w).1 ∧
      Stage user db₀ dim touch past boosted (⟨c, (exec bm25 c w).1⟩ :: h) (exec bm25 c w).2 := by
  cases c with
  | clock => exact ⟨trivial, hs.next rfl hs.remains hs.sized⟩
  | order keys => exact ⟨w.oracle.order_perm 0 keys, hs.next rfl hs.remains hs.sized⟩
  | query q =>
    have hfault : ¬ w.oracle.sqlFault 0 = true := by simp [show w.oracle.sqlFault 0 = false from hg]
    obtain ⟨r, hr⟩ := hc bm25 w.db
    refine ⟨?_, hs.next rfl hs.remains hs.sized⟩
    simp only [exec, if_neg hfault, hr]
    exact answers_eval hs.remains.keyed hs.sized hr
  | provider p text =>
    obtain ⟨hfault, hsome⟩ := hg
    refine ⟨?_, hs.next rfl hs.remains hs.sized⟩
    simp only [exec, hfault, Bool.false_eq_true, if_false]
    cases hv : p.embed text with
    | error e =>
      rw [hv] at hsome
      cases hsome
    | ok v => exact hc text v hv
  | write wr =>
    have hfault : w.oracle.sqlFault 0 = false := by
      cases wr with
      | strengthenPairs => exact hg.1
      | _ => exact hg
    -- a look-up writes to the cache, restores and promotes, and no more
    have hexec : ∀ {r : wr.Res} {db : Db F}, wr.apply w.db = .ok (r, db) →
        exec bm25 (.write wr) w = (.ok r, w.answer db) := fun happly => by
      simp only [exec, hfault, Bool.false_eq_true, if_false, happly]
    cases wr with
    | cacheInsert row =>
      have hcache : (w.db.cacheInsert row).memories = w.db.memories ∧ (w.db.cacheInsert row).associations = w.db.associations ∧
          ∀ c ∈ (w.db.cacheInsert row).embeddingCache, c ∈ w.db.embeddingCache ∨ c = row := by
        unfold Db.cacheInsert
        split
        · exact ⟨rfl, rfl, fun c hc => .inl hc⟩
        · exact ⟨rfl, rfl, fun c hc => (List.mem_append.mp hc).imp_right List.mem_singleton.mp⟩
      obtain ⟨hmem, hassoc, hrows⟩ := hcache
      rw [hexec rfl]
      refine ⟨trivial, hs.next rfl
          (hs.remains.restate (.of_memories_eq hmem) hassoc fun id f hf => hs.remains.fields id f ?_) ⟨?_, ?_⟩⟩
      · unfold Db.reinforced? at hf ⊢
        rwa [← hmem]
      · exact fun r hr => hs.sized.rows r (hmem ▸ hr)
      · intro c' hc'
        rcases hrows c' hc' with hc' | rfl
        · exact hs.sized.cache c' hc'
        · exact hc
    | migrateToHotMany userId ids =>
      rw [hexec rfl]
      have hfollows : ∀ (_ : String) (r : MemoryRow F), (restoreRow r).Follows r := fun _ r => ⟨rfl, rfl, rfl, rfl, rfl, .inl rfl⟩
      exact ⟨trivial, hs.next rfl (hs.remains.modifyEach hfollows (fun _ _ => rfl) ids) (sized_modifyEach hs.sized hfollows ids)⟩
    | promoteToCore userId ids =>
      rw [hexec rfl]
      have hfollows : ∀ (_ : String) (r : MemoryRow F),
          MemoryRow.Follows { r with category := "core", retentionFloor := 6 / 10 } r :=
        fun _ r => ⟨rfl, rfl, rfl, rfl, rfl, .inl rfl⟩
      exact ⟨trivial, hs.next rfl (hs.remains.modifyEach hfollows (fun _ _ => rfl) ids) (sized_modifyEach hs.sized hfollows ids)⟩
    | _ => exact hc.elim
  | _ => exact hc.elim

theorem Stage.along {α : Type} {ε : Type} {bm25 : Bm25 F} {p : Prog (Cmd F) Cmd.Res ε α} {Q : α → Prop}
    (hs : Stage user db₀ dim touch past boosted h w) (hp : p.Yields (Cmd.looksUp dim) (Answers dim) Q) :
    p.Withstands (exec bm25) deletions Spares (fun a h' w' => Q a ∧ Stage user db₀ dim touch past boosted h' w') h w :=
  hp.withstands (J := Stage user db₀ dim touch past boosted) (fun _ _ _ hr hs => hs.thins hr)
    (fun _ _ _ hc hs hg => hs.lookup bm25 hc hg) hs

variable {app : AppState F} {bm25 : Bm25 F}

theorem withstands_getManyForUser {ids : List String} (hne : ids ≠ []) (hs : Stage user db₀ dim touch past boosted h w) :
    (getManyForUser user ids : Repo F _).Withstands (exec bm25) deletions Spares (fun found h' w' => lastRead h' = found ∧
      Shown user ids found w'.db ∧
      Stage user db₀ dim touch (⟨.query (.getManyForUser user ids), .ok found⟩ :: past) boosted h' w') h w := by
  unfold getManyForUser
  rw [if_neg (by simpa using hne)]
  intro w₁ hr hg
  have hs₁ := hs.thins hr
  have hfault : ¬ w₁.oracle.sqlFault 0 = true := by simp [show w₁.oracle.sqlFault 0 = false from hg]
  have hexec : exec bm25 (.query (.getManyForUser user ids)) w₁ = (.ok (w₁.db.getManyForUser user ids), w₁.answer w₁.db) := by
    simp only [exec, if_neg hfault, Query.eval]
  rw [hexec]
  have hrows := shown_getManyForUser hs₁.remains.keyed user ids
  refine fun w₂ hr₂ => ⟨rfl, hrows.thins hs₁.remains.keyed (hr₂ hs₁.remains.keyed), Stage.thins ?_ hr₂⟩
  exact ⟨hs₁.remains, hs₁.sized, List.cons_subset_cons _ hs₁.past, hs₁.boosted⟩

/-- Whatever of the rows is deleted after they were read, what is left is boosted once. -/
theorem withstands_applyDirectBoost {retrieved : List (String × ResultSource)} {now : Int} {sessionId : String}
    {found : List (MemoryRow F)} (hrows : Shown user (retrieved.map Prod.fst) found w.db)
    (hs : Stage user db₀ dim (fun _ f => f) past [] h w) :
    (applyDirectBoost user (found.map fun r => (r.id, boostedStability app.lifecycle (sourceOf retrieved r.id) now r)) now
      sessionId).Withstands (exec bm25) deletions Spares (fun _ => Stage user db₀ dim (retrieves app.lifecycle retrieved now) past
        (found.map MemoryRow.id)) h w := by
  unfold applyDirectBoost unlessEmpty
  split
  · -- nothing was found, so nothing is left to be boosted
    have hnone : found = [] := List.map_eq_nil_iff.mp (List.isEmpty_iff.mp ‹_›)
    subst hnone
    refine fun w₁ hr => Stage.thins ⟨?_, hs.sized, hs.past, hs.boosted⟩ hr
    have hnothing : ∀ db : Db F,
        (db.modifyEach (fun b : String × F => owned user b.1) (fun b => boostRow b.2 now sessionId) []).1 = db :=
      fun _ => rfl
    rw [← hnothing w.db]
    exact hs.remains.boost hrows
  · intro w₁ hr hg
    have hs₁ := hs.thins hr
    let boosts := found.map fun r => (r.id, boostedStability app.lifecycle (sourceOf retrieved r.id) now r)
    have hfault : ¬ w₁.oracle.sqlFault 0 = true := by simp [show w₁.oracle.sqlFault 0 = false from hg]
    have hexec : exec bm25 (.write (.applyDirectBoost user boosts now sessionId)) w₁ =
        (.ok (w₁.db.modifyEach (fun b => owned user b.1) (fun b => boostRow b.2 now sessionId) boosts).2,
          w₁.answer (w₁.db.modifyEach (fun b => owned user b.1) (fun b => boostRow b.2 now sessionId) boosts).1) := by
      simp only [exec, if_neg hfault, Write.apply]
    have hfollows : ∀ (b : String × F) (r : MemoryRow F), (boostRow b.2 now sessionId r).Follows r :=
      fun _ _ => ⟨rfl, rfl, rfl, rfl, rfl, .inl rfl⟩
    rw [hexec]
    refine fun w₂ hr₂ => Stage.thins ⟨?_, sized_modifyEach hs₁.sized hfollows boosts, ?_, ?_⟩ hr₂
    · exact hs₁.remains.boost (hrows.thins hs.remains.keyed (hr hs.remains.keyed))
    · exact fun e he => List.mem_cons_of_mem _ (hs₁.past he)
    · have hids : boosts.map Prod.fst = found.map MemoryRow.id := by simp [boosts]
      have hbefore : h.flatMap boostedBy = [] := hs₁.boosted
      rw [boostedIds, List.flatMap_cons, hbefore, List.append_nil]
      exact hids

theorem withstands_boosts {retrieved : List (String × ResultSource)} (hne : retrieved ≠ []) {now : Int}
    (hs : Stage user db₀ dim (fun _ f => f) past [] h w) :
    (applyPostRetrievalStrengthening app user retrieved now).Withstands (exec bm25) deletions Spares
      (fun _ h' w' => ∃ found : List (MemoryRow F), (found.map MemoryRow.id).Nodup ∧
        Stage user db₀ dim (retrieves app.lifecycle retrieved now)
          (⟨.query (.getManyForUser user (retrieved.map Prod.fst)), .ok found⟩ :: past) (found.map MemoryRow.id) h' w') h w := by
  refine .seq (.mapError (withstands_getManyForUser (by simpa using hne) hs)) fun found h₁ w₁ hfound => ?_
  obtain ⟨hlast, hrows₁, hs₁⟩ := hfound
  have hulid : (Prog.call (Cmd.ulid user) : HandlerM F String).Withstands (exec bm25) deletions Spares
      (fun _ h' w' => (∀ r ∈ found, r.isStub = false) ∧ Shown user (retrieved.map Prod.fst) found w'.db ∧
        Stage user db₀ dim (fun _ f => f) (⟨.query (.getManyForUser user (retrieved.map Prod.fst)), .ok found⟩ :: past) [] h' w')
      h₁ w₁ := by
    intro w₂ hr hg w₃ hr₃
    have hs₂ := hs₁.thins hr
    have hrows₂ := hrows₁.thins hs₁.remains.keyed (hr hs₁.remains.keyed)
    refine ⟨fun r hrow => hg r (hlast ▸ hrow), hrows₂.thins hs₂.remains.keyed (hr₃ hs₂.remains.keyed), Stage.thins ?_ hr₃⟩
    exact hs₂.next rfl hs₂.remains hs₂.sized
  refine .seq hulid fun u h₂ w₂ hlive => ?_
  obtain ⟨hstubs, hrows₂, hs₂⟩ := hlive
  have hall : found.filter (fun r => !r.isStub) = found := List.filter_eq_self.mpr fun r hr => by
    rw [hstubs r hr]
    rfl
  rw [hall]
  refine .seq (.mapError (withstands_applyDirectBoost hrows₂ hs₂)) fun _ h₃ w₃ hs₃ => ?_
  refine .seq (hs₃.along (.mapError (yields_unlessEmpty (yields_write trivial)))) fun _ h₄ w₄ hs₄ => ?_
  exact fun w₅ hr => ⟨found, hrows₂.nodup, hs₄.2.thins hr⟩

variable [IsStrictOrderedRing F]

/-- The edges among memories that are all there are strengthened once. -/
theorem withstands_strengthenPairs {ids : List String} (hnodup : ids.Nodup) {now : Int} {kind : String}
    (hs : Stage user db₀ dim touch past boosted h w) :
    (strengthenPairs (orderedPairs ids) (1 / 10) now kind).Withstands (exec bm25) deletions Spares (fun _ h' w' =>
      Remains user db₀ touch (coRetrieves (orderedPairs ids)) w'.db ∧ past ⊆ h' ∧ boostedIds h' = boosted) h w := by
  unfold strengthenPairs unlessEmpty
  split
  · rename_i hnone
    rw [List.isEmpty_iff.mp hnone, coRetrieves_nil]
    exact fun w₁ hr => ⟨(hs.thins hr).remains, hs.past, hs.boosted⟩
  · rintro w₁ hr ⟨hfault, hpairs⟩
    have hs₁ := hs.thins hr
    obtain ⟨db', hdb'⟩ : ∃ db', w₁.db.strengthenPairs (orderedPairs ids) (1 / 10) now kind = .ok db' := strengthenPairs_ok hpairs
    have hexec : exec bm25 (.write (.strengthenPairs (orderedPairs ids) (1 / 10) now kind)) w₁ =
        (.ok (bothWays (orderedPairs ids)).length, w₁.answer db') := by
      simp only [exec, hfault, Bool.false_eq_true, if_false, Write.apply, hdb']
      rfl
    have hremains := hs₁.remains.strengthen hnodup hdb'
    rw [hexec]
    refine fun w₂ hr₂ => ⟨hremains.thins (hr₂ hremains.keyed), fun e he => List.mem_cons_of_mem _ (hs₁.past he), ?_⟩
    exact hs₁.boosted

theorem withstands_strengthenResults {results : List (SearchResult F)} (hne : results ≠ []) {now : Int}
    (hnodup : (results.map SearchResult.memoryId).Nodup) (hs : Stage user db₀ dim (fun _ f => f) [⟨.clock, now⟩] [] h w) :
    (strengthenResults app user results now).Withstands (exec bm25) deletions Spares
      (fun _ h' w' => ∃ found, Recalled app user db₀ results now found h' w'.db) h w := by
  have hids : (results.map fun r => (r.memoryId, r.source)).map Prod.fst = results.map SearchResult.memoryId := by simp
  refine .seq (withstands_boosts (by simpa using hne) hs) fun _ h₁ w₁ hboosted => ?_
  obtain ⟨found, honce, hs₁⟩ := hboosted
  rw [hids] at hs₁
  refine .seq (.mapError (withstands_strengthenPairs (hnodup.sublist (List.take_sublist 10 _)) hs₁)) fun _ h₂ w₂ hstrong => ?_
  obtain ⟨hremains, hpast, hboosted⟩ := hstrong
  refine fun w₃ hr => ⟨found, ⟨hpast (by simp), fun _ => hpast (by simp), honce, hboosted, ?_⟩⟩
  exact hremains.thins (hr hremains.keyed)

/-- A search whose every step is spared comes back with its results, whatever is deleted meanwhile. -/
theorem withstands_search [Elementary F] {args : SearchMemoryArgs} (hu : args.userId = user) (hk : w.db.Keyed)
    (hweighted : w.db.Weighted) (hsized : w.db.Sized dim) (hpos : 0 < dim app.embeddings.name app.embeddings.model)
    (happ : ∀ text v, app.embeddings.embed text = .ok v → v.length = dim app.embeddings.name app.embeddings.model) :
    (handleMemorySearch app args user).Withstands (exec bm25) deletions Spares (fun response h' w' =>
      ∃ results bridges now found, response = .memorySearchResults (results.map SearchResult.hit) bridges ∧
        Recalled app user w.db results now found h' w'.db) [] w := by
  subst hu
  have hs : Stage args.userId w.db dim (fun _ f => f) [] [] [] w :=
    ⟨⟨hk, hweighted, fun id f hf => ⟨f, hf, rfl⟩, fun _ _ _ _ => rfl⟩, hsized, List.Subset.refl _, rfl⟩
  unfold handleMemorySearch requireUserMatch
  rw [if_pos rfl]
  refine .seq (p := Pure.pure ()) (Q := fun _ h' w' => h' = [] ∧ Stage args.userId w.db dim (fun _ f => f) [] [] [] w')
    (fun w₁ hr => ⟨rfl, hs.thins hr⟩) fun _ h₁ w₁ hs₁ => ?_
  obtain ⟨rfl, hs₁⟩ := hs₁
  refine .seq (hs₁.along (yields_embed happ)) fun vector h₂ w₂ hs₂ => ?_
  obtain ⟨hvector, hs₂⟩ := hs₂
  -- the clock reading joins the past that the boosts must have
  have hclock : (unixNow : HandlerM F Int).Withstands (exec bm25) deletions Spares
      (fun now h' w' => Stage args.userId w.db dim (fun _ f => f) [⟨.clock, now⟩] [] h' w') h₂ w₂ := by
    intro w₃ hr _ w₄ hr₄
    have hs₃ := hs₂.thins hr
    exact Stage.thins ⟨hs₃.remains, hs₃.sized, List.cons_subset_cons _ hs₃.past, hs₃.boosted⟩ hr₄
  refine .seq hclock fun now h₃ w₃ hs₃ => ?_
  refine .seq (hs₃.along (.mapError (yields_search hvector hpos rfl))) fun results h₄ w₄ hs₄ => ?_
  obtain ⟨hnodup, hs₄⟩ := hs₄
  refine .seq (hs₄.along (.mapError (yields_findBridges _))) fun bridges h₅ w₅ hs₅ => ?_
  have hrestore : (whenever (args.deepRecall && !(results.map SearchResult.memoryId).isEmpty)
      (restoreCold args.userId (results.map SearchResult.memoryId)) : HandlerM F Unit).Yields (Cmd.looksUp dim) (Answers dim)
      fun _ => True := by
    unfold whenever
    split
    · exact yields_restoreCold _ _
    · trivial
  refine .seq (hs₅.2.along hrestore) fun _ h₆ w₆ hs₆ => ?_
  have hstrengthen : (whenever (!(results.map SearchResult.memoryId).isEmpty)
      (strengthenResults app args.userId results now)).Withstands
      (exec bm25) deletions Spares (fun _ h' w' => ∃ found, Recalled app args.userId w.db results now found h' w'.db) h₆ w₆ := by
    unfold whenever
    -- without results nothing is boosted, and the memories are as they were
    by_cases hnone : results = []
    · rw [if_neg (by simp [hnone])]
      subst hnone
      have hs₇ := hs₆.2
      refine fun w₇ hr => ⟨[], ⟨hs₇.past (by simp), fun hne => absurd rfl hne, List.nodup_nil, hs₇.boosted, ?_⟩⟩
      have hsame : (retrieves app.lifecycle (([] : List (SearchResult F)).map fun r => (r.memoryId, r.source)) now) =
          fun _ f => f := by
        funext id f
        exact if_neg List.not_mem_nil
      have hnothing : (coRetrieves (orderedPairs ((([] : List (SearchResult F)).map SearchResult.memoryId).take 10)) :
          String → String → F → F) = fun _ _ weight => weight := coRetrieves_nil
      rw [hsame, hnothing]
      exact (hs₇.thins hr).remains
    · rw [if_pos (by simp [hnone])]
      exact withstands_strengthenResults hnone hnodup hs₆.2
  refine .seq hstrengthen fun _ h₇ w₇ hrecalled => ?_
  obtain ⟨found, hrecalled⟩ := hrecalled
  refine fun w₈ hr => ⟨results, bridges, now, found, rfl, ?_⟩
  exact { hrecalled with remains := hrecalled.remains.thins (hr hrecalled.remains.keyed) }

end

/-! ## Interleavings -/

section

/-- Every step of the first task is spared. -/
def Spared (p : Requests F) (i : ℕ) (_ : Caller F) (c : Cmd F) : Prop := i = 0 → Spares (Pool.seen p.log 0) p.state c

instance (h : History (Cmd F) Cmd.Res) (w : World F) (c : Cmd F) : Decidable (Spares h w c) := by
  unfold Spares
  induction c using Cmd.casesOn with
  | write wr => induction wr using Write.casesOn <;> infer_instance
  | _ => infer_instance

instance (p : Requests F) (i : ℕ) (t : Caller F) (c : Cmd F) : Decidable (Spared p i t c) :=
  inferInstanceAs (Decidable (i = 0 → Spares (Pool.seen p.log 0) p.state c))

/-- The search of the first task has not failed, and once it has answered it has boosted what it
found and strengthened what is left at the top. -/
def Survives (app : AppState F) (user : String) (db₀ : Db F) (p : Requests F) : Prop :=
  match p.tasks[0]? with
  | some (_, Prog.fail _) => False
  | some (_, Prog.pure response) => ∃ results bridges now found, response = .memorySearchResults (results.map SearchResult.hit) bridges ∧
      Recalled app user db₀ results now found (Pool.seen p.log 0) p.state.db
  | _ => True

/-- A search of a reachable store and any Delete, DeleteMany and Clear requests of its user on
other connections: as long as its steps are spared it does not fail, however they interleave, it
comes to an end, and then each memory it found is boosted once and the edges among its top
results are strengthened once. -/
theorem survives_of_spared [IsStrictOrderedRing F] [Elementary F] {bm25 : Bm25 F} {dim : String → String → ℕ}
    {w : World F} (h : Reachable bm25 (Sized dim) anyStep w)
    {t : Caller F} (ht : Sized dim t) (hpos : 0 < dim t.app.embeddings.name t.app.embeddings.model) {args : SearchMemoryArgs}
    (hreq : t.request = .memory (.search args)) (hu : args.userId = t.user) {ts : List (Caller F)}
    (hts : ∀ t' ∈ ts, t'.deletes t.user) {schedule : List ℕ} (hmeets : (accepted w (t :: ts)).Meets (exec bm25) Spared schedule) :
    Survives t.app t.user w.db ((accepted w (t :: ts)).play (exec bm25) schedule) ∧
      ∃ n, (((accepted w (t :: ts)).play (exec bm25) schedule).play (exec bm25) (List.replicate n 0)).next? 0 = none := by
  refine ⟨?_, Pool.exhausted _ 0⟩
  have hprog : handleRequest t.app t.request t.user = handleMemorySearch t.app args t.user := by
    rw [hreq]
    rfl
  have htask : (accepted w (t :: ts)).tasks[0]? = some (t, handleMemorySearch t.app args t.user) := by
    rw [← hprog]
    rfl
  have hothers : ∀ j tp, j ≠ 0 → (accepted w (t :: ts)).tasks[j]? = some tp → tp.2.Only Cmd.deletes := by
    intro j tp hj htp
    obtain ⟨j, rfl⟩ := Nat.exists_eq_succ_of_ne_zero hj
    have hmem : tp ∈ ts.map fun t' => (t', handleRequest t'.app t'.request t'.user) := List.mem_of_getElem? htp
    obtain ⟨t', ht', rfl⟩ := List.mem_map.mp hmem
    exact only_deleting (hts t' ht')
  obtain ⟨prog, hlast, hend⟩ := Pool.play_withstands (x := exec bm25) htask
    (withstands_search hu h.anyone.keyed h.anyone.weighted h.sized hpos ht) (fun p t c hg => hg rfl) hothers
    (fun c s hc => deletions_exec bm25 s hc) hmeets
  unfold Survives
  rw [hlast]
  cases prog with
  | pure response => exact hend _ (deletions.refl _)
  | fail e => exact hend
  | cmd c k => trivial

theorem Survives.not_failed {app : AppState F} {user : String} {db₀ : Db F} {p : Requests F} (h : Survives app user db₀ p) :
    failed p = false := by
  unfold failed
  split
  · rename_i heq
    unfold Survives at h
    rw [heq] at h
    exact h.elim
  · rfl

end

/-! ### A deletion after the ranking -/

theorem teaAndMilk_sized : Reachable Bm25.none (Sized fun _ _ => 1) anyStep teaAndMilk := by
  have hflat : ∀ text, Sized (fun _ _ => 1) (batch "alice" [text]) := by
    intro text text' v hv
    cases hv
    rfl
  exact (quiet_start.reachable.serve (hflat "tea") fun _ _ => trivial).serve (hflat "milk") fun _ _ => trivial

theorem teaSearch_sized : Sized (fun _ _ => 1) teaSearch := by
  intro text v hv
  cases hv
  rfl

def forgetMilk : Caller ℚ where
  app := .flat
  user := "alice"
  request := .memory (.delete "alice" "mem_a")

theorem forgetMilk_deletes : ∀ t ∈ [forgetMilk], t.deletes "alice" := by
  have hforget : forgetMilk.deletes "alice" := ⟨rfl, .inl ⟨_, _, rfl⟩⟩
  simp [hforget]

/-- Milk goes once the search is through with it. -/
theorem survives_late_delete :
    Survives teaSearch.app "alice" teaAndMilk.db
        ((accepted teaAndMilk [teaSearch, forgetMilk]).play (exec Bm25.none) [0, 0, 0, 0, 0, 0, 0, 1]) ∧
      ∃ n, (((accepted teaAndMilk [teaSearch, forgetMilk]).play (exec Bm25.none) [0, 0, 0, 0, 0, 0, 0, 1]).play (exec Bm25.none)
        (List.replicate n 0)).next? 0 = none :=
  survives_of_spared teaAndMilk_sized teaSearch_sized Nat.one_pos rfl rfl forgetMilk_deletes (by decide +kernel)

/-- Milk goes between the boost and the strengthening: the edge to it fails its foreign key. -/
theorem delete_fails_search : ¬ ∀ (w : World ℚ) (t : Caller ℚ) (args : SearchMemoryArgs) (ts : List (Caller ℚ))
    (schedule : List ℕ),
    Reachable Bm25.none (Sized fun _ _ => 1) anyStep w → Sized (fun _ _ => 1) t → t.request = .memory (.search args) →
    args.userId = t.user → (∀ t' ∈ ts, t'.deletes t.user) → (∀ n, w.oracle.sqlFault n = false) →
    (∀ n, w.oracle.providerFault n = false) → (∀ r ∈ w.db.memories, r.isStub = false) →
    Survives t.app t.user w.db ((accepted w (t :: ts)).play (exec Bm25.none) schedule) := by
  intro h
  have hsurvives := h teaAndMilk teaSearch _ [forgetMilk] [0, 0, 0, 0, 0, 0, 1, 0] teaAndMilk_sized teaSearch_sized rfl rfl
    forgetMilk_deletes (fun _ => rfl) (fun _ => rfl) (by decide +kernel)
  have hfailed : failed ((accepted teaAndMilk [teaSearch, forgetMilk]).play (exec Bm25.none)
      [0, 0, 0, 0, 0, 0, 1, 0]) = true := by
    decide +kernel
  rw [hsurvives.not_failed] at hfailed
  exact nomatch hfailed

end CognitiveMemory
