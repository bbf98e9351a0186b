import CognitiveMemory.Daemon.Coherence
import CognitiveMemory.Daemon.Provenance
import CognitiveMemory.Daemon.Twins

/-! Read noninterference between users: two stores with the same memories of a user and the same edges
between them answer the user's requests alike, as long as no edge leads there from elsewhere. -/

namespace CognitiveMemory
open Prog Contract
variable {F : Type}

variable [Field F] [LinearOrder F]

/-- From two worlds the caller cannot tell apart, the program comes to one end, and the worlds left
are such again. -/
def Caller.Blind (t : Caller F) (spec : EmbeddingSpec F) (bm25 : Bm25 F) {ε α : Type}
    (p : Prog (Cmd F) Cmd.Res ε α) : Prop :=
  (contract spec bm25).Agrees t (Twin t) p

section
variable {spec : EmbeddingSpec F} {bm25 : Bm25 F} {t : Caller F} {w w' : World F} {ε α : Type}

/-! ## Reads -/

theorem blind_personal (hfixed : bm25.Fixed) (htick : ¬ t.isTick) {p : Prog (Cmd F) Cmd.Res ε α}
    (hp : p.Only (Cmd.personal t.user)) : t.Blind spec bm25 p :=
  agrees_of_only (fun _ _ _ hc hs hs' h hall hall' => twin_personal hfixed h hs hs' htick hc hall hall') hp

theorem Twin.reads (h : Twin t w w') {p : Prog (Cmd F) Cmd.Res ε α} (hp : p.Only Cmd.reads) (answer : Db F → α)
    (hanswer : ∀ w : World F, w.Reads w.db True → p.wp (exec bm25) (fun a _ => a = answer w.db) (fun _ => ¬ True) w)
    (hsame : answer w.db = answer w'.db) : (contract spec bm25).AgreesAt t (Twin t) p w w' := by
  intro _ _
  rw [h.quiet.reads bm25 hp, h.quiet'.reads bm25 hp]
  have hresult : ∀ w : World F, w.Quiet → (p.run (exec bm25) w).1 = .ok (answer w.db) := by
    intro w hw
    obtain ⟨a, ha, rfl⟩ := wp_total (hanswer w ⟨rfl, fun _ => hw.sql⟩) fun _ hfalse => hfalse trivial
    exact ha
  rw [hresult w h.quiet, hresult w' h.quiet', hsame]
  exact ⟨rfl, h⟩

theorem blind_linkedFor {sourceId : String} {minWeight : F} : t.Blind spec bm25 (linkedFor t.user sourceId minWeight) := by
  intro w w' _ _ h
  refine h.reads (only_linkedFor trivial fun _ => trivial) (fun db => db.linkedAt t.user (db.neighbors minWeight sourceId))
    (fun w hw => (wp_linkedFor hw).imp fun a _ ha => ha.1) ?_
  exact h.same.linkedAt (h.same.neighbors h.calm.1 h.calm.2 minWeight sourceId)

theorem blind_linkedForMany {sourceIds : List String} {minWeight : F} :
    t.Blind spec bm25 (linkedForMany t.user sourceIds minWeight) := by
  intro w w' _ _ h
  refine h.reads (only_linkedForMany trivial fun _ => trivial) (fun db => db.linkedMany t.user sourceIds minWeight)
    (fun w hw => (wp_linkedForMany hw).imp fun a _ ha => ha.1) ?_
  exact h.same.linkedAt (h.same.edgesFromMany h.calm.1 h.calm.2 sourceIds minWeight)

theorem Twin.findBridges (h : Twin t w w') {anchors : List String} (hown : ∀ id ∈ anchors, w.db.owns t.user id)
    {o : SearchOptions F} : (contract spec bm25).AgreesAt t (Twin t) (findBridges anchors o) w w' := by
  refine h.reads only_findBridges (fun db => if !o.bridgeDiscovery || decide (anchors.length < 2) then []
    else walkChains (db.walk o.minBridgeEdgeWeight) o (orderedPairs (anchors.take 3)) []) (fun w hw => wp_findBridges hw) ?_
  split
  · rfl
  · refine walkChains_congr (fun p hp => ?_) []
    obtain ⟨ha, hb⟩ := mem_orderedPairs hp
    exact h.same.walk h.calm.1 h.calm.2 _ (hown _ (List.mem_of_mem_take ha)) (hown _ (List.mem_of_mem_take hb))

/-! ## Writes -/

theorem blind_write (htick : ¬ t.isTick) {wr : Write F} (hready : ∀ db, wr.ready t.user db) : t.Blind spec bm25 (write wr) :=
  agrees_cmd (fun _ _ hs hs' h hall hall' => twin_write h hs hs' htick (hready _) hall hall') fun r => agrees_ofExcept r

theorem blind_unlessEmpty {α : Type} {xs : List α} {p : Repo F ℕ} (hp : t.Blind spec bm25 p) :
    t.Blind spec bm25 (unlessEmpty xs p) := by
  unfold unlessEmpty
  split
  · exact agrees_pure 0
  · exact hp

theorem blind_whenever {b : Bool} {p : HandlerM F Unit} (hp : t.Blind spec bm25 p) : t.Blind spec bm25 (whenever b p) := by
  unfold whenever
  split
  · exact hp
  · exact agrees_pure ()

/-- The weight is read without leave, and written back to an edge between memories of nobody else. -/
theorem blind_createOrStrengthen (htick : ¬ t.isTick) {a b kind : String} {bump : F} {now : Int} :
    t.Blind spec bm25 (createOrStrengthen a b bump now kind) := by
  intro w w' hw hw' h he he'
  have hread : ∀ w : World F, w.Quiet →
      (query (.edgeWeight a b) : Repo F _).run (exec bm25) w = (.ok ((w.db.edge? a b).map AssociationRow.weight), w) := by
    intro w hq
    rw [run_query (hq.sql 0) rfl, hq.answer]
  have hwrite := he.of_seq.run_post hw (hread w h.quiet)
  have hwrite' := he'.of_seq.run_post hw' (hread w' h.quiet')
  have hown := h.names.1.joins hw (hwrite.cmd_inv hw).1
  have hown' := h.names.2.joins hw' (hwrite'.cmd_inv hw').1
  have hedge : w.db.edge? a b = w'.db.edge? a b :=
    h.same.edge? h.calm.1.joined h.calm.2.joined ⟨hown.1, hown'.1⟩ ⟨hown.2, hown'.2⟩
  unfold createOrStrengthen
  rw [bind_eq, run_bind_ok _ (hread w h.quiet), run_bind_ok _ (hread w' h.quiet')]
  rw [hedge] at hwrite ⊢
  have hblind : t.Blind spec bm25 (write (.upsertEdge a b ((w'.db.edge? a b).map AssociationRow.weight) bump now kind)) :=
    blind_write htick fun _ => trivial
  exact hblind w w' hw hw' h hwrite hwrite'

end

/-! ## Embeddings -/

section
variable {P : String → String → String → Except String (List F)} {sha256 : String → List UInt8} {bm25 : Bm25 F} {t : Caller F}

/-- In a quiet world a text has the vector its provider gives it, cached or not. -/
theorem run_cachedEmbed (bm25 : Bm25 F) {w : World F} (hq : w.Quiet) (hw : w.Sound (providerSpec P sha256))
    (ht : Provided P sha256 t) (text : String) : ∃ cache, (cachedEmbed t.app text).run (exec bm25) w =
      ((P t.app.embeddings.name t.app.embeddings.model (canonicalise text)).mapError .provider,
        { w with db := { w.db with embeddingCache := cache } }) := by
  let canonical := canonicalise text
  let hash := t.app.sha256 canonical
  let found := w.db.embeddingCache.find? fun c =>
    c.provider == t.app.embeddings.name && c.model == t.app.embeddings.model && c.textHash == hash
  have hget : ((query (.cacheGet t.app.embeddings.name t.app.embeddings.model hash)).mapError EmbeddingError.storage).run
      (exec bm25) w = (.ok (found.map CacheRow.embedding), w) := by
    rw [run_mapError, run_query (hq.sql 0) rfl, hq.answer]
    rfl
  unfold cachedEmbed
  rw [bind_eq, run_bind_ok _ hget]
  cases hfound : found with
  | some c =>
    have hkey := List.find?_some hfound
    simp only [Bool.and_eq_true, beq_iff_eq] at hkey
    obtain ⟨⟨hprovider, hmodel⟩, hhash⟩ := hkey
    -- what is cached came from the provider, for a text of the same hash
    have hvector : P c.provider c.model canonical = .ok c.embedding := by
      refine hw.cache c (List.mem_of_find?_eq_some hfound) canonical ?_
      rw [hhash, ← ht.sha256]
    rw [hprovider, hmodel] at hvector
    rw [hvector]
    exact ⟨w.db.embeddingCache, rfl⟩
  | none =>
    have hcall : (Prog.call (Cmd.provider t.app.embeddings canonical) : Prog (Cmd F) Cmd.Res EmbeddingError _).run (exec bm25) w =
        (.ok (P t.app.embeddings.name t.app.embeddings.model canonical), w) := by
      simp only [Prog.call, run_command, exec, hq.provider 0, hq.nextProvider, ht.embed]
      rfl
    show ∃ cache, ((Prog.call (Cmd.provider t.app.embeddings canonical)).bind _).run _ _ = _
    rw [run_bind_ok _ hcall]
    cases P t.app.embeddings.name t.app.embeddings.model canonical with
    | error e => exact ⟨w.db.embeddingCache, rfl⟩
    | ok v =>
      let row : CacheRow F := ⟨t.app.embeddings.name, t.app.embeddings.model, hash, v⟩
      have hinsert : ((write (.cacheInsert row)).mapError EmbeddingError.storage).run (exec bm25) w =
          (.ok (), w.answer (w.db.cacheInsert row)) := by
        rw [run_mapError, run_write (hq.sql 0) rfl]
        rfl
      have hcache : ∃ cache, w.db.cacheInsert row = { w.db with embeddingCache := cache } := by
        unfold Db.cacheInsert
        split
        · exact ⟨w.db.embeddingCache, rfl⟩
        · exact ⟨_, rfl⟩
      obtain ⟨cache, hcache⟩ := hcache
      refine ⟨cache, ?_⟩
      show (((write (.cacheInsert row)).mapError EmbeddingError.storage).bind fun _ => Prog.pure v).run _ _ = _
      rw [run_bind_ok _ hinsert, hq.answer, hcache]
      rfl

omit [Field F] [LinearOrder F] in
theorem Db.Calm.cached {db : Db F} {user : String} (h : db.Calm user) (cache : List (CacheRow F)) :
    Db.Calm { db with embeddingCache := cache } user := ⟨h.keyed, h.indexed, h.joined, h.unreached⟩

theorem blind_embed (ht : Provided P sha256 t) {text : String} :
    t.Blind (providerSpec P sha256) bm25 (embed t.app text) := by
  refine Agrees.mapError fun w w' hw hw' h _ _ => ?_
  obtain ⟨cache, hrun⟩ := run_cachedEmbed bm25 h.quiet hw ht text
  obtain ⟨cache', hrun'⟩ := run_cachedEmbed bm25 h.quiet' hw' ht text
  rw [hrun, hrun']
  refine ⟨rfl, h.same.congr rfl rfl rfl rfl, h.oracle, ⟨h.quiet.sql, h.quiet.provider⟩, h.names, ?_, ?_⟩
  · exact h.calm.1.cached cache
  · exact h.calm.2.cached cache'

end

/-! ## Search -/

section
variable {spec : EmbeddingSpec F} {bm25 : Bm25 F} {t : Caller F} {cfg : LifecycleConfig F} {queryVec : List F}
  {o : SearchOptions F}

theorem blind_hybridHits (hfixed : bm25.Fixed) (htick : ¬ t.isTick) {scored : List (SearchResult F)} :
    t.Blind spec bm25 (hybridHits t.user o scored) := by
  refine blind_personal hfixed htick ?_
  unfold hybridHits
  split
  · unfold fuseHybrid
    split
    · trivial
    · exact only_bind (only_mapError (only_query rfl)) fun _ =>
        only_bind (only_bind (only_call trivial) fun _ => trivial) fun _ => trivial
  · trivial

variable [Elementary F]

theorem blind_expandHops (hops : ℕ) (x : Expansion F) : t.Blind spec bm25 (expandHops cfg t.user queryVec o hops x) := by
  induction hops generalizing x with
  | zero => exact agrees_pure x.scored
  | succ hops ih =>
    rw [expandHops]
    split
    · exact agrees_pure x.scored
    · exact Agrees.seq blind_linkedForMany.mapError fun linked => ih _

theorem blind_search (hfixed : bm25.Fixed) (htick : ¬ t.isTick) : t.Blind spec bm25 (search cfg t.user queryVec o) := by
  unfold search
  split
  · exact agrees_fail _
  split
  · exact agrees_pure []
  refine Agrees.seq (Agrees.mapError (blind_personal hfixed htick (only_query rfl))) fun candidates => ?_
  refine Agrees.seq (agrees_ofExcept _) fun dense => Agrees.seq (blind_hybridHits hfixed htick) fun hits => ?_
  refine Agrees.seq ?_ fun final => agrees_pure _
  unfold expandedHits
  split
  · exact Agrees.seq (blind_expandHops _ _) fun expanded => agrees_pure _
  · exact agrees_pure hits

theorem wp_search_owned {user : String} {w : World F} : (search cfg user queryVec o).wp (exec bm25)
    (fun results w' => w'.db.memories = w.db.memories ∧ ∀ r ∈ results, w'.db.owns user r.memoryId) (fun _ => True) w := by
  have hsearch : (search cfg user queryVec o).wp (exec bm25) _ _ w := wp_search ⟨rfl, False.elim⟩
  have hkeeps : (search cfg user queryVec o).wp (exec bm25) (fun _ w' => w'.db.memories = w.db.memories) (fun _ => True) w := by
    have hstep : ∀ (c : Cmd F) (w' : World F), c.surveys → w'.db.memories = w.db.memories →
        (exec bm25 c w').2.db.memories = w.db.memories := by
      intro c w' hc hw'
      cases c with
      | query | order => exact hw'
      | _ => exact hc.elim
    exact only_search.wp hstep rfl
  refine ((hsearch.imp_error fun _ _ => trivial).and hkeeps).imp ?_
  rintro results w' ⟨hresults, hmems⟩
  refine ⟨hmems, fun r hr => ?_⟩
  obtain ⟨m, hm, hid, huser⟩ := (hresults r hr).2.2.stored
  exact owns_iff.mpr ⟨m, hmems ▸ hm, huser, hid⟩

end

/-! ## Strengthening -/

section
variable {spec : EmbeddingSpec F} {bm25 : Bm25 F} {t : Caller F}

theorem blind_getManyForUser (hfixed : bm25.Fixed) (htick : ¬ t.isTick) {ids : List String} :
    t.Blind spec bm25 (getManyForUser t.user ids) := blind_personal hfixed htick (only_getManyForUser rfl)

theorem blind_strengthenResults (hfixed : bm25.Fixed) (htick : ¬ t.isTick) {results : List (SearchResult F)} {now : Int} :
    t.Blind spec bm25 (strengthenResults t.app t.user results now) := by
  refine Agrees.seq ?_ fun _ => Agrees.seq (Agrees.mapError (blind_unlessEmpty (blind_write htick fun _ => trivial))) fun _ => ?_
  · refine Agrees.seq (Agrees.mapError (blind_getManyForUser hfixed htick)) fun rows => ?_
    refine Agrees.seq (blind_personal hfixed htick (only_call trivial)) fun u => ?_
    refine Agrees.seq (Agrees.mapError (blind_unlessEmpty (blind_write htick fun _ => trivial))) fun _ => ?_
    exact Agrees.seq (Agrees.mapError (blind_unlessEmpty (blind_write htick fun _ => trivial))) fun _ => agrees_pure ()
  · exact agrees_pure ()

theorem blind_restoreCold (hfixed : bm25.Fixed) (htick : ¬ t.isTick) {ids : List String} :
    t.Blind spec bm25 (restoreCold t.user ids) := by
  refine Agrees.seq (Agrees.mapError (blind_getManyForUser hfixed htick)) fun rows => ?_
  exact Agrees.seq (Agrees.mapError (blind_unlessEmpty (blind_write htick fun _ => trivial))) fun _ => agrees_pure ()

end

/-! ## Requests -/

section
variable {spec : EmbeddingSpec F} {bm25 : Bm25 F} {t : Caller F} {α : Type}

theorem blind_require {userId : String} {p : HandlerM F α} (hp : userId = t.user → t.Blind spec bm25 p) :
    t.Blind spec bm25 (requireUserMatch userId t.user >>= fun _ => p) := by
  unfold requireUserMatch
  split
  · exact hp ‹_›
  · exact agrees_fail _

/-- One query for memories of the user, and what is made of its answer. -/
theorem blind_ask (hfixed : bm25.Fixed) (htick : ¬ t.isTick) {userId : String} {q : Query F}
    (hq : userId = t.user → q.personal t.user) {f : q.Res → HandlerM F α} (hf : ∀ answer, t.Blind spec bm25 (f answer)) :
    t.Blind spec bm25 (requireUserMatch userId t.user >>= fun _ => sqlx (query q) >>= f) :=
  blind_require fun huser => Agrees.seq (Agrees.mapError (blind_personal hfixed htick (only_query (hq huser)))) hf

theorem blind_clock (hfixed : bm25.Fixed) (htick : ¬ t.isTick) {ε : Type} :
    t.Blind spec bm25 (unixNow : Prog (Cmd F) Cmd.Res ε Int) := blind_personal hfixed htick (only_clock trivial)

/-- The conflicts of a memory just stored are queued with memories of the user. -/
theorem Twin.queueConflictsFor [Elementary F] {w w' : World F} (h : Twin t w w') (hw : w.Sound spec)
    (hw' : w'.Sound spec) (hfixed : bm25.Fixed)
    (htick : ¬ t.isTick) {newId : String} (hnew : w.db.owns t.user newId) {newVec : List F} {now : Int} :
    (contract spec bm25).AgreesAt t (Twin t) (queueConflictsFor t.app t.user newId newVec now) w w' := by
  have howned : ∀ w : World F, w.db.owns t.user newId →
      ((search t.app.lifecycle t.user newVec (ingestOptions t.app now)).mapError HandlerError.search).wp (exec bm25)
        (fun hits w₁ => w₁.db.owns t.user newId ∧ ∀ r ∈ hits, w₁.db.owns t.user r.memoryId) (fun _ => True) w := by
    intro w hown
    refine wp.mapError (wp_search_owned.imp ?_) fun _ _ => trivial
    rintro hits w₁ ⟨hmems, hhits⟩
    refine ⟨?_, hhits⟩
    unfold Db.owns
    rw [hmems]
    exact hown
  refine AgreesAt.seq hw hw' ((blind_search hfixed htick).mapError w w' hw hw' h) (howned w hnew)
    (howned w' (h.same.owns ▸ hnew)) ?_
  rintro hits s s' hs hs' hsame ⟨hown, hhits⟩ -
  refine AgreesAt.mapError (.cmd hs hs' (fun hall hall' => ?_) fun r => agrees_ofExcept r)
  refine twin_write hsame hs hs' htick ?_ hall hall'
  intro id hid
  rcases List.mem_cons.mp hid with rfl | hid
  · exact hown
  · rw [List.map_map] at hid
    obtain ⟨r, hr, rfl⟩ := List.mem_map.mp hid
    exact hhits r hr

theorem blind_memoryStore [Elementary F] {P : String → String → String → Except String (List F)}
    {sha256 : String → List UInt8}
    (ht : Provided P sha256 t) (hfixed : bm25.Fixed) (htick : ¬ t.isTick) (args : StoreMemoryArgs F) :
    t.Blind (providerSpec P sha256) bm25 (handleMemoryStore t.app args t.user) := by
  refine blind_require fun huser => Agrees.seq (blind_embed ht) fun vector => ?_
  refine Agrees.seq (blind_personal hfixed htick (only_freshMemoryId trivial)) fun id => ?_
  refine Agrees.seq (blind_clock hfixed htick) fun now => ?_
  intro w w' hw hw' h
  let row := storedRow t.app args id vector now
  have hinsert : t.Blind (providerSpec P sha256) bm25 (sqlx (write (.insertMemory row))) :=
    Agrees.mapError (blind_write htick fun _ => trivial)
  have hstored : ∀ w : World F, (sqlx (write (.insertMemory row))).wp (exec bm25) (fun _ w₁ => w₁.db.owns t.user id)
      (fun _ => True) w := by
    intro w
    refine wp.mapError ((wp_write.imp ?_)) fun _ _ => trivial
    intro _ w₁ happly
    obtain ⟨db, hdb, heq⟩ := map_ok happly
    cases heq
    have hrow : row ∈ w₁.db.memories := by
      rw [insertMemory_ok hdb]
      exact List.mem_append_right _ List.mem_cons_self
    refine owns_iff.mpr ⟨row, hrow, ?_, storedRow_id⟩
    exact (storedRow_fields t.app args id vector now).userId.trans huser
  refine AgreesAt.seq hw hw' (hinsert w w' hw hw' h) (hstored w) (hstored w') ?_
  intro _ s s' hs hs' hsame hown _
  rw [huser]
  exact AgreesAt.seq hs hs' (hsame.queueConflictsFor hs hs' hfixed htick hown) wp_true wp_true
    fun _ s₁ s₁' hs₁ hs₁' hsame₁ _ _ => agrees_pure _ s₁ s₁' hs₁ hs₁' hsame₁

theorem blind_linkBidirectional (htick : ¬ t.isTick) {a b kind : String} {bump : F} {now : Int} :
    t.Blind spec bm25 (linkBidirectional a b bump now kind) :=
  Agrees.seq (blind_createOrStrengthen htick) fun _ => Agrees.seq (blind_createOrStrengthen htick) fun _ => agrees_pure _

theorem blind_memoryStoreBatch {P : String → String → String → Except String (List F)} {sha256 : String → List UInt8}
    (ht : Provided P sha256 t) (hfixed : bm25.Fixed) (htick : ¬ t.isTick) (args : StoreBatchArgs F) :
    t.Blind (providerSpec P sha256) bm25 (handleMemoryStoreBatch t.app args t.user) := by
  have hentries : ∀ (now : Int) (entries : List BatchMemoryEntry),
      t.Blind (providerSpec P sha256) bm25 (storeEntries t.app args.userId now entries) := by
    intro now entries
    induction entries with
    | nil => exact agrees_pure []
    | cons entry entries ih =>
      refine Agrees.seq (blind_embed ht) fun vector => ?_
      refine Agrees.seq (blind_personal hfixed htick (only_freshMemoryId trivial)) fun id => ?_
      refine Agrees.seq (Agrees.mapError (blind_write htick fun _ => trivial)) fun _ => ?_
      exact Agrees.seq ih fun _ => agrees_pure _
  have hlinks : ∀ (weight : F) (now : Int) (pairs : List (String × String)),
      t.Blind (providerSpec P sha256) bm25 (linkAll weight now pairs) := by
    intro weight now pairs
    induction pairs with
    | nil => exact agrees_pure 0
    | cons pair pairs ih =>
      exact Agrees.seq (Agrees.mapError (blind_linkBidirectional htick)) fun _ => Agrees.seq ih fun _ => agrees_pure _
  refine blind_require fun _ => ?_
  split
  · exact agrees_pure _
  · refine Agrees.seq (blind_clock hfixed htick) fun now => Agrees.seq (hentries now _) fun ids => ?_
    exact Agrees.seq (hlinks _ now _) fun _ => agrees_pure _

section
variable [Elementary F]

theorem blind_memorySearch {P : String → String → String → Except String (List F)} {sha256 : String → List UInt8}
    (ht : Provided P sha256 t) (hfixed : bm25.Fixed) (htick : ¬ t.isTick) (args : SearchMemoryArgs) :
    t.Blind (providerSpec P sha256) bm25 (handleMemorySearch t.app args t.user) := by
  refine blind_require fun huser => Agrees.seq (blind_embed ht) fun queryVec => ?_
  refine Agrees.seq (blind_clock hfixed htick) fun now => ?_
  rw [huser]
  intro w w' hw hw' h
  let o := searchOptions t.app args now
  have howned : ∀ w : World F, ((search t.app.lifecycle t.user queryVec o).mapError HandlerError.search).wp (exec bm25)
      (fun results w₁ => ∀ r ∈ results, w₁.db.owns t.user r.memoryId) (fun _ => True) w := fun w =>
    wp.mapError (wp_search_owned.imp fun _ _ hresults => hresults.2) fun _ _ => trivial
  refine AgreesAt.seq hw hw' ((blind_search hfixed htick).mapError w w' hw hw' h) (howned w) (howned w') ?_
  intro results s s' hs hs' hsame hown _
  have hanchors : ∀ id ∈ results.map SearchResult.memoryId, s.db.owns t.user id := by
    intro id hid
    obtain ⟨r, hr, rfl⟩ := List.mem_map.mp hid
    exact hown r hr
  refine AgreesAt.seq hs hs' (hsame.findBridges hanchors).mapError wp_true wp_true ?_
  intro bridges s₁ s₁' hs₁ hs₁' hsame₁ _ _
  refine Agrees.seq ?_ (fun _ => Agrees.seq ?_ fun _ => agrees_pure _) s₁ s₁' hs₁ hs₁' hsame₁
  · exact blind_whenever (blind_restoreCold hfixed htick)
  · exact blind_whenever (blind_strengthenResults hfixed htick)

theorem blind_rowsToData (hfixed : bm25.Fixed) (htick : ¬ t.isTick) (rows : List (MemoryRow F)) :
    t.Blind spec bm25 (memoryRowsToData t.app rows >>= fun ds => Pure.pure (ResponseData.memories ds)) :=
  Agrees.seq (blind_personal hfixed htick (only_memoryRowsToData trivial t.app rows)) fun _ => agrees_pure _

theorem blind_linkedToData (hfixed : bm25.Fixed) (htick : ¬ t.isTick) (linked : List (LinkedMemory F)) :
    t.Blind spec bm25 (linkedToData t.app linked >>= fun ds => Pure.pure (ResponseData.linkedMemories ds)) :=
  Agrees.seq (blind_personal hfixed htick (only_linkedToData trivial t.app linked)) fun _ => agrees_pure _

theorem blind_memoryGet (hfixed : bm25.Fixed) (htick : ¬ t.isTick) (userId id : String) :
    t.Blind spec bm25 (handleMemoryGet t.app userId id t.user) := by
  have hdata : ∀ row, t.Blind spec bm25 (memoryRowToData t.app row >>= fun d => Pure.pure (ResponseData.memory d)) := fun row =>
    Agrees.seq (Agrees.seq (blind_clock hfixed htick) fun _ => agrees_pure _) fun _ => agrees_pure _
  have hown : userId = t.user → (Query.getForUser userId id : Query F).personal t.user := fun huser => huser
  refine blind_ask hfixed htick hown fun row? => ?_
  cases row? with
  | none => exact agrees_fail _
  | some row =>
    dsimp only
    split
    · exact Agrees.seq (Agrees.mapError (blind_unlessEmpty (blind_write htick fun _ => trivial))) fun _ => hdata _
    · exact hdata _

theorem blind_memoryGetMany (hfixed : bm25.Fixed) (htick : ¬ t.isTick) (userId : String) (ids : List String) :
    t.Blind spec bm25 (handleMemoryGetMany t.app userId ids t.user) := by
  refine blind_require fun huser => ?_
  refine Agrees.seq (Agrees.mapError (blind_personal hfixed htick (only_getManyForUser huser))) fun rows => ?_
  refine Agrees.seq (Agrees.mapError (blind_unlessEmpty (blind_write htick fun _ => trivial))) fun _ => ?_
  exact blind_rowsToData hfixed htick _

end

theorem blind_affecting {userId : String} {p : Repo F ℕ} (hp : t.Blind spec bm25 p) :
    t.Blind spec bm25 (affecting userId t.user p) :=
  blind_require fun _ => Agrees.seq (Agrees.mapError hp) fun _ => agrees_pure _

theorem blind_affectingOne {userId : String} {p : Repo F ℕ} (hp : t.Blind spec bm25 p) :
    t.Blind spec bm25 (affectingOne userId t.user p) :=
  blind_require fun _ => Agrees.seq (Agrees.mapError hp) fun _ => agrees_pure _

theorem blind_memoryUpdate (htick : ¬ t.isTick) (args : UpdateMemoryArgs F) :
    t.Blind spec bm25 (handleMemoryUpdate args t.user) := by
  refine blind_require fun _ => Agrees.seq (Agrees.mapError ?_) fun _ => agrees_pure _
  unfold update
  split
  · exact agrees_pure false
  · exact Agrees.seq (blind_write htick fun _ => trivial) fun _ => agrees_pure _

theorem blind_memoryLink (hfixed : bm25.Fixed) (htick : ¬ t.isTick) (args : LinkMemoryArgs F) :
    t.Blind spec bm25 (handleMemoryLink args t.user) := by
  refine blind_require fun _ => Agrees.seq (blind_clock hfixed htick) fun now => ?_
  refine Agrees.seq (Agrees.mapError ?_) fun _ => agrees_pure _
  unfold linkStrength
  split
  · exact blind_linkBidirectional htick
  · exact blind_createOrStrengthen htick

theorem blind_memoryUnlink (htick : ¬ t.isTick) (args : UnlinkMemoryArgs) :
    t.Blind spec bm25 (handleMemoryUnlink args t.user) := by
  unfold handleMemoryUnlink
  split
  · exact blind_affecting (blind_write htick fun _ => trivial)
  · exact blind_affectingOne (blind_write htick fun _ => trivial)

variable [Elementary F]

theorem blind_memory {P : String → String → String → Except String (List F)} {sha256 : String → List UInt8}
    (ht : Provided P sha256 t) (hfixed : bm25.Fixed) (htick : ¬ t.isTick) (req : MemoryRequest F) :
    t.Blind (providerSpec P sha256) bm25 (handleMemoryRequest t.app req t.user) := by
  cases req with
  | subscribe replaySnapshot => exact agrees_fail _
  | store args => exact blind_memoryStore ht hfixed htick args
  | storeBatch args => exact blind_memoryStoreBatch ht hfixed htick args
  | search args => exact blind_memorySearch ht hfixed htick args
  | get userId id => exact blind_memoryGet hfixed htick userId id
  | getMany userId ids => exact blind_memoryGetMany hfixed htick userId ids
  | list userId filters =>
    exact blind_ask hfixed htick id fun rows => blind_rowsToData hfixed htick rows
  | update args => exact blind_memoryUpdate htick args
  | delete userId id => exact blind_affectingOne (blind_write htick fun _ => trivial)
  | deleteMany userId ids => exact blind_affecting (blind_unlessEmpty (blind_write htick fun _ => trivial))
  | link args => exact blind_memoryLink hfixed htick args
  | unlink args => exact blind_memoryUnlink htick args
  | getLinked userId sourceId minStrength =>
    refine blind_require fun huser => ?_
    rw [huser]
    exact Agrees.seq (Agrees.mapError blind_linkedFor) fun linked => blind_linkedToData hfixed htick linked
  | getLinkedMany userId sourceIds minStrength =>
    refine blind_require fun huser => ?_
    rw [huser]
    exact Agrees.seq (Agrees.mapError blind_linkedForMany) fun linked => blind_linkedToData hfixed htick linked
  | vectorSearch args =>
    refine blind_require fun huser => ?_
    rw [huser]
    refine Agrees.seq (blind_clock hfixed htick) fun now => ?_
    exact Agrees.seq (Agrees.mapError (blind_search hfixed htick)) fun _ => agrees_pure _
  | searchLexical userId text limit =>
    exact blind_ask hfixed htick id fun _ => agrees_pure _
  | batchUpdate userId updates => exact blind_affecting (blind_unlessEmpty (blind_write htick fun _ => trivial))

theorem blind_findFading (hfixed : bm25.Fixed) (htick : ¬ t.isTick) (userId : String) (maxRetention : F) (limit : Int) :
    t.Blind spec bm25 (handleFindFading t.app userId maxRetention limit t.user) := by
  refine blind_ask hfixed htick id fun rows => ?_
  exact Agrees.seq (blind_clock hfixed htick) fun now => blind_rowsToData hfixed htick _

theorem blind_findStable (hfixed : bm25.Fixed) (htick : ¬ t.isTick) (userId : String) (minStability : F)
    (minAccessCount limit : Int) :
    t.Blind spec bm25 (handleFindStable t.app userId minStability minAccessCount limit t.user) :=
  blind_ask hfixed htick id fun rows => blind_rowsToData hfixed htick rows

omit [Elementary F] in
theorem blind_counts (hfixed : bm25.Fixed) (htick : ¬ t.isTick) (userId : String) :
    t.Blind spec bm25 (handleCounts userId t.user : HandlerM F (ResponseData F)) :=
  blind_ask hfixed htick id fun _ => agrees_pure _

end

/-! ## Two stores -/

/-- The requests on the memories of the connection's user. -/
def Request.personal : Request F → Prop
  | .memory _ | .lifecycle (.findFading ..) | .lifecycle (.findStable ..) | .diagnostics (.counts _) => True
  | _ => False

section
variable {P : String → String → String → Except String (List F)} {sha256 : String → List UInt8} {bm25 : Bm25 F}
  {t : Caller F}

/-- The answer to a request that nobody interrupts. -/
def Caller.response [Elementary F] (bm25 : Bm25 F) (t : Caller F) (w : World F) : Except HandlerError (ResponseData F) :=
  ((handleRequest t.app t.request t.user).run (exec bm25) w).1

omit [Field F] [LinearOrder F] in
theorem Request.personal.not_tick (h : t.request.personal) : ¬ t.isTick := by
  rintro ⟨sync, hreq⟩
  rw [hreq] at h
  exact h

variable [Elementary F]

theorem blind_request (ht : Provided P sha256 t) (hfixed : bm25.Fixed) (hreq : t.request.personal) :
    t.Blind (providerSpec P sha256) bm25 (handleRequest t.app t.request t.user) := by
  have htick := hreq.not_tick
  cases hrequest : t.request with
  | memory req => exact blind_memory ht hfixed htick req
  | lifecycle req =>
    rw [hrequest] at hreq
    cases req with
    | findFading userId maxRetention limit => exact blind_findFading hfixed htick userId maxRetention limit
    | findStable userId minStability minAccessCount limit =>
      exact blind_findStable hfixed htick userId minStability minAccessCount limit
    | _ => exact hreq.elim
  | diagnostics req =>
    rw [hrequest] at hreq
    cases req with
    | counts userId => exact blind_counts hfixed htick userId
    | _ => exact hreq.elim
  | unknownBucket => exact agrees_fail _

theorem Reachable.indexed {guard : Caller F → World F → Cmd F → Prop} {w : World F} (h : Reachable bm25 anyCaller guard w) :
    w.db.Indexed := by
  have hboth : w.db.Keyed ∧ w.db.Indexed := by
    refine h.keeps (J := fun w => w.db.Keyed ∧ w.db.Indexed) any_serves (fun w₀ h₀ => ?_) fun _ _ _ _ hJ _ _ => ?_
    · simp [Db.Keyed, Db.Indexed, h₀.db, Db.empty]
    · exact ⟨keyed_exec bm25 hJ.1, indexed_exec bm25 hJ.1 hJ.2⟩
  exact hboth.2

omit [Field F] [LinearOrder F] [Elementary F] in
/-- Where edges do not cross between users, none leads to anybody's memories from elsewhere. -/
theorem Db.TenantSeparated.unreached {db : Db F} (h : db.TenantSeparated) (hj : db.Joined) (user : String) :
    db.Sealed user := by
  intro e he hother
  obtain ⟨r, hr, hid, hne⟩ := others_iff.mp hother
  obtain ⟨r', hr', hid'⟩ := hasMemory_iff.mp (hj e he).2
  refine others_iff.mpr ⟨r', hr', hid', ?_⟩
  rw [← h e he r hr r' hr' hid hid']
  exact hne

/-! ## Sealed stores answer alike -/

theorem Twin.response_eq (hsha : Function.Injective sha256) (hfixed : bm25.Fixed) (ht : Provided P sha256 t)
    (hreq : t.request.personal) {w w' : World F} (hw : w.Sound (providerSpec P sha256)) (hw' : w'.Sound (providerSpec P sha256))
    (h : Twin t w w') : t.response bm25 w = t.response bm25 w' := by
  have hemits : ∀ w : World F, w.Sound (providerSpec P sha256) →
      (contract (providerSpec P sha256) bm25).Emits t (handleRequest t.app t.request t.user) (fun _ _ => True) w :=
    fun w hw => emits_serving (Provided.serves hsha) bm25 t _ w ⟨ht, rfl⟩ hw
  exact (blind_request ht hfixed hreq w w' hw hw' h (hemits w hw) (hemits w' hw')).1

theorem Reachable.calm {w : World F} (h : Reachable bm25 (Provided P sha256) anyStep w) {user : String}
    (hs : w.db.Sealed user) :
    w.db.Calm user := ⟨h.anyone.keyed, h.anyone.indexed, h.anyone.joined, hs⟩

/-! ## What an edge from elsewhere gives away -/

theorem wp_linkedToData {app : AppState F} {w : World F} (linked : List (LinkedMemory F)) :
    (linkedToData app linked).wp (exec bm25) (fun ds _ => ds.length = linked.length) (fun _ => False) w := by
  induction linked generalizing w with
  | nil => rfl
  | cons lm linked ih =>
    refine wp.seq (P := fun _ _ => True) trivial fun d w₁ _ => wp.seq ih fun ds w₂ hds => ?_
    exact congrArg (· + 1) hds

/-- The answer to a GetLinked has as many entries as the store has for it. -/
theorem response_getLinked {app : AppState F} {user sourceId : String} {minStrength : F} {w : World F} (hq : w.Quiet) :
    ∃ ds, Caller.response bm25 ⟨app, user, .memory (.getLinked user sourceId minStrength)⟩ w = .ok (.linkedMemories ds) ∧
      ds.length = (w.db.linkedAt user (w.db.neighbors minStrength sourceId)).length := by
  have hrequire : (requireUserMatch user user : HandlerM F Unit) = Prog.pure () := if_pos rfl
  have hanswer : (handleMemoryGetLinked app user sourceId minStrength user).wp (exec bm25) (fun r _ => ∃ ds, r = .linkedMemories ds ∧
      ds.length = (w.db.linkedAt user (w.db.neighbors minStrength sourceId)).length) (fun _ => False) w := by
    unfold handleMemoryGetLinked
    rw [hrequire, bind_eq, pure_bind']
    refine wp.seq (.mapError (wp_linkedFor ⟨rfl, fun _ => hq.sql⟩) fun _ he => he trivial) ?_
    rintro linked w₁ ⟨rfl, -⟩
    exact wp.seq (wp_linkedToData _) fun ds w₂ hds => ⟨ds, rfl, hds⟩
  obtain ⟨r, hr, ds, rfl, hds⟩ := wp_total hanswer fun _ he => he
  exact ⟨ds, hr, hds⟩

omit [Field F] [LinearOrder F] [Elementary F] in
theorem exists_fresh (w w' : World F) : ∃ o : Oracle, w.Fresh o ∧ w'.Fresh o ∧ World.Quiet { w with oracle := o } := by
  obtain ⟨n, hn⟩ := ((w.minted ++ w'.minted).map fun p => p.1.toList.length).toFinset.bddAbove
  let o : Oracle := { Oracle.quiet with ulid := fun k => String.ofList (List.replicate (n + k + 1) 'a') }
  have hdistinct : Function.Injective o.ulid := by
    intro a b hab
    have hlen := congrArg List.length (String.ofList_injective hab)
    simpa using hlen
  have hfresh : ∀ k u, (o.ulid k, u) ∉ w.minted ++ w'.minted := by
    intro k u hmem
    have hle : (o.ulid k).toList.length ≤ n := hn (List.mem_toFinset.mpr (List.mem_map_of_mem hmem))
    simp only [o, String.toList_ofList, List.length_replicate] at hle
    omega
  refine ⟨o, ⟨hdistinct, fun k u h => ?_⟩, ⟨hdistinct, fun k u h => ?_⟩, ⟨fun _ => rfl, fun _ => rfl⟩⟩
  · exact hfresh k u (List.mem_append_left _ h)
  · exact hfresh k u (List.mem_append_right _ h)

/-- Every request on the user's memories that links and unlinks none of the others is answered alike, whatever
comes from outside, as long as nothing fails. -/
def AnswersAlike (bm25 : Bm25 F) (P : String → String → String → Except String (List F)) (sha256 : String → List UInt8)
    (user : String) (w w' : World F) : Prop :=
  ∀ (t : Caller F) (o : Oracle), t.user = user → Provided P sha256 t → t.request.personal → t.namesOwn w.db → t.namesOwn w'.db →
    w.Fresh o → w'.Fresh o → World.Quiet { w with oracle := o } →
      t.response bm25 { w with oracle := o } = t.response bm25 { w' with oracle := o }

/-- A store answers a user like one with the same memories of the user and the same edges between them, to
which no edge leads from memories of others, exactly when none leads there in it either. -/
theorem answersAlike_iff (hsha : Function.Injective sha256) (hfixed : bm25.Fixed) {user : String} {w w' : World F}
    (h : Reachable bm25 (Provided P sha256) anyStep w) (h' : Reachable bm25 (Provided P sha256) anyStep w')
    (hsame : w.db.SameFor user w'.db) (hsealed : w'.db.Sealed user) :
    AnswersAlike bm25 P sha256 user w w' ↔ w.db.Sealed user := by
  constructor
  · intro halike e he hsource
    by_contra htarget
    have hother : w.db.others user e.targetMemoryId = false := by simpa using htarget
    have hown : w.db.owns user e.targetMemoryId := by
      rw [← hasMemory_eq_owns hother]
      exact (h.anyone.joined e he).2
    have hnot : w'.db.owns user e.sourceMemoryId = false := by
      by_contra howns
      rw [Bool.not_eq_false, ← hsame.owns] at howns
      rw [not_others_of_owns h.anyone.keyed howns] at hsource
      cases hsource
    let t : Caller F :=
      ⟨⟨⟨"", "", P "" ""⟩, false, .default, sha256⟩, user, .memory (.getLinked user e.sourceMemoryId e.weight)⟩
    obtain ⟨o, ho, ho', hquiet⟩ := exists_fresh w w'
    have hnames : ∀ db : Db F, t.namesOwn db := by
      rintro db a b (⟨args, hreq, -⟩ | ⟨args, hreq, -⟩ | ⟨args, hreq, -⟩) <;> cases hreq
    have hanswers := halike t o rfl ⟨rfl, rfl⟩ trivial (hnames _) (hnames _) ho ho' hquiet
    have hquiet' : World.Quiet { w' with oracle := o } := ⟨hquiet.sql, hquiet.provider⟩
    obtain ⟨ds, hds, hlen⟩ := response_getLinked hquiet
    obtain ⟨ds', hds', hlen'⟩ := response_getLinked hquiet'
    -- the one answer lists the far end of the edge, the other nothing
    have hempty : w'.db.linkedAt user (w'.db.neighbors e.weight e.sourceMemoryId) = [] := by
      rw [linkedAt_visible, (h'.calm hsealed).visible_neighbors e.weight hnot, linkedAt_nil]
    have hsame_length : ds.length = ds'.length := by
      have heq := hds.symm.trans (hanswers.trans hds')
      cases heq
      rfl
    rw [hlen, hlen', hempty] at hsame_length
    exact linkedAt_of_edge he hown (List.eq_nil_of_length_eq_zero hsame_length)
  · rintro hs t o rfl ht hreq hn hn' ho ho' hquiet
    have hserves := Provided.serves (P := P) hsha
    have htwin : Twin t { w with oracle := o } { w' with oracle := o } :=
      ⟨hsame, rfl, hquiet, ⟨hn, hn'⟩, h.calm hs, h'.calm hsealed⟩
    exact htwin.response_eq hsha hfixed ht hreq ((h.sound hserves).oracle ho) ((h'.sound hserves).oracle ho')

end

/-! ### Alice and Bob -/

def stores (user text : String) : Caller ℚ := { batch user [text] with app := .taster }

def aliceAlone : World ℚ := (stores "alice" "milk").serve Bm25.none ((stores "alice" "tea").serve Bm25.none World.quiet)

def withBob : World ℚ := (stores "bob" "note").serve Bm25.none aliceAlone

def bridged : World ℚ :=
  ({ link "bob" "mem_aa" "mem_a" with app := .taster } : Caller ℚ).serve Bm25.none
    (({ link "alice" "mem_" "mem_aa" with app := .taster } : Caller ℚ).serve Bm25.none withBob)

def bridgeSearch : Caller ℚ := ⟨.taster, "alice", .memory (.search ⟨"alice", "tea", 5, false, false, 0, true⟩)⟩

def later : Oracle := { Oracle.quiet with ulid := fun n => String.ofList (List.replicate (n + 3) 'a') }

theorem later_fresh {w : World ℚ} (h : ∀ p ∈ w.minted, p.1.toList.length < 3) : w.Fresh later := by
  refine ⟨fun m n heq => ?_, fun n u hmem => ?_⟩
  · have hlen := congrArg List.length (String.ofList_injective heq)
    simpa using hlen
  · have hlen := h _ hmem
    simp only [later, String.toList_ofList, List.length_replicate] at hlen
    omega

theorem aliceAlone_reachable : Reachable Bm25.none (Provided taste utf8) anyStep aliceAlone :=
  (quiet_start.reachable.serve ⟨rfl, rfl⟩ fun _ _ => trivial).serve ⟨rfl, rfl⟩ fun _ _ => trivial

theorem withBob_reachable : Reachable Bm25.none (Provided taste utf8) anyStep withBob :=
  aliceAlone_reachable.serve ⟨rfl, rfl⟩ fun _ _ => trivial

/-- Bob's note changes no answer to Alice. -/
theorem answersAlike_with_bob : AnswersAlike Bm25.none taste utf8 "alice" withBob aliceAlone := by
  have hsame : withBob.db.SameFor "alice" aliceAlone.db := ⟨by decide +kernel, by decide +kernel⟩
  have hsealed : ∀ {w : World ℚ}, Reachable Bm25.none (Provided taste utf8) anyStep w → w.db.TenantSeparated →
      w.db.Sealed "alice" := fun hr hs => hs.unreached hr.anyone.joined "alice"
  refine (answersAlike_iff utf8_injective (fun _ _ _ _ => rfl) withBob_reachable aliceAlone_reachable hsame ?_).mpr ?_
  · exact hsealed aliceAlone_reachable (by decide +kernel)
  · exact hsealed withBob_reachable (by decide +kernel)

/-- The path through Bob's note shows in Alice's search. -/
theorem bridge_shows_bob : ¬ ∀ (w w' : World ℚ) (t : Caller ℚ)
    (o : Oracle), Reachable Bm25.none (Provided taste utf8) anyStep w →
    Reachable Bm25.none (Provided taste utf8) anyStep w' → Provided taste utf8 t → t.request.personal →
      w.db.SameFor t.user w'.db → w.Fresh o → w'.Fresh o → World.Quiet { w with oracle := o } →
        t.response Bm25.none { w with oracle := o } = t.response Bm25.none { w' with oracle := o } := by
  intro h
  have hreachable : Reachable Bm25.none (Provided taste utf8) anyStep bridged :=
    (withBob_reachable.serve ⟨rfl, rfl⟩ fun _ _ => trivial).serve ⟨rfl, rfl⟩ fun _ _ => trivial
  have hsame : withBob.db.SameFor "alice" bridged.db := ⟨by decide +kernel, by decide +kernel⟩
  have halike := h withBob bridged bridgeSearch later withBob_reachable hreachable ⟨rfl, rfl⟩ trivial hsame
    (later_fresh (by decide +kernel)) (later_fresh (by decide +kernel)) ⟨fun _ => rfl, fun _ => rfl⟩
  have hdiffer : (bridgeSearch.response Bm25.none { withBob with oracle := later }).toOption ≠
      (bridgeSearch.response Bm25.none { bridged with oracle := later }).toOption := by decide +kernel
  exact hdiffer (congrArg Except.toOption halike)

end CognitiveMemory
