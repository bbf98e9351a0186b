import CognitiveMemory.Daemon.Contract
import CognitiveMemory.Search.Visibility

/-! Every handler keeps the contract, whatever the other tasks do between its commands. -/

namespace CognitiveMemory
open Prog
variable {F : Type}

/-! ## Statements and repository methods -/

section repo
variable {spec : EmbeddingSpec F} {bm25 : Bm25 F} {t : Caller F} {s : World F}

variable [Field F] [LinearOrder F]

theorem emits_query {q : Query F} {Q : q.Res → World F → Prop}
    (h : ∀ (w w' : World F) (r : q.Res), s.minted ⊆ w.minted → w.minted ⊆ w'.minted → w.Sound spec →
      q.eval bm25 w.db = .ok r → Q r w') : (contract spec bm25).Emits t (query q) Q s := by
  refine Contract.emits_cmd fun w hr hi => ⟨trivial, Contract.emits_ofExcept fun r hres w' hr' _ => ?_⟩
  simp only [exec] at hres hr'
  split at hres
  · cases hres
  · exact h w w' r hr hr' hi hres

theorem emits_read {q : Query F} : (contract spec bm25).Emits t (query q) (fun _ _ => True) s :=
  emits_query fun _ _ _ _ _ _ _ => trivial

theorem emits_write {w : Write F} (h : ∀ s' : World F, s.minted ⊆ s'.minted → s'.Sound spec → t.mayWrite spec s' w) :
    (contract spec bm25).Emits t (write w) (fun _ _ => True) s :=
  Contract.emits_cmd fun s' hr hi => ⟨h s' hr hi, Contract.emits_ofExcept fun _ _ _ _ _ => trivial⟩

theorem emits_done {ε α : Type} (a : α) :
    (contract spec bm25).Emits t (Pure.pure a : Prog (Cmd F) Cmd.Res ε α) (fun _ _ => True) s :=
  Contract.emits_pure fun _ _ _ => trivial

theorem emits_clock {ε : Type} :
    (contract spec bm25).Emits t (unixNow : Prog (Cmd F) Cmd.Res ε Int) (fun _ _ => True) s :=
  Contract.emits_cmd fun _ _ _ => ⟨trivial, emits_done _⟩

theorem emits_unlessEmpty {α : Type} {xs : List α} {p : Repo F ℕ}
    (h : (contract spec bm25).Emits t p (fun _ _ => True) s) :
    (contract spec bm25).Emits t (unlessEmpty xs p) (fun _ _ => True) s := by
  unfold unlessEmpty
  split
  · exact emits_done _
  · exact h

theorem emits_update (hs : s.Sound spec) {userId id : String} {upd : MemoryUpdate F} (hu : userId = t.user)
    (hc : upd.content = none ∨ t.isUpdate) :
    (contract spec bm25).Emits t (update userId id upd) (fun _ _ => True) s := by
  unfold update
  split
  · exact emits_done _
  · exact .seq hs (emits_write fun _ _ _ => ⟨hu, hc⟩) fun n s' _ _ _ => emits_done _

def RowsOf (user : String) (rows : List (MemoryRow F)) (w : World F) : Prop := ∀ r ∈ rows, MintedFor w r.id user

theorem emits_getManyForUser {userId : String} {ids : List String} :
    (contract spec bm25).Emits t (getManyForUser userId ids) (RowsOf userId) s := by
  unfold getManyForUser
  split
  · exact Contract.emits_pure fun _ _ _ _ h => absurd h List.not_mem_nil
  · refine emits_query fun w w' rows _ hr hi hrows r hmem => ?_
    cases hrows
    have hin := List.mem_filter.mp ((List.perm_insertionSort _ _).mem_iff.mp hmem)
    have hown : r.userId = userId := by simpa using (Bool.and_eq_true_iff.mp hin.2).1
    exact (hown ▸ hi.rows r hin.1).mono hr

omit [Field F] [LinearOrder F] in
theorem mem_attachEdges {edges : List (NeighborEdge F)} {mems : List (MemoryRow F)} {lm : LinkedMemory F}
    (h : lm ∈ attachEdges edges mems) : lm.memory ∈ mems := by
  obtain ⟨m, hm, heq⟩ := List.mem_filterMap.mp h
  obtain ⟨e, -, rfl⟩ := Option.map_eq_some_iff.mp heq
  exact hm

def LinkedOf (user : String) (linked : List (LinkedMemory F)) (w : World F) : Prop :=
  ∀ lm ∈ linked, MintedFor w lm.memory.id user

theorem emits_memoriesAt (hs : s.Sound spec) {userId : String} {edges : List (NeighborEdge F)} :
    (contract spec bm25).Emits t (memoriesAt userId edges) (LinkedOf userId) s := by
  unfold memoriesAt
  split
  · exact Contract.emits_pure fun _ _ _ _ h => absurd h List.not_mem_nil
  · refine .seq hs emits_getManyForUser fun mems s' hr hi hm => ?_
    exact Contract.emits_pure fun s'' hr'' _ lm hlm => (hm lm.memory (mem_attachEdges hlm)).mono hr''

theorem emits_linkedFor (hs : s.Sound spec) {userId sourceId : String} {minWeight : F} :
    (contract spec bm25).Emits t (linkedFor userId sourceId minWeight) (LinkedOf userId) s :=
  .seq hs emits_read fun _ _ _ hi _ => emits_memoriesAt hi

theorem emits_linkedForMany (hs : s.Sound spec) {userId : String} {sourceIds : List String} {minWeight : F} :
    (contract spec bm25).Emits t (linkedForMany userId sourceIds minWeight) (LinkedOf userId) s := by
  unfold linkedForMany
  split
  · exact Contract.emits_pure fun _ _ _ _ h => absurd h List.not_mem_nil
  · exact .seq hs emits_read fun _ _ _ hi _ => emits_memoriesAt hi

def Caller.joins (t : Caller F) (a b : String) (w : World F) : Prop :=
  MintedFor w a t.user ∧ MintedFor w b t.user ∨ t.links a b

omit [Field F] [LinearOrder F] in
theorem Caller.joins.mono {a b : String} {w w' : World F} (h : t.joins a b w) (hm : w.minted ⊆ w'.minted) :
    t.joins a b w' := h.imp_left fun h => ⟨h.1.mono hm, h.2.mono hm⟩

theorem emits_createOrStrengthen (hs : s.Sound spec) {a b : String} {bump : F} {now : Int} {kind : String}
    (h : t.joins a b s) : (contract spec bm25).Emits t (createOrStrengthen a b bump now kind) (fun _ _ => True) s :=
  .seq hs emits_read fun _ _ hr _ _ => emits_write fun _ hr' _ => h.mono (List.Subset.trans hr hr')

theorem emits_linkBidirectional (hs : s.Sound spec) {a b : String} {bump : F} {now : Int} {kind : String}
    (h : t.joins a b s) (h' : t.joins b a s) :
    (contract spec bm25).Emits t (linkBidirectional a b bump now kind) (fun _ _ => True) s :=
  .seq hs (emits_createOrStrengthen hs h) fun _ _ hr hi _ =>
    .seq hi (emits_createOrStrengthen hi (h'.mono hr)) fun _ _ _ _ _ => emits_done _

end repo

/-! ## Search -/

section search
variable {spec : EmbeddingSpec F} {bm25 : Bm25 F} {t : Caller F} {s : World F}

def HitsOf (user : String) (results : List (SearchResult F)) (w : World F) : Prop :=
  ∀ r ∈ results, MintedFor w r.memoryId user

theorem HitsOf.mono {user : String} {results : List (SearchResult F)} {w w' : World F} (h : HitsOf user results w)
    (hm : w.minted ⊆ w'.minted) : HitsOf user results w' := fun r hr => (h r hr).mono hm

variable [Field F] [LinearOrder F]

theorem emits_hits {ε : Type} {user : String} {results : List (SearchResult F)} (h : HitsOf user results s) :
    (contract spec bm25).Emits t (Pure.pure results : Prog (Cmd F) Cmd.Res ε _) (HitsOf user) s :=
  Contract.emits_pure fun _ hr _ => h.mono hr

theorem emits_reciprocalRankFusion {lists : List (List RankedHit)} {k : ℕ} :
    (contract spec bm25).Emits t (reciprocalRankFusion lists k : SearchM F _) (fun _ _ => True) s :=
  Contract.emits_cmd fun _ _ _ => ⟨trivial, emits_done _⟩

theorem emits_fuseHybrid (hs : s.Sound spec) {user userId : String} {o : SearchOptions F} {scored : List (SearchResult F)}
    (h : HitsOf user scored s) : (contract spec bm25).Emits t (fuseHybrid userId o scored) (HitsOf user) s := by
  unfold fuseHybrid
  split
  · exact Contract.emits_fail
  · refine .seq hs (.mapError emits_read) fun bm25Ids s₁ hr₁ hi₁ _ => ?_
    refine .seq hi₁ emits_reciprocalRankFusion fun fused s₂ hr₂ _ _ => emits_hits fun r hr => ?_
    obtain ⟨p, -, hp⟩ := List.mem_filterMap.mp hr
    obtain ⟨r₀, hfind, rfl⟩ := Option.map_eq_some_iff.mp hp
    exact (h r₀ (List.mem_of_find?_eq_some hfind)).mono (List.Subset.trans hr₁ hr₂)

theorem hitsOf_add [Elementary F] {cfg : LifecycleConfig F} {queryVec : List F} {o : SearchOptions F} {user : String}
    {x : Expansion F} {linked : List (LinkedMemory F)} (hx : HitsOf user x.scored s) (hl : LinkedOf user linked s) :
    HitsOf user (linked.foldl (Expansion.add cfg queryVec o) x).scored s := by
  induction linked generalizing x with
  | nil => exact hx
  | cons lm linked ih =>
    refine ih ?_ fun l hlm => hl l (List.mem_cons_of_mem _ hlm)
    unfold Expansion.add
    split
    · exact hx
    · split
      · exact hx
      · rename_i r hr
        intro r' hr'
        rcases List.mem_append.mp hr' with hr' | hr'
        · exact hx r' hr'
        · have hid : r.memoryId = lm.memory.id := by
            unfold expandEntry at hr
            split at hr
            · cases hr
            · split at hr
              · cases hr
              · split at hr <;> cases hr
                rfl
          rw [List.mem_singleton.mp hr', hid]
          exact hl lm List.mem_cons_self

theorem emits_expandHops [Elementary F] {cfg : LifecycleConfig F} {userId : String} {queryVec : List F}
    {o : SearchOptions F} (hops : ℕ) {x : Expansion F} (hs : s.Sound spec) (hx : HitsOf userId x.scored s) :
    (contract spec bm25).Emits t (expandHops cfg userId queryVec o hops x) (HitsOf userId) s := by
  induction hops generalizing x s with
  | zero => exact emits_hits hx
  | succ hops ih =>
    rw [expandHops]
    split
    · exact emits_hits hx
    · refine .seq hs (.mapError (emits_linkedForMany hs)) fun linked s' hr hi hl => ih hi ?_
      exact hitsOf_add (hx.mono hr) hl

omit [Field F] in
theorem hitsOf_sort {user : String} {results : List (SearchResult F)} (h : HitsOf user results s) :
    HitsOf user (sortDesc SearchResult.score results) s := fun r hr =>
  h r ((List.perm_insertionSort _ _).mem_iff.mp hr)

theorem emits_candidates {userId provider model : String} {now : Int} {deepRecall : Bool} :
    (contract spec bm25).Emits t (query (.candidatesForSearch userId provider model now deepRecall))
      (fun cs w => ∀ c ∈ cs, MintedFor w c.id userId) s := by
  refine emits_query fun w w' cs _ hr hi hcs c hc => ?_
  cases hcs
  obtain ⟨r, hrm, rfl⟩ := List.mem_map.mp hc
  obtain ⟨hmem, hsearchable⟩ := List.mem_filter.mp hrm
  have hown : r.userId = userId := by
    simp only [MemoryRow.searchable, Bool.and_eq_true, beq_iff_eq] at hsearchable
    tauto
  have hid := hi.rows r hmem
  rw [hown] at hid
  exact hid.mono hr

theorem emits_hybridHits (hs : s.Sound spec) {user userId : String} {o : SearchOptions F}
    {scored : List (SearchResult F)} (h : HitsOf user scored s) :
    (contract spec bm25).Emits t (hybridHits userId o scored) (HitsOf user) s := by
  unfold hybridHits
  split
  · exact emits_fuseHybrid hs h
  · exact emits_hits h

variable [Elementary F]

theorem emits_expandedHits (hs : s.Sound spec) {cfg : LifecycleConfig F} {userId : String} {queryVec : List F}
    {o : SearchOptions F} {scored : List (SearchResult F)} (h : HitsOf userId scored s) :
    (contract spec bm25).Emits t (expandedHits cfg userId queryVec o scored) (HitsOf userId) s := by
  unfold expandedHits
  split
  · exact .seq hs (emits_expandHops _ hs h) fun _ _ _ _ hx => emits_hits (hitsOf_sort hx)
  · exact emits_hits h

theorem emits_search (hs : s.Sound spec) {cfg : LifecycleConfig F} {userId : String} {queryVec : List F}
    {o : SearchOptions F} : (contract spec bm25).Emits t (search cfg userId queryVec o) (HitsOf userId) s := by
  unfold search
  split
  · exact Contract.emits_fail
  split
  · exact Contract.emits_pure fun _ _ _ _ h => absurd h List.not_mem_nil
  refine .seq hs (.mapError emits_candidates) fun cs s₁ hr₁ hi₁ hcs => ?_
  have hscored : (contract spec bm25).Emits t
      (Prog.ofExcept (cs.mapM (scoreCandidate cfg queryVec o.now)) : SearchM F _) (HitsOf userId) s₁ := by
    refine Contract.emits_ofExcept fun dense hd s' hr' _ r hr => ?_
    rw [(mapM_scoreCandidate hd).2] at hr
    obtain ⟨c, hc, rfl⟩ := List.mem_map.mp hr
    exact (hcs c hc).mono hr'
  refine .seq hi₁ hscored fun dense s₂ _ hi₂ hd => ?_
  refine .seq hi₂ (emits_hybridHits hi₂ (hitsOf_sort hd)) fun hits s₃ _ hi₃ hh => ?_
  refine .seq hi₃ (emits_expandedHits hi₃ hh) fun final s₄ _ _ hf => ?_
  exact emits_hits fun r hr => hf r (List.mem_of_mem_take hr)

end search

/-! ## Requests -/

section handlers
variable {spec : EmbeddingSpec F} {bm25 : Bm25 F} {t : Caller F} {s : World F}

section
variable [Field F] [LinearOrder F]

theorem emits_sqlx {α : Type} {p : Repo F α} {Q : α → World F → Prop} (h : (contract spec bm25).Emits t p Q s) :
    (contract spec bm25).Emits t (sqlx p) Q s := h.mapError

theorem emits_require {userId user : String} :
    (contract spec bm25).Emits t (requireUserMatch userId user : HandlerM F Unit) (fun _ _ => userId = user) s := by
  unfold requireUserMatch
  split
  · exact Contract.emits_pure fun _ _ _ => ‹_›
  · exact Contract.emits_fail

/-- The vector `embed` answers belongs to the text, from the cache or from the provider. -/
theorem emits_embed (hs : s.Sound spec) (hv : spec.Serves t.app) {text : String} :
    (contract spec bm25).Emits t (embed t.app text)
      (fun v _ => spec.good t.app.embeddings.name t.app.embeddings.model (canonicalise text) v) s := by
  refine Contract.Emits.mapError (.seq (P := fun cached _ => ∀ v, cached = some v →
    spec.good t.app.embeddings.name t.app.embeddings.model (canonicalise text) v) hs (.mapError ?_) fun cached s₁ _ hi₁ hc => ?_)
  · refine emits_query fun w w' cached _ _ hi hres v hv' => ?_
    cases hres
    obtain ⟨c, hc, rfl⟩ := Option.map_eq_some_iff.mp hv'
    have hkey := List.find?_some hc
    simp only [Bool.and_eq_true, beq_iff_eq] at hkey
    have hcached := hi.cache c (List.mem_of_find?_eq_some hc)
    rw [← hv.cache, ← hkey.1.1, ← hkey.1.2, ← hkey.2]
    exact hcached
  · cases cached with
    | some v => exact Contract.emits_pure fun _ _ _ => hc v rfl
    | none =>
      have hprovider : (contract spec bm25).Emits t
          (Prog.call (Cmd.provider t.app.embeddings (canonicalise text)) : Prog (Cmd F) Cmd.Res EmbeddingError _)
          (fun answer _ => ∀ v, answer = .ok v →
            spec.good t.app.embeddings.name t.app.embeddings.model (canonicalise text) v) s₁ := by
        refine Contract.emits_cmd fun w _ _ => ⟨trivial, Contract.emits_pure fun _ _ _ v hres => ?_⟩
        simp only [exec] at hres
        split at hres
        · cases hres
        · exact hv.embed _ v hres
      refine .seq hi₁ hprovider fun answer s₂ _ hi₂ ha => ?_
      refine .seq hi₂ (.mapError (Contract.emits_ofExcept fun v hres _ _ _ => ha v hres)) fun v s₃ _ hi₃ hgood => ?_
      refine .seq hi₃ (.mapError (emits_write fun _ _ _ => (hv.cache _ v).mpr hgood)) fun _ _ _ _ _ => ?_
      exact Contract.emits_pure fun _ _ _ => hgood

theorem emits_freshMemoryId {owner : String} :
    (contract spec bm25).Emits t (freshMemoryId owner : HandlerM F String) (fun id w => MintedFor w id owner) s := by
  refine Contract.emits_cmd fun w _ _ => ⟨trivial, Contract.emits_pure fun w' hr _ => ?_⟩
  exact ⟨w.oracle.ulid 0, rfl, hr List.mem_cons_self⟩

theorem emits_affecting (hs : s.Sound spec) {userId : String} {p : Repo F ℕ}
    (h : ∀ s', userId = t.user → (contract spec bm25).Emits t p (fun _ _ => True) s') :
    (contract spec bm25).Emits t (affecting userId t.user p) (fun _ _ => True) s :=
  .seq hs emits_require fun _ _ _ hi hu => .seq hi (emits_sqlx (h _ hu)) fun _ _ _ _ _ => emits_done _

theorem emits_affectingOne (hs : s.Sound spec) {userId : String} {p : Repo F ℕ}
    (h : ∀ s', userId = t.user → (contract spec bm25).Emits t p (fun _ _ => True) s') :
    (contract spec bm25).Emits t (affectingOne userId t.user p) (fun _ _ => True) s :=
  .seq hs emits_require fun _ _ _ hi hu => .seq hi (emits_sqlx (h _ hu)) fun _ _ _ _ _ => emits_done _

theorem emits_updateOne (hs : s.Sound spec) {userId id : String} {upd : MemoryUpdate F}
    (hc : upd.content = none ∨ t.isUpdate) :
    (contract spec bm25).Emits t (updateOne userId id upd t.user) (fun _ _ => True) s :=
  .seq hs emits_require fun _ _ _ hi hu => .seq hi (emits_sqlx (emits_update hi hu hc)) fun _ _ _ _ _ => emits_done _

theorem emits_linkStrength (hs : s.Sound spec) {args : LinkMemoryArgs F} {now : Int}
    (hreq : t.request = .memory (.link args)) (hu : args.userId = t.user) :
    (contract spec bm25).Emits t (linkStrength args now) (fun _ _ => True) s := by
  have hlink : t.joins args.sourceId args.targetId s := .inr ⟨args, hreq, hu, .inl rfl⟩
  unfold linkStrength
  split
  · rename_i hb
    exact emits_linkBidirectional hs hlink (.inr ⟨args, hreq, hu, .inr ⟨hb, rfl⟩⟩)
  · exact emits_createOrStrengthen hs hlink

theorem emits_link (hs : s.Sound spec) {args : LinkMemoryArgs F} (hreq : t.request = .memory (.link args)) :
    (contract spec bm25).Emits t (handleMemoryLink args t.user) (fun _ _ => True) s :=
  .seq hs emits_require fun _ _ _ hi hu => .seq hi emits_clock fun _ _ _ hi' _ =>
    .seq hi' (emits_sqlx (emits_linkStrength hi' hreq hu)) fun _ _ _ _ _ => emits_done _

theorem emits_unlink (hs : s.Sound spec) {args : UnlinkMemoryArgs} (hreq : t.request = .memory (.unlink args)) :
    (contract spec bm25).Emits t (handleMemoryUnlink args t.user : HandlerM F _) (fun _ _ => True) s := by
  unfold handleMemoryUnlink
  split
  · rename_i hb
    exact emits_affecting hs fun _ hu => emits_write fun _ _ _ => ⟨args, hreq, hu, rfl, rfl, hb⟩
  · rename_i hb
    exact emits_affectingOne hs fun _ hu => emits_write fun _ _ _ => ⟨args, hreq, hu, rfl, rfl, by simpa using hb⟩

theorem mem_orderedPairs {α : Type} {xs : List α} {p : α × α} (h : p ∈ orderedPairs xs) : p.1 ∈ xs ∧ p.2 ∈ xs := by
  induction xs with
  | nil => exact absurd h List.not_mem_nil
  | cons x xs ih =>
    rcases List.mem_append.mp h with h | h
    · obtain ⟨y, hy, rfl⟩ := List.mem_map.mp h
      exact ⟨List.mem_cons_self, List.mem_cons_of_mem _ hy⟩
    · exact ⟨List.mem_cons_of_mem _ (ih h).1, List.mem_cons_of_mem _ (ih h).2⟩

theorem emits_linkAll (hs : s.Sound spec) {weight : F} {now : Int} {pairs : List (String × String)}
    (h : ∀ p ∈ pairs, MintedFor s p.1 t.user ∧ MintedFor s p.2 t.user) :
    (contract spec bm25).Emits t (linkAll weight now pairs) (fun _ _ => True) s := by
  induction pairs generalizing s with
  | nil => exact emits_done _
  | cons p pairs ih =>
    obtain ⟨ha, hb⟩ := h p List.mem_cons_self
    refine .seq hs (emits_sqlx (emits_linkBidirectional hs (.inl ⟨ha, hb⟩) (.inl ⟨hb, ha⟩))) fun _ s₁ hr₁ hi₁ _ => ?_
    refine .seq hi₁ (ih hi₁ fun q hq => ?_) fun _ _ _ _ _ => emits_done _
    exact ⟨(h q (List.mem_cons_of_mem _ hq)).1.mono hr₁, (h q (List.mem_cons_of_mem _ hq)).2.mono hr₁⟩

theorem emits_restoreCold (hs : s.Sound spec) {ids : List String} :
    (contract spec bm25).Emits t (restoreCold t.user ids : HandlerM F Unit) (fun _ _ => True) s :=
  .seq hs (emits_sqlx emits_getManyForUser) fun _ _ _ hi _ =>
    .seq hi (emits_sqlx (emits_unlessEmpty (emits_write fun _ _ _ => rfl))) fun _ _ _ _ _ => emits_done _

theorem emits_whenever {b : Bool} {p : HandlerM F Unit} (h : (contract spec bm25).Emits t p (fun _ _ => True) s) :
    (contract spec bm25).Emits t (whenever b p) (fun _ _ => True) s := by
  unfold whenever
  split
  · exact h
  · exact emits_done _

end

/-! ### Reads -/

def Cmd.reads : Cmd F → Prop
  | .query (.hotEmbedded _) | .query (.cacheGet ..) => False
  | .query _ => True
  | _ => False

theorem only_edgesFrom {sourceId : String} {minWeight : F} : (query (.edgesFrom sourceId minWeight)).Only Cmd.reads :=
  ⟨trivial, fun r => by exact only_ofExcept r⟩

theorem only_bfsFront {goal : String} {minWeight : F} (front : List (String × List String)) (visited : List String)
    (back : List (String × List String)) : (bfsFront goal minWeight front visited back).Only Cmd.reads := by
  induction front generalizing visited back with
  | nil => trivial
  | cons node front ih =>
    refine only_bind only_edgesFrom fun edges => ?_
    split
    · trivial
    · exact ih _ _

theorem only_bfsLevels {goal : String} {minWeight : F} (depth : ℕ) (front : List (String × List String))
    (visited : List String) : (bfsLevels goal minWeight depth front visited).Only Cmd.reads := by
  induction depth generalizing front visited with
  | zero => trivial
  | succ depth ih =>
    refine only_bind (only_bfsFront _ _ _) fun found => ?_
    split
    · trivial
    · exact ih _ _

theorem only_bridgeChains {o : SearchOptions F} (pairs : List (String × String)) (chains : List (List String)) :
    (bridgeChains o pairs chains).Only Cmd.reads := by
  induction pairs generalizing chains with
  | nil => trivial
  | cons p pairs ih =>
    rw [bridgeChains]
    split
    · exact ih _
    · refine only_bind (only_mapError (only_bfsLevels _ _ _)) fun path => ?_
      split
      · exact ih _
      · exact ih _

theorem only_findBridges {anchors : List String} {o : SearchOptions F} :
    (findBridges anchors o).Only Cmd.reads := by
  unfold findBridges
  split
  · trivial
  · exact only_bridgeChains _ _

theorem emits_findBridges [Field F] [LinearOrder F] {anchors : List String} {o : SearchOptions F} :
    (contract spec bm25).Emits t (findBridges anchors o) (fun _ _ => True) s := by
  refine Contract.emits_of_only (P := Cmd.reads) (fun w c hc => ?_) only_findBridges
  cases c <;> trivial

end handlers

section
variable {spec : EmbeddingSpec F} {bm25 : Bm25 F} {t : Caller F} {s : World F}

variable [Field F] [LinearOrder F]

theorem emits_memoryRowToData [Elementary F] {app : AppState F} (hs : s.Sound spec) {row : MemoryRow F} :
    (contract spec bm25).Emits t (memoryRowToData app row) (fun _ _ => True) s :=
  .seq hs emits_clock fun _ _ _ _ _ => emits_done _

theorem emits_memoryRowsToData [Elementary F] {app : AppState F} (hs : s.Sound spec) {rows : List (MemoryRow F)} :
    (contract spec bm25).Emits t (memoryRowsToData app rows) (fun _ _ => True) s := by
  induction rows generalizing s with
  | nil => exact emits_done _
  | cons row rows ih =>
    exact .seq hs (emits_memoryRowToData hs) fun _ _ _ hi _ => .seq hi (ih hi) fun _ _ _ _ _ => emits_done _

theorem emits_linkedToData [Elementary F] {app : AppState F} (hs : s.Sound spec) {linked : List (LinkedMemory F)} :
    (contract spec bm25).Emits t (linkedToData app linked) (fun _ _ => True) s := by
  induction linked generalizing s with
  | nil => exact emits_done _
  | cons lm linked ih =>
    exact .seq hs (emits_memoryRowToData hs) fun _ _ _ hi _ => .seq hi (ih hi) fun _ _ _ _ _ => emits_done _

/-! ### Storing -/

omit [LinearOrder F] in
theorem embeddedRow_coherent {app : AppState F} {id userId content category memoryType : String} {vector : List F}
    {now : Int} (h : spec.good app.embeddings.name app.embeddings.model (canonicalise content) vector) :
    (embeddedRow app id userId content category memoryType vector now).Coherent spec := by
  intro v hv
  cases hv
  exact ⟨_, _, rfl, rfl, h⟩

theorem storedRow_fields (app : AppState F) (args : StoreMemoryArgs F) (id : String) (vector : List F) (now : Int) :
    (storedRow app args id vector now).Follows
      (embeddedRow app id args.userId args.content args.category args.memoryType vector now) := by
  unfold storedRow
  split <;> exact ⟨rfl, rfl, rfl, rfl, rfl, .inl rfl⟩

theorem emits_queueConflictsFor [Elementary F] {app : AppState F} (hs : s.Sound spec) {newId : String}
    {newVec : List F} {now : Int} (h : MintedFor s newId t.user) :
    (contract spec bm25).Emits t (queueConflictsFor app t.user newId newVec now) (fun _ _ => True) s := by
  refine .seq hs (.mapError (emits_search hs)) fun hits s₁ hr₁ hi₁ hh => emits_sqlx (emits_write fun s₂ hr₂ _ => ?_)
  refine ⟨rfl, h.mono (List.Subset.trans hr₁ hr₂), fun hit hhit => ?_⟩
  obtain ⟨r, hr, rfl⟩ := List.mem_map.mp hhit
  exact (hh r hr).mono hr₂

theorem emits_store [Elementary F] (hs : s.Sound spec) (hv : spec.Serves t.app) {args : StoreMemoryArgs F} :
    (contract spec bm25).Emits t (handleMemoryStore t.app args t.user) (fun _ _ => True) s := by
  refine .seq hs emits_require fun _ s₁ _ hi₁ hu => ?_
  refine .seq hi₁ (emits_embed hi₁ hv) fun vector s₂ _ hi₂ hgood => ?_
  refine .seq hi₂ emits_freshMemoryId fun id s₃ _ hi₃ hid => .seq hi₃ emits_clock fun now s₄ hr₄ hi₄ _ => ?_
  have hrow := storedRow_fields t.app args id vector now
  have hinsert : ∀ s' : World F, s₄.minted ⊆ s'.minted → s'.Sound spec →
      t.mayWrite spec s' (.insertMemory (storedRow t.app args id vector now)) := fun s' hr' _ => by
    refine ⟨?_, .inr (hrow.userId.trans hu), (embeddedRow_coherent hgood).follows hrow⟩
    rw [hrow.id, hrow.userId]
    exact hid.mono (List.Subset.trans hr₄ hr')
  refine .seq hi₄ (emits_sqlx (emits_write hinsert)) fun _ s₅ hr₅ hi₅ _ => ?_
  rw [hu] at hid ⊢
  exact .seq hi₅ (emits_queueConflictsFor hi₅ (hid.mono (List.Subset.trans hr₄ hr₅))) fun _ _ _ _ _ => emits_done _

theorem emits_storeEntries (hs : s.Sound spec) (hv : spec.Serves t.app) {now : Int} {entries : List BatchMemoryEntry} :
    (contract spec bm25).Emits t (storeEntries t.app t.user now entries)
      (fun ids w => ∀ id ∈ ids, MintedFor w id t.user) s := by
  induction entries generalizing s with
  | nil => exact Contract.emits_pure fun _ _ _ _ h => absurd h List.not_mem_nil
  | cons entry entries ih =>
    refine .seq hs (emits_embed hs hv) fun vector s₁ _ hi₁ hgood => ?_
    refine .seq hi₁ emits_freshMemoryId fun id s₂ _ hi₂ hid => ?_
    refine .seq hi₂ (emits_sqlx (emits_write fun s' hr' _ => ?_)) fun _ s₃ hr₃ hi₃ _ => ?_
    · have hrow : (embeddedRow t.app id t.user entry.content entry.category entry.memoryType vector now).Coherent spec :=
        embeddedRow_coherent hgood
      exact ⟨hid.mono hr', .inr rfl, hrow.follows ⟨rfl, rfl, rfl, rfl, rfl, .inl rfl⟩⟩
    · refine .seq hi₃ (ih hi₃) fun ids s₄ hr₄ _ hids => Contract.emits_pure fun s₅ hr₅ _ id' hid' => ?_
      rcases List.mem_cons.mp hid' with rfl | hid'
      · exact hid.mono (List.Subset.trans hr₃ (List.Subset.trans hr₄ hr₅))
      · exact (hids id' hid').mono hr₅

theorem emits_storeBatch (hs : s.Sound spec) (hv : spec.Serves t.app) {args : StoreBatchArgs F} :
    (contract spec bm25).Emits t (handleMemoryStoreBatch t.app args t.user) (fun _ _ => True) s := by
  refine .seq hs emits_require fun _ s₁ _ hi₁ hu => ?_
  split
  · exact emits_done _
  · refine .seq hi₁ emits_clock fun now s₂ _ hi₂ _ => ?_
    rw [hu]
    refine .seq hi₂ (emits_storeEntries hi₂ hv) fun ids s₃ _ hi₃ hids => ?_
    refine .seq hi₃ (emits_linkAll hi₃ fun p hp => ?_) fun _ _ _ _ _ => emits_done _
    exact ⟨hids _ (mem_orderedPairs hp).1, hids _ (mem_orderedPairs hp).2⟩

/-! ### Searching -/

theorem emits_strengthenResults {app : AppState F} (hs : s.Sound spec) {results : List (SearchResult F)} {now : Int}
    (h : HitsOf t.user results s) :
    (contract spec bm25).Emits t (strengthenResults app t.user results now) (fun _ _ => True) s := by
  have hboost : (contract spec bm25).Emits t (applyPostRetrievalStrengthening app t.user
      (results.map fun r => (r.memoryId, r.source)) now) (fun _ _ => True) s := by
    refine .seq hs (emits_sqlx emits_getManyForUser) fun rows s₁ _ hi₁ _ => ?_
    refine .seq hi₁ (Contract.emits_cmd fun _ _ _ => ⟨trivial, emits_done _⟩) fun u s₂ _ hi₂ _ => ?_
    refine .seq hi₂ (emits_sqlx (emits_unlessEmpty (emits_write fun _ _ _ => rfl))) fun _ s₃ _ hi₃ _ => ?_
    exact .seq hi₃ (emits_sqlx (emits_unlessEmpty (emits_write fun _ _ _ => rfl))) fun _ _ _ _ _ => emits_done _
  refine .seq hs hboost fun _ s₁ hr₁ hi₁ _ => ?_
  refine .seq hi₁ (emits_sqlx (emits_unlessEmpty (emits_write fun s₂ hr₂ _ => ⟨rfl, fun p hp => ?_⟩)))
      fun _ _ _ _ _ => emits_done _
  have hid : ∀ id ∈ (results.map SearchResult.memoryId).take 10, MintedFor s₂ id t.user := by
    intro id hid
    obtain ⟨r, hr, rfl⟩ := List.mem_map.mp (List.mem_of_mem_take hid)
    exact (h r hr).mono (List.Subset.trans hr₁ hr₂)
  exact ⟨hid _ (mem_orderedPairs hp).1, hid _ (mem_orderedPairs hp).2⟩

section
variable [Elementary F]

theorem emits_memorySearch (hs : s.Sound spec) (hv : spec.Serves t.app) {args : SearchMemoryArgs} :
    (contract spec bm25).Emits t (handleMemorySearch t.app args t.user) (fun _ _ => True) s := by
  refine .seq hs emits_require fun _ s₁ _ hi₁ hu => ?_
  rw [hu]
  refine .seq hi₁ (emits_embed hi₁ hv) fun vector s₂ _ hi₂ _ => .seq hi₂ emits_clock fun now s₃ _ hi₃ _ => ?_
  refine .seq hi₃ (.mapError (emits_search hi₃)) fun results s₄ _ hi₄ hh => ?_
  refine .seq hi₄ (.mapError emits_findBridges) fun bridges s₅ hr₅ hi₅ _ => ?_
  refine .seq hi₅ (emits_whenever (emits_restoreCold hi₅)) fun _ s₆ hr₆ hi₆ _ => ?_
  have hh₆ : HitsOf t.user results s₆ := hh.mono (List.Subset.trans hr₅ hr₆)
  exact .seq hi₆ (emits_whenever (emits_strengthenResults hi₆ hh₆)) fun _ _ _ _ _ => emits_done _

theorem emits_vectorSearch {app : AppState F} (hs : s.Sound spec) {args : VectorSearchArgs F} :
    (contract spec bm25).Emits t (handleVectorSearch app args t.user) (fun _ _ => True) s :=
  .seq hs emits_require fun _ _ _ hi _ => .seq hi emits_clock fun _ _ _ hi' _ =>
    .seq hi' (.mapError (emits_search hi')) fun _ _ _ _ _ => emits_done _

/-! ### Reading -/

theorem emits_get {app : AppState F} (hs : s.Sound spec) {userId id : String} :
    (contract spec bm25).Emits t (handleMemoryGet app userId id t.user) (fun _ _ => True) s := by
  refine .seq hs emits_require fun _ s₁ _ hi₁ hu => .seq hi₁ (emits_sqlx emits_read) fun row? s₂ _ hi₂ _ => ?_
  cases row? with
  | none => exact Contract.emits_fail
  | some row =>
    dsimp only
    split
    · refine .seq hi₂ (emits_sqlx (emits_unlessEmpty (emits_write fun _ _ _ => hu))) fun _ s₃ _ hi₃ _ => ?_
      exact .seq hi₃ (emits_memoryRowToData hi₃) fun _ _ _ _ _ => emits_done _
    · exact .seq hi₂ (emits_memoryRowToData hi₂) fun _ _ _ _ _ => emits_done _

theorem emits_getMany {app : AppState F} (hs : s.Sound spec) {userId : String} {ids : List String} :
    (contract spec bm25).Emits t (handleMemoryGetMany app userId ids t.user) (fun _ _ => True) s := by
  refine .seq hs emits_require fun _ s₁ _ hi₁ hu => .seq hi₁ (emits_sqlx emits_getManyForUser) fun rows s₂ _ hi₂ _ => ?_
  refine .seq hi₂ (emits_sqlx (emits_unlessEmpty (emits_write fun _ _ _ => hu))) fun _ s₃ _ hi₃ _ => ?_
  exact .seq hi₃ (emits_memoryRowsToData hi₃) fun _ _ _ _ _ => emits_done _

theorem emits_memory (hs : s.Sound spec) (hv : spec.Serves t.app) {req : MemoryRequest F}
    (hreq : t.request = .memory req) :
    (contract spec bm25).Emits t (handleMemoryRequest t.app req t.user) (fun _ _ => True) s := by
  cases req with
  | subscribe => exact Contract.emits_fail
  | store => exact emits_store hs hv
  | storeBatch => exact emits_storeBatch hs hv
  | search => exact emits_memorySearch hs hv
  | get => exact emits_get hs
  | getMany => exact emits_getMany hs
  | list =>
    exact .seq hs emits_require fun _ _ _ hi _ => .seq hi (emits_sqlx emits_read) fun _ _ _ hi' _ =>
      .seq hi' (emits_memoryRowsToData hi') fun _ _ _ _ _ => emits_done _
  | update args => exact emits_updateOne hs (.inr ⟨args, hreq⟩)
  | delete => exact emits_affectingOne hs fun _ hu => emits_write fun _ _ _ => hu
  | deleteMany => exact emits_affecting hs fun _ hu => emits_unlessEmpty (emits_write fun _ _ _ => hu)
  | link => exact emits_link hs hreq
  | unlink => exact emits_unlink hs hreq
  | getLinked =>
    exact .seq hs emits_require fun _ _ _ hi _ => .seq hi (emits_sqlx (emits_linkedFor hi)) fun _ _ _ hi' _ =>
      .seq hi' (emits_linkedToData hi') fun _ _ _ _ _ => emits_done _
  | getLinkedMany =>
    exact .seq hs emits_require fun _ _ _ hi _ => .seq hi (emits_sqlx (emits_linkedForMany hi)) fun _ _ _ hi' _ =>
      .seq hi' (emits_linkedToData hi') fun _ _ _ _ _ => emits_done _
  | vectorSearch => exact emits_vectorSearch hs
  | searchLexical =>
    exact .seq hs emits_require fun _ _ _ hi _ => .seq hi (emits_sqlx emits_read) fun _ _ _ _ _ => emits_done _
  | batchUpdate => exact emits_affecting hs fun _ hu => emits_unlessEmpty (emits_write fun _ _ _ => hu)

end

/-! ### Diagnostics -/

theorem emits_mintBridgeToken {app : AppState F} (hs : s.Sound spec) {userId : String} {scope : BridgeScope}
    {ttlSeconds : ℕ} :
    (contract spec bm25).Emits t (handleMintBridgeToken app userId scope ttlSeconds : HandlerM F _) (fun _ _ => True) s := by
  have huuid : ∀ s', (contract spec bm25).Emits t (Prog.call Cmd.uuid : HandlerM F String) (fun _ _ => True) s' :=
    fun _ => Contract.emits_cmd fun _ _ _ => ⟨trivial, emits_done _⟩
  refine .seq hs (huuid _) fun _ _ _ hi₁ _ => .seq hi₁ (huuid _) fun _ _ _ hi₂ _ => ?_
  refine .seq hi₂ emits_clock fun _ _ _ hi₃ _ => ?_
  exact .seq hi₃ (emits_sqlx (emits_write fun _ _ _ => trivial)) fun _ _ _ _ _ => emits_done _

theorem emits_validateBridgeToken {app : AppState F} (hs : s.Sound spec) {token : String} {requiredScope : BridgeScope} :
    (contract spec bm25).Emits t (handleValidateBridgeToken app token requiredScope : HandlerM F _) (fun _ _ => True) s := by
  refine .seq hs (emits_sqlx emits_read) fun row? s₁ _ hi₁ _ => ?_
  cases row? with
  | none => exact Contract.emits_fail
  | some row =>
    refine .seq hi₁ emits_clock fun now _ _ _ _ => ?_
    split
    · exact Contract.emits_fail
    · split
      · exact Contract.emits_fail
      · exact emits_done _

theorem emits_diagnostics {app : AppState F} (hs : s.Sound spec) {req : DiagnosticsRequest} :
    (contract spec bm25).Emits t (handleDiagnosticsRequest app req t.user : HandlerM F _) (fun _ _ => True) s := by
  cases req with
  | status => exact .seq hs (emits_sqlx emits_read) fun _ _ _ _ _ => emits_done _
  | doctor =>
    refine .seq hs (Contract.emits_cmd fun _ _ _ => ⟨trivial, emits_done _⟩) fun _ _ _ hi _ => ?_
    exact .seq hi (Contract.emits_cmd fun _ _ _ => ⟨trivial, emits_done _⟩) fun _ _ _ _ _ => emits_done _
  | recentTraces => exact emits_done _
  | shutdown => exact emits_done _
  | mintBridgeToken => exact emits_mintBridgeToken hs
  | validateBridgeToken => exact emits_validateBridgeToken hs
  | counts =>
    exact .seq hs emits_require fun _ _ _ hi _ => .seq hi (emits_sqlx emits_read) fun _ _ _ _ _ => emits_done _

/-! ### The tick -/

theorem summaryRow_follows (app : AppState F) (id userId text : String) (vector : List F) (now : Int)
    (group : List (MemoryRow F)) :
    (summaryRow app id userId text vector now group).Follows
      (embeddedRow app id userId text ((group.head?.map MemoryRow.category).getD "") "summary" vector now) :=
  ⟨rfl, rfl, rfl, rfl, rfl, .inl rfl⟩

theorem emits_compressCluster (hs : s.Sound spec) (hv : spec.Serves t.app) (htick : t.isTick) {userId : String}
    {group : List (MemoryRow F)} {now : Int} :
    (contract spec bm25).Emits t (compressCluster t.app userId group now) (fun _ _ => True) s := by
  refine .seq hs (Contract.emits_cmd fun _ _ _ => ⟨trivial, emits_done _⟩) fun answer s₁ _ hi₁ _ => ?_
  refine .seq hi₁ (.mapError (Contract.emits_ofExcept fun _ _ _ _ _ => trivial)) fun text s₂ _ hi₂ _ => ?_
  refine .seq hi₂ (emits_embed hi₂ hv) fun vector s₃ _ hi₃ hgood => ?_
  refine .seq hi₃ emits_freshMemoryId fun id s₄ _ hi₄ hid => ?_
  refine .seq hi₄ (emits_sqlx (emits_write fun s' hr' _ => ?_)) fun _ s₅ _ hi₅ _ => ?_
  · exact ⟨hid.mono hr', .inl htick, (embeddedRow_coherent hgood).follows (summaryRow_follows ..)⟩
  · exact .seq hi₅ (emits_sqlx (emits_write fun _ _ _ => htick)) fun _ _ _ _ _ => emits_done _

variable [Elementary F]

theorem emits_consolidateCategory (hs : s.Sound spec) (hv : spec.Serves t.app) (htick : t.isTick) {userId : String}
    {now : Int} (rows : List (MemoryRow F)) (used : List String) (created : ℕ) :
    (contract spec bm25).Emits t (consolidateCategory t.app userId now rows used created) (fun _ _ => True) s := by
  induction rows generalizing used created s with
  | nil => exact emits_done _
  | cons head rest ih =>
    rw [consolidateCategory]
    split
    · exact emits_done _
    · split
      · exact ih hs _ _
      · dsimp only
        split
        · exact .seq hs (emits_compressCluster hs hv htick) fun _ _ _ hi _ => ih hi _ _
        · exact ih hs _ _

theorem emits_consolidateCategories (hs : s.Sound spec) (hv : spec.Serves t.app) (htick : t.isTick) {userId : String}
    {now : Int} {fading : List (MemoryRow F)} (categories : List String) (created : ℕ) :
    (contract spec bm25).Emits t (consolidateCategories t.app userId now fading categories created) (fun _ _ => True) s := by
  induction categories generalizing created s with
  | nil => exact emits_done _
  | cons category categories ih =>
    refine .seq (P := fun _ _ => True) hs ?_ fun _ _ _ hi _ => ih hi _
    unfold consolidateMembers
    split
    · exact emits_done _
    · exact emits_consolidateCategory hs hv htick _ _ _

theorem emits_consolidateUsers (hs : s.Sound spec) (hv : spec.Serves t.app) (htick : t.isTick) {now : Int}
    (users : List String) (created : ℕ) :
    (contract spec bm25).Emits t (consolidateUsers t.app now users created) (fun _ _ => True) s := by
  induction users generalizing created s with
  | nil => exact emits_done _
  | cons user users ih =>
    rw [consolidateUsers]
    split
    · exact emits_done _
    · refine .seq hs (emits_sqlx emits_read) fun rows s₁ _ hi₁ _ => ?_
      refine .seq hi₁ (Contract.emits_cmd fun _ _ _ => ⟨trivial, emits_done _⟩) fun categories s₂ _ hi₂ _ => ?_
      exact .seq hi₂ (emits_consolidateCategories hi₂ hv htick _ _) fun _ _ _ hi _ => ih hi _

theorem emits_tick (hs : s.Sound spec) (hv : spec.Serves t.app) (htick : t.isTick) :
    (contract spec bm25).Emits t (handleTick t.app) (fun _ _ => True) s := by
  have hresolve : ∀ s' : World F, s'.Sound spec →
      (contract spec bm25).Emits t (resolveConflicts t.app) (fun _ _ => True) s' := fun s' hi => by
    refine .seq hi (emits_sqlx emits_read) fun pairs _ _ _ _ => ?_
    split
    · exact emits_done _
    · exact emits_sqlx (Contract.emits_cmd fun _ _ _ => ⟨htick, Contract.emits_ofExcept fun _ _ _ _ _ => trivial⟩)
  have hconsolidate : ∀ (s' : World F) (now : Int), s'.Sound spec →
      (contract spec bm25).Emits t (consolidateAtTick t.app now) (fun _ _ => True) s' := fun s' now hi => by
    unfold consolidateAtTick
    split
    · exact emits_done _
    · exact .seq hi (emits_sqlx emits_read) fun _ _ _ hi' _ => emits_consolidateUsers hi' hv htick _ _
  refine .seq hs emits_clock fun now s₁ _ hi₁ _ => .seq hi₁ (emits_sqlx emits_read) fun hotRows s₂ _ hi₂ _ => ?_
  refine .seq hi₂ (emits_sqlx (emits_write fun _ _ _ => htick)) fun _ s₃ _ hi₃ _ => ?_
  refine .seq hi₃ (emits_sqlx emits_read) fun staleCold s₄ _ hi₄ _ => ?_
  refine .seq hi₄ (emits_sqlx (emits_write fun _ _ _ => htick)) fun _ s₅ _ hi₅ _ => ?_
  refine .seq hi₅ (hresolve s₅ hi₅) fun _ s₆ _ hi₆ _ => ?_
  exact .seq hi₆ (hconsolidate s₆ now hi₆) fun _ _ _ _ _ => emits_done _

theorem emits_lifecycle (hs : s.Sound spec) (hv : spec.Serves t.app) {req : LifecycleRequest F}
    (hreq : t.request = .lifecycle req) :
    (contract spec bm25).Emits t (handleLifecycleRequest t.app req t.user) (fun _ _ => True) s := by
  cases req with
  | tick synchronous => exact emits_tick hs hv ⟨synchronous, hreq⟩
  | findFading =>
    exact .seq hs emits_require fun _ _ _ hi _ => .seq hi (emits_sqlx emits_read) fun _ _ _ hi' _ =>
      .seq hi' emits_clock fun _ _ _ hi'' _ => .seq hi'' (emits_memoryRowsToData hi'') fun _ _ _ _ _ => emits_done _
  | findStable =>
    exact .seq hs emits_require fun _ _ _ hi _ => .seq hi (emits_sqlx emits_read) fun _ _ _ hi' _ =>
      .seq hi' (emits_memoryRowsToData hi') fun _ _ _ _ _ => emits_done _
  | markSuperseded => exact emits_affecting hs fun _ hu => emits_unlessEmpty (emits_write fun _ _ _ => hu)
  | migrateToCold => exact emits_affectingOne hs fun _ hu => emits_write fun _ _ _ => hu
  | migrateToHot => exact emits_affectingOne hs fun _ hu => emits_write fun _ _ _ => hu
  | convertToStub => exact emits_affectingOne hs fun _ hu => emits_write fun _ _ _ => hu
  | updateRetention => exact emits_updateOne hs (.inl rfl)
  | clear userId confirm =>
    refine .seq hs emits_require fun _ _ _ hi hu => ?_
    split
    · exact Contract.emits_fail
    · exact .seq hi (emits_sqlx (emits_write fun _ _ _ => hu)) fun _ _ _ _ _ => emits_done _

theorem emits_request (hs : s.Sound spec) (hv : spec.Serves t.app) :
    (contract spec bm25).Emits t (handleRequest t.app t.request t.user) (fun _ _ => True) s := by
  cases hreq : t.request with
  | diagnostics req => exact emits_diagnostics hs
  | memory req => exact emits_memory hs hv hreq
  | lifecycle req => exact emits_lifecycle hs hv hreq
  | unknownBucket => exact Contract.emits_fail

end
end CognitiveMemory
