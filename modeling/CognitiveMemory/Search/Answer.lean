import CognitiveMemory.Search.Ranking

/-! What a search answers, as a function of the store and of the order its score map is read in:
the hits before expansion, what a walk over the links adds to them, and the shape of the list. -/

namespace CognitiveMemory
open Prog Selection
variable {F : Type}

def Db.candidates (db : Db F) (userId : String) (o : SearchOptions F) : List (SearchCandidate F) :=
  (db.memories.filter fun r => r.searchable userId o.provider o.model o.now o.deepRecall).map SearchCandidate.ofRow

variable [Field F] [LinearOrder F]

def Db.fused (bm25 : Bm25 F) (order : List String → List String) (db : Db F) (userId : String) (o : SearchOptions F)
    (scored : List (SearchResult F)) : Except SearchError (List (SearchResult F)) :=
  if o.hybrid then
    match o.queryText with
    | none => .error (.invalidQuery "hybrid mode requires query_text in SearchOptions")
    | some _ => .ok (fusedHits (db.rankLists bm25 userId o scored) scored
        (order (fusedKeys F (db.rankLists bm25 userId o scored))))
  else .ok scored

variable [Elementary F]

def Db.hits (bm25 : Bm25 F) (order : List String → List String) (cfg : LifecycleConfig F) (db : Db F) (userId : String)
    (queryVec : List F) (o : SearchOptions F) : Except SearchError (List (SearchResult F)) := do
  let dense ← (db.candidates userId o).mapM (scoreCandidate cfg queryVec o.now)
  db.fused bm25 order userId o (sortDesc SearchResult.score dense)

section
variable {bm25 : Bm25 F} {order : List String → List String} {cfg : LifecycleConfig F} {db : Db F} {userId : String}
  {queryVec : List F} {o : SearchOptions F} {hits : List (SearchResult F)} {calm : Prop} {w : World F}

theorem hits_ok (h : db.hits bm25 order cfg userId queryVec o = .ok hits) :
    (o.hybrid = false ∧ hits = db.denseHits cfg userId queryVec o) ∨
      o.hybrid ∧ ∃ text, o.queryText = some text ∧
        hits = fusedHits (db.rankLists bm25 userId o (db.denseHits cfg userId queryVec o)) (db.denseHits cfg userId queryVec o)
          (order (fusedKeys F (db.rankLists bm25 userId o (db.denseHits cfg userId queryVec o)))) := by
  obtain ⟨dense, hdense, h⟩ := bind_ok h
  obtain rfl := (mapM_scoreCandidate hdense).2
  unfold Db.fused at h
  by_cases hmode : o.hybrid = true
  · rw [if_pos hmode] at h
    cases htext : o.queryText with
    | none =>
      rw [htext] at h
      cases h
    | some text =>
      rw [htext] at h
      cases h
      exact .inr ⟨hmode, text, rfl, rfl⟩
  · rw [if_neg hmode] at h
    cases h
    exact .inl ⟨by simpa using hmode, rfl⟩

/-- Only the hits of a hybrid search are in another order than the dense ones, and have other scores. -/
theorem hits_shape (hk : db.Keyed) (horder : ∀ l, (order l).Perm l)
    (h : db.hits bm25 order cfg userId queryVec o = .ok hits) :
    (hits.Pairwise fun a b => b.score ≤ a.score) ∧ (∀ r ∈ hits, r.source = .direct) ∧
      (hits.map SearchResult.memoryId).Perm ((db.denseHits cfg userId queryVec o).map SearchResult.memoryId) := by
  have hdirect : ∀ r ∈ db.denseHits cfg userId queryVec o, r.source = .direct := by
    intro r hr
    obtain ⟨m, -, rfl⟩ := mem_denseHits hr
    rfl
  rcases hits_ok h with ⟨-, rfl⟩ | ⟨-, text, -, rfl⟩
  · exact ⟨sortDesc_sorted _ _, hdirect, .refl _⟩
  · have hnodup : ((db.denseHits cfg userId queryVec o).map SearchResult.memoryId).Nodup := denseHits_nodup hk
    have hperm := fusedHits_perm hnodup
        (rankedHits (db.bm25Search bm25 userId (safeQuery (o.queryText.getD "")) (bm25Limit o.limit)))
      (horder _)
    refine ⟨(Fused.of_order (horder _)).sorted, fun r hr => ?_, ?_⟩
    · obtain ⟨r', hr', rfl⟩ := List.mem_map.mp (hperm.mem_iff.mp hr)
      exact hdirect r' hr'
    · have hids := hperm.map SearchResult.memoryId
      rwa [List.map_map] at hids

theorem mem_candidateIds {id : String} : id ∈ (db.denseHits cfg userId queryVec o).map SearchResult.memoryId ↔
    ∃ m, db.Candidate userId o m ∧ m.id = id := by
  constructor
  · intro hid
    obtain ⟨r, hr, rfl⟩ := List.mem_map.mp hid
    obtain ⟨m, hm, rfl⟩ := mem_denseHits hr
    exact ⟨m, hm, rfl⟩
  · rintro ⟨m, hm, rfl⟩
    exact List.mem_map.mpr ⟨_, denseHits_of_candidate hm, rfl⟩

/-! ## Runs -/

omit [Elementary F] in
theorem wp_hybridHits_fused (bm25 : Bm25 F) (scored : List (SearchResult F)) (hw : w.Reads db calm) :
    (hybridHits userId o scored).wp (exec bm25)
    (fun hits w' => db.fused bm25 (w.oracle.order 0) userId o scored = .ok hits ∧ w'.Reads db calm)
    (fun e => db.fused bm25 (w.oracle.order 0) userId o scored = .error e ∨ ¬ calm) w := by
  unfold hybridHits Db.fused
  by_cases hmode : o.hybrid = true
  · rw [if_pos hmode, if_pos hmode]
    cases htext : o.queryText with
    | none =>
      unfold fuseHybrid
      rw [htext]
      exact .inl rfl
    | some text =>
      refine ((wp_fuseHybrid_hits htext hw).imp_error fun e hc => .inr hc).imp ?_
      rintro hits w' ⟨rfl, hw'⟩
      exact ⟨rfl, hw'⟩
  · rw [if_neg hmode, if_neg hmode]
    exact ⟨rfl, hw⟩

theorem wp_hits {α : Type} {k : List (SearchResult F) → SearchM F α} {Q : α → World F → Prop} (hw : w.Reads db calm)
    (hk : ∀ hits w', db.hits bm25 (w.oracle.order 0) cfg userId queryVec o = .ok hits → w'.Reads db calm →
      (k hits).wp (exec bm25) Q (fun e => db.hits bm25 (w.oracle.order 0) cfg userId queryVec o = .error e ∨ ¬ calm) w') :
    Prog.wp (exec bm25) Q (fun e => db.hits bm25 (w.oracle.order 0) cfg userId queryVec o = .error e ∨ ¬ calm) (do
      let candidates : List (SearchCandidate F) ←
        (query (.candidatesForSearch userId o.provider o.model o.now o.deepRecall)).mapError .storage
      let dense ← Prog.ofExcept (candidates.mapM (scoreCandidate cfg queryVec o.now))
      let hits ← hybridHits userId o (sortDesc SearchResult.score dense)
      k hits : SearchM F α) w := by
  let q : Query F := .candidatesForSearch userId o.provider o.model o.now o.deepRecall
  refine wp.seq (.mapError (wp_query_answer (q := q) hw rfl) fun _ hc => .inr hc) ?_
  rintro candidates w₁ ⟨hcs, rfl⟩
  obtain rfl : candidates = db.candidates userId o := hcs
  have hw₁ : (w.answer w.db).Reads db calm := hw.answer
  refine wp.seq (P := fun dense w' => (db.candidates userId o).mapM (scoreCandidate cfg queryVec o.now) = .ok dense ∧
    w' = w.answer w.db) (wp_ofExcept (fun dense hdense => ⟨hdense, rfl⟩) fun e he => .inl ?_) ?_
  · rw [Db.hits, he]
    rfl
  rintro dense w' ⟨hdense, rfl⟩
  have hhits : db.hits bm25 (w.oracle.order 0) cfg userId queryVec o =
      db.fused bm25 (w.oracle.order 0) userId o (sortDesc SearchResult.score dense) := by
    rw [Db.hits, hdense]
    rfl
  rw [hhits] at hk ⊢
  have hfuse : (hybridHits userId o (sortDesc SearchResult.score dense)).wp (exec bm25) _ _ (w.answer w.db) :=
    wp_hybridHits_fused bm25 _ hw₁
  exact wp.seq hfuse fun hits w' h => hk hits w' h.1 h.2

def Expansion.start (o : SearchOptions F) (hits : List (SearchResult F)) : Expansion F :=
  ⟨hits.map SearchResult.memoryId, hits, (hits.map SearchResult.memoryId).take (max o.limit 5)⟩

/-- What holds where the walk starts, and is kept by a hop, holds of what the search ranks. -/
theorem wp_rankAll_walk (hw : w.Reads db calm) (hk : db.Keyed) {J : List (SearchResult F) → ℕ → Expansion F → Prop}
    (hstart : ∀ hits, db.hits bm25 (w.oracle.order 0) cfg userId queryVec o = .ok hits →
      J hits o.graphExpansionHops (.start o hits))
    (hstep : ∀ hits n x, J hits (n + 1) x → J hits n ((db.linkedMany userId x.frontier o.minBridgeEdgeWeight).foldl
      (Expansion.add cfg queryVec o) ⟨x.alreadyHave, x.scored, []⟩)) :
    (rankAll cfg userId queryVec o).wp (exec bm25)
      (fun ranked _ => ∃ hits n x, db.hits bm25 (w.oracle.order 0) cfg userId queryVec o = .ok hits ∧ J hits n x ∧
        ranked = sortDesc SearchResult.score x.scored)
      (fun e => db.hits bm25 (w.oracle.order 0) cfg userId queryVec o = .error e ∨ ¬ calm) w := by
  refine wp_hits hw fun hits w' hhits hw' => ?_
  unfold expandedHits
  split
  · have hwalk : (expandHops cfg userId queryVec o o.graphExpansionHops (.start o hits)).wp (exec bm25) _ _ w' :=
      wp_expandHops bm25 (J := J hits) (hstep hits) (hstart hits hhits) hw'
    refine wp.seq (hwalk.imp_error fun _ hc => .inr hc) ?_
    rintro scored w'' ⟨⟨n, x, hx, -, rfl⟩, -⟩
    exact ⟨hits, n, x, hhits, hx, rfl⟩
  · have hsorted := (hits_shape hk (w.oracle.order_perm 0) hhits).1
    exact ⟨hits, _, _, hhits, hstart hits hhits, (List.Pairwise.insertionSort_eq hsorted).symm⟩

theorem wp_search_walk (hw : w.Reads db calm) (hk : db.Keyed) (hvec : queryVec ≠ []) (hlimit : o.limit ≠ 0)
    {J : List (SearchResult F) → ℕ → Expansion F → Prop}
    (hstart : ∀ hits, db.hits bm25 (w.oracle.order 0) cfg userId queryVec o = .ok hits →
      J hits o.graphExpansionHops (.start o hits))
    (hstep : ∀ hits n x, J hits (n + 1) x → J hits n ((db.linkedMany userId x.frontier o.minBridgeEdgeWeight).foldl
      (Expansion.add cfg queryVec o) ⟨x.alreadyHave, x.scored, []⟩)) :
    (search cfg userId queryVec o).wp (exec bm25)
      (fun results _ => ∃ hits n x, db.hits bm25 (w.oracle.order 0) cfg userId queryVec o = .ok hits ∧ J hits n x ∧
        results = (sortDesc SearchResult.score x.scored).take o.limit)
      (fun e => db.hits bm25 (w.oracle.order 0) cfg userId queryVec o = .error e ∨ ¬ calm) w := by
  rw [search_eq_rankAll hvec hlimit]
  refine wp.seq (wp_rankAll_walk hw hk hstart hstep) ?_
  rintro ranked w' ⟨hits, n, x, hhits, hx, rfl⟩
  exact ⟨hits, n, x, hhits, hx, rfl⟩

/-! ## The shape of the list -/

/-- The walk holds each memory once, all of them the user's, and every candidate among them; what it
adds is no candidate. -/
structure Walked (db : Db F) (userId : String) (o : SearchOptions F) (x : Expansion F) : Prop where
  held : ∀ id, id ∈ x.alreadyHave ↔ id ∈ x.scored.map SearchResult.memoryId
  once : (x.scored.map SearchResult.memoryId).Nodup
  owned : ∀ r ∈ x.scored, ∃ m ∈ db.memories, m.id = r.memoryId ∧ m.userId = userId
  candidates : ∀ m, db.Candidate userId o m → m.id ∈ x.alreadyHave
  added : ∀ r ∈ x.scored, r.source = .graphExpanded → ∀ m, db.Candidate userId o m → m.id ≠ r.memoryId

theorem Walked.start (hk : db.Keyed) (horder : ∀ l, (order l).Perm l)
    (h : db.hits bm25 order cfg userId queryVec o = .ok hits) : Walked db userId o (.start o hits) := by
  obtain ⟨-, hdirect, hids⟩ := hits_shape hk horder h
  have hnodup : ((db.denseHits cfg userId queryVec o).map SearchResult.memoryId).Nodup := denseHits_nodup hk
  refine ⟨fun _ => .rfl, hids.nodup_iff.mpr hnodup, fun r hr => ?_, fun m hm => ?_, fun r hr hsource => ?_⟩
  · obtain ⟨m, hm, hid⟩ := mem_candidateIds.mp (hids.mem_iff.mp (List.mem_map_of_mem hr))
    have huser : m.userId = userId := by
      have hsearch := hm.2
      simp only [MemoryRow.searchable, Bool.and_eq_true, beq_iff_eq] at hsearch
      exact hsearch.1.1.1.1.1.1
    exact ⟨m, hm.1, hid, huser⟩
  · exact hids.mem_iff.mpr (mem_candidateIds.mpr ⟨m, hm, rfl⟩)
  · rw [hdirect r hr] at hsource
    cases hsource

theorem Walked.step {x : Expansion F} (h : Walked db userId o x) :
    Walked db userId o ((db.linkedMany userId x.frontier o.minBridgeEdgeWeight).foldl (Expansion.add cfg queryVec o)
      ⟨x.alreadyHave, x.scored, []⟩) := by
  let linked := db.linkedMany userId x.frontier o.minBridgeEdgeWeight
  let next := linked.foldl (Expansion.add cfg queryVec o) ⟨x.alreadyHave, x.scored, []⟩
  obtain ⟨hheld, honce⟩ : (∀ id, id ∈ next.alreadyHave ↔ id ∈ next.scored.map SearchResult.memoryId) ∧
    (next.scored.map SearchResult.memoryId).Nodup := held_foldl_add h.held h.once
  have hrest : (∀ r ∈ next.scored, ∃ m ∈ db.memories, m.id = r.memoryId ∧ m.userId = userId) ∧
      (∀ m, db.Candidate userId o m → m.id ∈ next.alreadyHave) ∧
      ∀ r ∈ next.scored, r.source = .graphExpanded → ∀ m, db.Candidate userId o m → m.id ≠ r.memoryId := by
    refine foldl_add_keeps (P := fun y => (∀ r ∈ y.scored, ∃ m ∈ db.memories, m.id = r.memoryId ∧ m.userId = userId) ∧
      (∀ m, db.Candidate userId o m → m.id ∈ y.alreadyHave) ∧
      ∀ r ∈ y.scored, r.source = .graphExpanded → ∀ m, db.Candidate userId o m → m.id ≠ r.memoryId)
      (fun y lm r hlm hnew hr hy => ?_) ⟨h.owned, h.candidates, h.added⟩
    obtain ⟨howned, hcandidates, hadded⟩ := hy
    obtain ⟨hid, -⟩ := expandEntry_some hr
    obtain ⟨hmem, huser, -⟩ := mem_linkedMany hlm
    refine ⟨fun r' hr' => ?_, fun m hm => List.mem_cons_of_mem _ (hcandidates m hm), fun r' hr' hsource m hm heq => ?_⟩
    · rcases List.mem_append.mp hr' with hr' | hr'
      · exact howned r' hr'
      · rw [List.mem_singleton.mp hr']
        exact ⟨lm.memory, hmem, hid.symm, huser⟩
    · rcases List.mem_append.mp hr' with hr' | hr'
      · exact hadded r' hr' hsource m hm heq
      · -- every candidate is held from the start, so the linked memory is none
        rw [List.mem_singleton.mp hr', hid] at heq
        exact hnew (heq ▸ hcandidates m hm)
  obtain ⟨howned, hcandidates, hadded⟩ := hrest
  exact ⟨hheld, honce, howned, hcandidates, hadded⟩

theorem run_rankAll_walked (hdb : w.db = db) (hk : db.Keyed) {ranked : List (SearchResult F)}
    (hrun : ((rankAll cfg userId queryVec o).run (exec bm25) w).1 = .ok ranked) :
    ∃ x, Walked db userId o x ∧ ranked = sortDesc SearchResult.score x.scored := by
  have hw : w.Reads db False := ⟨hdb, False.elim⟩
  have hwalk : (rankAll cfg userId queryVec o).wp (exec bm25) _ _ w := wp_rankAll_walk hw hk
    (J := fun _ _ x => Walked db userId o x) (fun hits h => .start hk (w.oracle.order_perm 0) h) fun hits n x h => h.step
  obtain ⟨-, -, x, -, hx, hranked⟩ := wp_ok hwalk hrun
  exact ⟨x, hx, hranked⟩

/-! ## What expansion adds -/

/-- When every memory of the user is a hit already, a hop leaves the list alone. -/
theorem add_idle {x : Expansion F} (hheld : ∀ m ∈ db.memories, m.userId = userId → m.id ∈ x.alreadyHave)
    (sources : List String) :
    (db.linkedMany userId sources o.minBridgeEdgeWeight).foldl (Expansion.add cfg queryVec o) ⟨x.alreadyHave, x.scored, []⟩ =
      ⟨x.alreadyHave, x.scored, []⟩ := by
  let start : Expansion F := ⟨x.alreadyHave, x.scored, []⟩
  refine List.foldlRecOn _ _ (motive := fun y => y = start) (rfl : start = start) fun y hy lm hlm => ?_
  obtain ⟨hmem, huser, -⟩ := mem_linkedMany hlm
  rw [hy, Expansion.add, if_pos (by simpa [start] using hheld lm.memory hmem huser)]

theorem wp_search_idle (hw : w.Reads db calm) (hk : db.Keyed) (hvec : queryVec ≠ []) (hlimit : o.limit ≠ 0)
    (hidle : o.graphExpansionHops = 0 ∨ ∀ m ∈ db.memories, m.userId = userId → db.Candidate userId o m) :
    (search cfg userId queryVec o).wp (exec bm25)
      (fun results _ => ∃ hits, db.hits bm25 (w.oracle.order 0) cfg userId queryVec o = .ok hits ∧
        results = hits.take o.limit)
      (fun e => db.hits bm25 (w.oracle.order 0) cfg userId queryVec o = .error e ∨ ¬ calm) w := by
  have hsorted : ∀ hits, db.hits bm25 (w.oracle.order 0) cfg userId queryVec o = .ok hits →
      sortDesc SearchResult.score hits = hits := fun hits hhits =>
    List.Pairwise.insertionSort_eq (hits_shape hk (w.oracle.order_perm 0) hhits).1
  rcases hidle with hzero | hall
  · refine (wp_search_walk (J := fun hits n x => n = 0 ∧ x.scored = hits) hw hk hvec hlimit (fun hits _ => ⟨hzero, rfl⟩)
      fun hits n x h => nomatch h.1).imp ?_
    rintro results w' ⟨hits, n, x, hhits, ⟨-, hx⟩, rfl⟩
    exact ⟨hits, hhits, by rw [hx, hsorted hits hhits]⟩
  · refine (wp_search_walk (J := fun hits _ x => x.scored = hits ∧ ∀ m ∈ db.memories, m.userId = userId → m.id ∈ x.alreadyHave)
      hw hk hvec hlimit (fun hits hhits => ⟨rfl, fun m hm huser => ?_⟩) fun hits n x h => ?_).imp ?_
    · exact (Walked.start hk (w.oracle.order_perm 0) hhits).candidates m (hall m hm huser)
    · rw [add_idle h.2]
      exact h
    · rintro results w' ⟨hits, n, x, hhits, ⟨hx, -⟩, rfl⟩
      exact ⟨hits, hhits, by rw [hx, hsorted hits hhits]⟩

theorem hits_hops (n : ℕ) : db.hits bm25 order cfg userId queryVec { o with graphExpansionHops := n } =
    db.hits bm25 order cfg userId queryVec o := rfl

/-- In calm weather a search that nothing can be added to answers what it would without hops. -/
theorem run_search_idle (hw : w.Reads db True) (hk : db.Keyed)
    (hidle : o.graphExpansionHops = 0 ∨ ∀ m ∈ db.memories, m.userId = userId → db.Candidate userId o m) :
    ((search cfg userId queryVec o).run (exec bm25) w).1 =
      if queryVec.isEmpty then .error (.invalidQuery "query vector is empty") else if o.limit = 0 then .ok []
      else (db.hits bm25 (w.oracle.order 0) cfg userId queryVec o).map (List.take o.limit) := by
  by_cases hvec : queryVec.isEmpty = true
  · rw [if_pos hvec, search, if_pos hvec]
    rfl
  by_cases hlimit : o.limit = 0
  · rw [if_neg hvec, if_pos hlimit, search, if_neg hvec, if_pos hlimit]
    rfl
  rw [if_neg hvec, if_neg hlimit]
  have hidled : (search cfg userId queryVec o).wp (exec bm25) _ _ w := wp_search_idle hw hk (by simpa using hvec) hlimit hidle
  obtain ⟨hok, herr⟩ := wp_run.mp hidled
  cases hrun : (search cfg userId queryVec o).run (exec bm25) w with
  | mk answer w' =>
    cases answer with
    | ok results =>
      obtain ⟨hits, hhits, rfl⟩ := hok results w' hrun
      rw [hhits]
      rfl
    | error e =>
      rcases herr e w' hrun with hhits | hrough
      · rw [hhits]
        rfl
      · exact absurd trivial hrough

/-- A result that expansion brought in is a memory of the user that the filter of the candidates
rejects; where it rejects none, hops change nothing. -/
theorem expansion_adds_rejected (hk : w.db.Keyed) :
    (∀ results, ((search cfg userId queryVec o).run (exec bm25) w).1 = .ok results → ∀ r ∈ results, r.source = .graphExpanded →
      ∃ m ∈ w.db.memories, m.id = r.memoryId ∧ m.userId = userId ∧
        m.searchable userId o.provider o.model o.now o.deepRecall = false) ∧
    ((∀ m ∈ w.db.memories, m.userId = userId → m.searchable userId o.provider o.model o.now o.deepRecall) →
      (∀ (w' : World F) (results results' : List (SearchResult F)), w'.db = w.db → w'.oracle.order 0 = w.oracle.order 0 →
        ((search cfg userId queryVec o).run (exec bm25) w).1 = .ok results →
        ((search cfg userId queryVec { o with graphExpansionHops := 0 }).run (exec bm25) w').1 = .ok results' →
        results = results') ∧
      ((∀ n, w.oracle.sqlFault n = false) → ((search cfg userId queryVec o).run (exec bm25) w).1 =
        ((search cfg userId queryVec { o with graphExpansionHops := 0 }).run (exec bm25) w).1)) := by
  refine ⟨fun results hrun r hr hsource => ?_, fun hall => ⟨fun w' results results' hdb horder hrun hrun' => ?_, fun hcalm => ?_⟩⟩
  · by_cases hlimit : o.limit = 0
    · rw [run_search_zero hlimit hrun] at hr
      cases hr
    obtain ⟨ranked, hranked, rfl⟩ := run_search_ranked hlimit hrun
    obtain ⟨x, hx, rfl⟩ := run_rankAll_walked rfl hk hranked
    have hmem : r ∈ x.scored := mem_sortDesc.mp (List.mem_of_mem_take hr)
    obtain ⟨m, hm, hid, huser⟩ := hx.owned r hmem
    refine ⟨m, hm, hid, huser, Bool.eq_false_iff.mpr fun hsearchable => ?_⟩
    exact hx.added r hmem hsource m ⟨hm, hsearchable⟩ hid
  · by_cases hlimit : o.limit = 0
    · rw [run_search_zero hlimit hrun, run_search_zero (o := { o with graphExpansionHops := 0 }) hlimit hrun']
    have hvec : queryVec ≠ [] := by
      rintro rfl
      exact nomatch hrun
    have hw : w.Reads w.db False := ⟨rfl, False.elim⟩
    have hw' : w'.Reads w.db False := ⟨hdb, False.elim⟩
    obtain ⟨hits, hhits, rfl⟩ := wp_ok (wp_search_idle hw hk hvec hlimit (.inr fun m hm huser => ⟨hm, hall m hm huser⟩)) hrun
    obtain ⟨hits', hhits', rfl⟩ :=
        wp_ok (wp_search_idle (o := { o with graphExpansionHops := 0 }) hw' hk hvec hlimit (.inl rfl)) hrun'
    rw [hits_hops, horder, hhits] at hhits'
    cases hhits'
    rfl
  · have hw : w.Reads w.db True := ⟨rfl, fun _ => hcalm⟩
    rw [run_search_idle hw hk (.inr fun m hm huser => ⟨hm, hall m hm huser⟩),
      run_search_idle (o := { o with graphExpansionHops := 0 }) hw hk (.inl rfl), hits_hops]
    rfl

end

/-! ### The cold milk again -/

def shelfSearch : SearchOptions ℚ := ⟨5, false, "flat", "flat-1", 0, true, some "tea", 1, 3 / 10, false, 3⟩

def shelfResults : List (SearchResult ℚ) :=
  [⟨"mem_milk", "milk", "semantic", "fact", 1 / 2, .graphExpanded⟩, ⟨"mem_tea", "tea", "semantic", "fact", 1 / 61, .direct⟩]

theorem run_shelfSearch :
    ((search .default "alice" [1] shelfSearch).run (exec fun _ _ _ => none) ⟨shelf, [], Oracle.quiet⟩).1 =
    .ok shelfResults := by
  decide +kernel

def warmShelf : Db ℚ := { shelf with memories := shelf.memories.map fun r => { r with isCold := false, coldSince := none } }

/-- The cold milk is added; nothing is once it is a candidate itself. -/
theorem expansion_adds_rejected_shelf :
    (∃ m ∈ shelf.memories, m.id = "mem_milk" ∧ m.userId = "alice" ∧ m.searchable "alice" "flat" "flat-1" 0 false = false) ∧
    ((search .default "alice" [1] shelfSearch).run (exec fun _ _ _ => none) ⟨warmShelf, [], Oracle.quiet⟩).1 =
      ((search .default "alice" [1] { shelfSearch with graphExpansionHops := 0 }).run (exec fun _ _ _ => none)
        ⟨warmShelf, [], Oracle.quiet⟩).1 := by
  have hkeyed : warmShelf.Keyed := by
    unfold Db.Keyed
    decide
  have hall : ∀ m ∈ warmShelf.memories, m.userId = "alice" → m.searchable "alice" "flat" "flat-1" 0 false := by decide +kernel
  constructor
  · exact (expansion_adds_rejected (w := ⟨shelf, [], Oracle.quiet⟩) shelf_keyed).1 shelfResults run_shelfSearch
      ⟨"mem_milk", "milk", "semantic", "fact", 1 / 2, .graphExpanded⟩ List.mem_cons_self rfl
  · exact ((expansion_adds_rejected (w := ⟨warmShelf, [], Oracle.quiet⟩) hkeyed).2 hall).2 fun _ => rfl

end CognitiveMemory
