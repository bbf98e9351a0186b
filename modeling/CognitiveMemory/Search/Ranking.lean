import CognitiveMemory.Lib.Selection
import CognitiveMemory.Lib.Top
import CognitiveMemory.Search.Visibility

/-! The list a search ranks before it is truncated: where each result comes from, and what it
scores. -/

namespace CognitiveMemory
open Prog Selection

/-! ## Joining on ids -/

section
variable {S : Type} {scored : List (SearchResult S)} {keys : List String}

theorem find?_memoryId (hnodup : (scored.map SearchResult.memoryId).Nodup) {r : SearchResult S} (hr : r ∈ scored) :
    scored.find? (·.memoryId == r.memoryId) = some r := by
  have hsome : (scored.find? (·.memoryId == r.memoryId)).isSome := List.find?_isSome.mpr ⟨r, hr, beq_self_eq_true _⟩
  obtain ⟨r', hr'⟩ := Option.isSome_iff_exists.mp hsome
  have hid : r'.memoryId = r.memoryId := by simpa using List.find?_some hr'
  rw [hr', List.inj_on_of_nodup_map hnodup (List.mem_of_find?_eq_some hr') hr hid]

/-- In whatever order the map is read, the dense hits are what is joined. -/
theorem joined_perm (hnodup : (scored.map SearchResult.memoryId).Nodup) (hkeys : keys.Nodup)
    (hall : ∀ r ∈ scored, r.memoryId ∈ keys) :
    (keys.filterMap fun id => scored.find? (·.memoryId == id)).Perm scored := by
  have hfound : ∀ id r, scored.find? (·.memoryId == id) = some r → r.memoryId = id := by
    intro id r hr
    simpa using List.find?_some hr
  have hjoined : (keys.filterMap fun id => scored.find? (·.memoryId == id)).Nodup := by
    refine List.Nodup.of_map SearchResult.memoryId (nodup_filterMap (k := id) hfound ?_)
    rwa [List.map_id]
  refine (List.perm_ext_iff_of_nodup hjoined hnodup.of_map).mpr fun r => ⟨fun hr => ?_, fun hr => ?_⟩
  · obtain ⟨id, -, hid⟩ := List.mem_filterMap.mp hr
    exact List.mem_of_find?_eq_some hid
  · exact List.mem_filterMap.mpr ⟨r.memoryId, hall r hr, find?_memoryId hnodup hr⟩

end

variable {F : Type}

/-! ## Reciprocal ranks -/

/-- The sum of `1 / (k + rank + 1)` over the hits of a memory. -/
def fusedScore [Field F] (lists : List (List RankedHit)) (k : ℕ) (id : String) : F :=
  ((lists.flatten.filter (·.id == id)).map fun hit => 1 / ((k : F) + (hit.rank : F) + 1)).sum

theorem lookup_addContribution [Field F] (k : ℕ) (acc : List (String × F)) (hit : RankedHit) (id : String) :
    (addContribution k acc hit).lookup id =
      if hit.id = id then some ((acc.lookup id).getD 0 + 1 / ((k : F) + (hit.rank : F) + 1)) else acc.lookup id := by
  induction acc with
  | nil =>
    rw [addContribution, List.lookup_cons]
    split
    · rename_i heq
      rw [if_pos (beq_iff_eq.mp heq).symm]
      rfl
    · rename_i hne
      rw [if_neg fun heq => by simp [heq] at hne]
  | cons p acc ih =>
    obtain ⟨id', s⟩ := p
    rw [addContribution]
    split
    · rename_i heq
      rw [List.lookup_cons, List.lookup_cons, ← heq]
      split
      · rename_i hid
        rw [if_pos (beq_iff_eq.mp hid).symm]
        rfl
      · rename_i hid
        rw [if_neg fun heq => by simp [heq] at hid]
    · rename_i hne
      rw [List.lookup_cons, List.lookup_cons, ih]
      split
      · rename_i hid
        rw [if_neg fun heq => hne (by rw [← beq_iff_eq.mp hid, heq])]
      · rfl

theorem lookup_foldl_addContribution [Field F] (k : ℕ) (hits : List RankedHit) (acc : List (String × F)) (id : String) :
    ((hits.foldl (addContribution k) acc).lookup id).getD 0 = (acc.lookup id).getD 0 +
        ((hits.filter (·.id == id)).map fun hit => 1 / ((k : F) + (hit.rank : F) + 1)).sum ∧
      (((hits.foldl (addContribution k) acc).lookup id).isSome ↔ (acc.lookup id).isSome ∨ ∃ hit ∈ hits, hit.id = id) := by
  induction hits generalizing acc with
  | nil => simp
  | cons hit hits ih =>
    obtain ⟨hsum, hsome⟩ := ih (addContribution k acc hit)
    rw [List.foldl_cons, hsum, hsome, lookup_addContribution, List.filter_cons]
    by_cases heq : hit.id = id
    · rw [if_pos heq, if_pos (beq_iff_eq.mpr heq), List.map_cons, List.sum_cons, Option.getD_some, add_assoc]
      exact ⟨rfl, iff_of_true (.inl rfl) (.inr ⟨hit, List.mem_cons_self, heq⟩)⟩
    · rw [if_neg heq, if_neg (by simpa using heq)]
      refine ⟨rfl, ?_⟩
      simp [heq]

theorem lookup_rrfScores [Field F] {lists : List (List RankedHit)} {k : ℕ} {id : String} :
    (rrfScores lists k : List (String × F)).lookup id =
      if ∃ hit ∈ lists.flatten, hit.id = id then some (fusedScore lists k id) else none := by
  obtain ⟨hsum, hsome⟩ := lookup_foldl_addContribution (F := F) k lists.flatten [] id
  rw [rrfScores]
  split
  · rename_i hhit
    obtain ⟨s, hs⟩ := Option.isSome_iff_exists.mp (hsome.mpr (.inr hhit))
    rw [hs] at hsum ⊢
    simpa [fusedScore] using hsum
  · rename_i hnone
    rw [← Option.not_isSome_iff_eq_none, hsome]
    simpa using hnone

theorem keys_addContribution [Field F] (k : ℕ) (scores : List (String × F)) (hit : RankedHit) :
    (addContribution k scores hit).map Prod.fst =
      if hit.id ∈ scores.map Prod.fst then scores.map Prod.fst else scores.map Prod.fst ++ [hit.id] := by
  induction scores with
  | nil => rfl
  | cons entry rest ih =>
    obtain ⟨id, score⟩ := entry
    rw [addContribution]
    by_cases hid : id = hit.id
    · simp [hid]
    · rw [if_neg hid, List.map_cons, List.map_cons, ih]
      by_cases hmem : hit.id ∈ rest.map Prod.fst
      · rw [if_pos hmem, if_pos (List.mem_cons_of_mem _ hmem)]
      · rw [if_neg hmem, if_neg (by simpa [Ne.symm hid] using hmem)]
        rfl

theorem nodup_rrfScores [Field F] (lists : List (List RankedHit)) (k : ℕ) :
    ((rrfScores lists k : List (String × F)).map Prod.fst).Nodup := by
  refine List.foldlRecOn lists.flatten (addContribution k)
      (motive := fun scores : List (String × F) => (scores.map Prod.fst).Nodup)
    List.nodup_nil fun scores h hit _ => ?_
  rw [keys_addContribution]
  split
  · exact h
  · rename_i hnew
    exact h.append (List.nodup_singleton _) (List.disjoint_singleton.mpr hnew)

variable [Field F] [LinearOrder F]

theorem fusedScore_pos [IsStrictOrderedRing F] {lists : List (List RankedHit)} {k : ℕ} {id : String}
    (h : ∃ hit ∈ lists.flatten, hit.id = id) : 0 < (fusedScore lists k id : F) := by
  obtain ⟨hit, hmem, hid⟩ := h
  have hpos : ∀ x ∈ (lists.flatten.filter (·.id == id)).map fun hit => 1 / ((k : F) + (hit.rank : F) + 1), 0 < x := by
    intro x hx
    obtain ⟨hit', -, rfl⟩ := List.mem_map.mp hx
    positivity
  refine List.sum_pos _ hpos (List.ne_nil_of_mem (List.mem_map_of_mem (List.mem_filter.mpr ⟨hmem, ?_⟩)))
  simpa using hid

theorem mem_rankedHits {ids : List String} {id : String} : (∃ hit ∈ rankedHits ids, hit.id = id) ↔ id ∈ ids := by
  rw [rankedHits]
  constructor
  · rintro ⟨hit, hhit, rfl⟩
    obtain ⟨p, hp, rfl⟩ := List.mem_map.mp hhit
    exact List.fst_mem_of_mem_zipIdx hp
  · intro hid
    obtain ⟨i, hi, rfl⟩ := List.mem_iff_getElem.mp hid
    exact ⟨⟨ids[i], i⟩, List.mem_map.mpr ⟨(ids[i], i), List.mem_zipIdx_iff_getElem?.mpr (by simp), rfl⟩, rfl⟩

/-! ## The score map -/

def fusedKeys (F : Type) [Field F] (lists : List (List RankedHit)) : List String :=
    (rrfScores lists 60 : List (String × F)).map Prod.fst

def fusedHits (lists : List (List RankedHit)) (scored : List (SearchResult F)) (keys : List String) :
    List (SearchResult F) :=
  (sortDesc Prod.snd (keys.filterMap fun id => ((rrfScores lists 60 : List (String × F)).lookup id).map fun s =>
    (id, s))).filterMap
    fun p => (scored.find? (·.memoryId == p.1)).map fun r => { r with score := p.2 }

def SearchResult.rescored (lists : List (List RankedHit)) (r : SearchResult F) : SearchResult F :=
  { r with score := fusedScore lists 60 r.memoryId }

section
variable {lists : List (List RankedHit)} {scored : List (SearchResult F)} {keys : List String}

omit [LinearOrder F] in
theorem mem_fusedKeys {id : String} : id ∈ fusedKeys F lists ↔ ∃ hit ∈ lists.flatten, hit.id = id := by
  have hlookup : (rrfScores lists 60 : List (String × F)).lookup id = _ := lookup_rrfScores
  constructor
  · intro hid
    by_contra hnone
    rw [if_neg hnone] at hlookup
    obtain ⟨p, hp, rfl⟩ := List.mem_map.mp hid
    exact absurd (List.lookup_eq_none_iff.mp hlookup p hp) (by simp)
  · intro hhit
    rw [if_pos hhit] at hlookup
    obtain ⟨l₁, l₂, heq, -⟩ := List.lookup_eq_some_iff.mp hlookup
    rw [fusedKeys, heq]
    simp

omit [LinearOrder F] in
theorem fusedKeys_nodup (lists : List (List RankedHit)) : (fusedKeys F lists).Nodup := nodup_rrfScores lists 60

omit [LinearOrder F] in
theorem memoryId_mem_fusedKeys (sparse : List RankedHit) {r : SearchResult F} (hr : r ∈ scored) :
    r.memoryId ∈ fusedKeys F [rankedHits (scored.map SearchResult.memoryId), sparse] := by
  obtain ⟨hit, hhit, hid⟩ := mem_rankedHits.mpr (List.mem_map_of_mem (f := SearchResult.memoryId) hr)
  exact mem_fusedKeys.mpr ⟨hit, by simp [hhit], hid⟩

/-- Joining the fused ranks with the dense hits, then sorting, is the same as sorting first. -/
theorem fusedHits_eq (hkeys : ∀ id ∈ keys, id ∈ fusedKeys F lists) : fusedHits lists scored keys =
    Top.ranked SearchResult.score (keys.filterMap fun id =>
      (scored.find? (·.memoryId == id)).map (SearchResult.rescored lists)) := by
  have hentries : (keys.filterMap fun id => ((rrfScores lists 60 : List (String × F)).lookup id).map fun s => (id, s)) =
      keys.map fun id => (id, fusedScore lists 60 id) := by
    rw [← List.filterMap_eq_map]
    apply List.filterMap_congr
    intro id hid
    rw [lookup_rrfScores, if_pos (mem_fusedKeys.mp (hkeys id hid))]
    rfl
  have htotal : Std.Total fun a b : String × F => b.2 ≤ a.2 := ⟨fun a b => le_total b.2 a.2⟩
  have htrans : IsTrans (String × F) fun a b => b.2 ≤ a.2 := ⟨fun _ _ _ hab hbc => le_trans hbc hab⟩
  rw [fusedHits, hentries, sortDesc, filterMap_insertionSort (s := fun a b : SearchResult F => b.score ≤ a.score),
    List.filterMap_map]
  · have hjoin : ∀ id ∈ keys, ((fun p : String × F => (scored.find? (·.memoryId == p.1)).map fun r => { r with score := p.2 }) ∘
        fun id => (id, fusedScore lists 60 id)) id = (scored.find? (·.memoryId == id)).map (SearchResult.rescored lists) := by
      intro id _
      cases hfound : scored.find? (·.memoryId == id) with
      | none => simp [hfound]
      | some r =>
        obtain rfl : r.memoryId = id := by simpa using List.find?_some hfound
        simp [hfound, SearchResult.rescored]
    rw [List.filterMap_congr hjoin]
    rfl
  · rintro p q r r' hr hr'
    obtain ⟨a, -, rfl⟩ := Option.map_eq_some_iff.mp hr
    obtain ⟨b, -, rfl⟩ := Option.map_eq_some_iff.mp hr'
    exact Iff.rfl

omit [LinearOrder F] in
theorem rescored_inj (hnodup : (scored.map SearchResult.memoryId).Nodup) {lists' : List (List RankedHit)}
    {a b : SearchResult F} (ha : a ∈ scored) (hb : b ∈ scored) : a.rescored lists = b.rescored lists' ↔
      a = b ∧ (fusedScore lists 60 a.memoryId : F) = fusedScore lists' 60 a.memoryId := by
  constructor
  · intro heq
    have hid : (a.rescored lists).memoryId = (b.rescored lists').memoryId := by rw [heq]
    obtain rfl := List.inj_on_of_nodup_map hnodup ha hb hid
    have hscore : (a.rescored lists).score = (a.rescored lists').score := by rw [heq]
    exact ⟨rfl, hscore⟩
  · rintro ⟨rfl, hscore⟩
    unfold SearchResult.rescored
    rw [hscore]

omit [LinearOrder F] in
theorem filterMap_rescored (keys : List String) :
    (keys.filterMap fun id => (scored.find? (·.memoryId == id)).map (SearchResult.rescored lists)) =
      (keys.filterMap fun id => scored.find? (·.memoryId == id)).map (SearchResult.rescored lists) := by
  rw [List.map_filterMap]

theorem fusedHits_perm (hnodup : (scored.map SearchResult.memoryId).Nodup) (sparse : List RankedHit)
    (hkeys : keys.Perm (fusedKeys F [rankedHits (scored.map SearchResult.memoryId), sparse])) :
    (fusedHits [rankedHits (scored.map SearchResult.memoryId), sparse] scored keys).Perm
      (scored.map (SearchResult.rescored [rankedHits (scored.map SearchResult.memoryId), sparse])) := by
  rw [fusedHits_eq fun id hid => hkeys.mem_iff.mp hid, filterMap_rescored]
  refine (Top.ranked_perm _ _).trans ((joined_perm hnodup (hkeys.nodup_iff.mpr (fusedKeys_nodup _)) fun r hr => ?_).map _)
  exact hkeys.mem_iff.mpr (memoryId_mem_fusedKeys sparse hr)

end

/-! ## Where results come from -/

section

/-- The dense hits, best first. -/
def Db.denseHits [Elementary F] (db : Db F) (cfg : LifecycleConfig F) (userId : String) (queryVec : List F)
    (o : SearchOptions F) :
    List (SearchResult F) :=
  sortDesc SearchResult.score <| ((db.memories.filter fun r =>
    r.searchable userId o.provider o.model o.now o.deepRecall).map SearchCandidate.ofRow).map
      fun c => c.result (compositeScore cfg queryVec o.now c) .direct

def Db.rankLists (bm25 : Bm25 F) (db : Db F) (userId : String) (o : SearchOptions F) (scored : List (SearchResult F)) :
    List (List RankedHit) :=
  [rankedHits (scored.map SearchResult.memoryId),
    rankedHits (db.bm25Search bm25 userId (safeQuery (o.queryText.getD "")) (bm25Limit o.limit))]

/-- Where a result comes from: a candidate, or a linked memory a hop brought in. -/
inductive Origin [Elementary F] (cfg : LifecycleConfig F) (queryVec : List F) (o : SearchOptions F)
    (userId : String) (db : Db F) : Type
  | direct (m : MemoryRow F) (h : db.Candidate userId o m)
  | expanded (sources : List String) (lm : LinkedMemory F) (h : lm ∈ db.linkedMany userId sources o.minBridgeEdgeWeight)
      (hlive : o.minBridgeEdgeWeight ≤ liveWeight cfg o.now lm) (hdim : lm.memory.hasDim queryVec.length)

namespace Origin
variable {cfg : LifecycleConfig F} {queryVec : List F} {o : SearchOptions F} {userId : String} {db : Db F}

variable [Elementary F]

def row : Origin cfg queryVec o userId db → MemoryRow F
  | direct m _ => m
  | expanded _ lm _ _ _ => lm.memory

def source : Origin cfg queryVec o userId db → ResultSource
  | direct .. => .direct
  | expanded .. => .graphExpanded

def weight : Origin cfg queryVec o userId db → F
  | direct .. => 1
  | expanded _ lm _ _ _ => liveWeight cfg o.now lm

def score (bm25 : Bm25 F) : Origin cfg queryVec o userId db → F
  | direct m _ =>
    if o.hybrid then fusedScore (db.rankLists bm25 userId o (db.denseHits cfg userId queryVec o)) 60 m.id
    else compositeScore cfg queryVec o.now (SearchCandidate.ofRow m)
  | expanded _ lm _ _ _ =>
    compositeScore cfg queryVec o.now (SearchCandidate.ofRow lm.memory) * liveWeight cfg o.now lm

def result (bm25 : Bm25 F) (org : Origin cfg queryVec o userId db) : SearchResult F :=
  (SearchCandidate.ofRow org.row).result (org.score bm25) org.source

@[simp] theorem result_memoryId (bm25 : Bm25 F) (org : Origin cfg queryVec o userId db) :
    (org.result bm25).memoryId = org.row.id := rfl

@[simp] theorem result_score (bm25 : Bm25 F) (org : Origin cfg queryVec o userId db) :
    (org.result bm25).score = org.score bm25 := rfl

@[simp] theorem result_source (bm25 : Bm25 F) (org : Origin cfg queryVec o userId db) :
    (org.result bm25).source = org.source := rfl

end Origin

/-! ## Fusion -/

variable {bm25 : Bm25 F} {cfg : LifecycleConfig F} {queryVec : List F} {o : SearchOptions F} {userId : String} {db : Db F}
  {calm : Prop}

structure Fused (bm25 : Bm25 F) (db : Db F) (userId : String) (o : SearchOptions F) (scored hits : List (SearchResult F)) :
    Prop where
  sorted : hits.Pairwise fun a b => b.score ≤ a.score
  rescored : ∀ r ∈ hits, ∃ r' ∈ scored, r = { r' with score := fusedScore (db.rankLists bm25 userId o scored) 60 r'.memoryId }
  all : (scored.map SearchResult.memoryId).Nodup → ∀ r ∈ scored,
    { r with score := fusedScore (db.rankLists bm25 userId o scored) 60 r.memoryId } ∈ hits

omit [Field F] in
theorem sortDesc_sorted {α : Type} (key : α → F) (l : List α) : (sortDesc key l).Pairwise fun a b => key b ≤ key a :=
  Top.ranked_sorted key l

omit [Field F] in
theorem nodup_sortDesc {α : Type} {key : α → F} {id : α → String} {l : List α} (h : (l.map id).Nodup) :
    ((sortDesc key l).map id).Nodup :=
  ((List.perm_insertionSort _ l).map id).nodup_iff.mpr h

theorem wp_fuseHybrid_hits {text : String} (htext : o.queryText = some text) {scored : List (SearchResult F)} {w : World F}
    (hw : w.Reads db calm) : (fuseHybrid userId o scored).wp (exec bm25)
      (fun hits w' => hits = fusedHits (db.rankLists bm25 userId o scored) scored
          (w.oracle.order 0 (fusedKeys F (db.rankLists bm25 userId o scored))) ∧ w'.Reads db calm)
      (fun _ => ¬ calm) w := by
  have hlists : [rankedHits (scored.map SearchResult.memoryId),
      rankedHits (db.bm25Search bm25 userId (safeQuery text) (bm25Limit o.limit))] = db.rankLists bm25 userId o scored := by
    rw [Db.rankLists, htext]
    rfl
  let q : Query F := .bm25Search userId (safeQuery text) (bm25Limit o.limit)
  unfold fuseHybrid
  rw [htext]
  refine .seq (.mapError (wp_query_answer (q := q) hw rfl) fun _ he => he) ?_
  rintro ids w₁ ⟨hids, rfl⟩
  rw [hids, hlists]
  exact ⟨rfl, World.Reads.mk hw.db fun hc n => hw.calm hc (n + 1)⟩

theorem Fused.of_order {scored : List (SearchResult F)} {keys : List String}
    (hkeys : keys.Perm (fusedKeys F (db.rankLists bm25 userId o scored))) :
    Fused bm25 db userId o scored (fusedHits (db.rankLists bm25 userId o scored) scored keys) where
  sorted := by
    rw [fusedHits_eq fun id hid => hkeys.mem_iff.mp hid]
    exact Top.ranked_sorted _ _
  rescored r hr := by
    rw [fusedHits_eq fun id hid => hkeys.mem_iff.mp hid] at hr
    obtain ⟨id, -, hid⟩ := List.mem_filterMap.mp ((Top.ranked_perm _ _).mem_iff.mp hr)
    obtain ⟨r', hr', rfl⟩ := Option.map_eq_some_iff.mp hid
    exact ⟨r', List.mem_of_find?_eq_some hr', rfl⟩
  all hnodup r hr := (fusedHits_perm hnodup _ hkeys).mem_iff.mpr (List.mem_map_of_mem hr)

theorem wp_fuseHybrid {scored : List (SearchResult F)} {w : World F} (hw : w.Reads db calm)
    (htext : calm → o.queryText.isSome) : (fuseHybrid userId o scored).wp (exec bm25)
      (fun hits w' => Fused bm25 db userId o scored hits ∧ w'.Reads db calm) (fun _ => ¬ calm) w := by
  cases hnone : o.queryText with
  | none =>
    unfold fuseHybrid
    rw [hnone]
    intro hc
    rw [hnone] at htext
    exact nomatch htext hc
  | some text =>
    refine (wp_fuseHybrid_hits hnone hw).imp ?_
    rintro hits w' ⟨rfl, hw'⟩
    exact ⟨.of_order (w.oracle.order_perm 0 _), hw'⟩

/-! ## The ranked list -/

variable [Elementary F]

/-- `Searcher::search` before it truncates the list. -/
def rankAll (cfg : LifecycleConfig F) (userId : String) (queryVec : List F) (o : SearchOptions F) :
    SearchM F (List (SearchResult F)) := do
  let candidates : List (SearchCandidate F) ←
    (query (.candidatesForSearch userId o.provider o.model o.now o.deepRecall)).mapError .storage
  let dense ← Prog.ofExcept (candidates.mapM (scoreCandidate cfg queryVec o.now))
  let hits ← hybridHits userId o (sortDesc SearchResult.score dense)
  expandedHits cfg userId queryVec o hits

theorem search_eq_rankAll (hvec : queryVec ≠ []) (hlimit : o.limit ≠ 0) : search cfg userId queryVec o =
    (do let ranked ← rankAll cfg userId queryVec o; Pure.pure (ranked.take o.limit)) := by
  unfold search rankAll
  rw [if_neg (by simpa using hvec), if_neg hlimit]
  simp only [bind_eq, bind_assoc']

/-- The list is sorted by score, a candidate before a linked memory of the same score; all results
have an origin, and all candidates are there. -/
structure Ranking (bm25 : Bm25 F) (cfg : LifecycleConfig F) (userId : String) (queryVec : List F) (o : SearchOptions F)
    (db : Db F) (ranked : List (SearchResult F)) : Prop where
  sorted : ranked.Pairwise fun a b => b.score ≤ a.score ∧ (a.source = .graphExpanded → b.source = .direct → b.score < a.score)
  origin : ∀ r ∈ ranked, ∃ org : Origin cfg queryVec o userId db, r = org.result bm25
  all : ∀ m (h : db.Candidate userId o m), (Origin.direct m h : Origin cfg queryVec o userId db).result bm25 ∈ ranked

structure Expanding (bm25 : Bm25 F) (cfg : LifecycleConfig F) (userId : String) (queryVec : List F) (o : SearchOptions F)
    (db : Db F) (hits scored : List (SearchResult F)) : Prop where
  hits : ∃ added, scored = hits ++ added ∧ ∀ r ∈ added, r.source = .graphExpanded
  origin : ∀ r ∈ scored, ∃ org : Origin cfg queryVec o userId db, r = org.result bm25

theorem expandEntry_eq_some {lm : LinkedMemory F} {r : SearchResult F} (h : expandEntry cfg queryVec o lm = some r) :
    o.minBridgeEdgeWeight ≤ liveWeight cfg o.now lm ∧ lm.memory.hasDim queryVec.length ∧
      r = (SearchCandidate.ofRow lm.memory).result
        (compositeScore cfg queryVec o.now (SearchCandidate.ofRow lm.memory) * liveWeight cfg o.now lm) .graphExpanded := by
  obtain ⟨-, hdim⟩ := expandEntry_some h
  unfold expandEntry at h
  split at h
  · cases h
  rename_i hlive
  split at h
  · cases h
  split at h
  · cases h
  cases h
  exact ⟨not_lt.mp hlive, hdim, rfl⟩

theorem Expanding.expand {hits : List (SearchResult F)} {x : Expansion F}
    (h : Expanding bm25 cfg userId queryVec o db hits x.scored) : Expanding bm25 cfg userId queryVec o db hits
      ((db.linkedMany userId x.frontier o.minBridgeEdgeWeight).foldl (Expansion.add cfg queryVec o)
        ⟨x.alreadyHave, x.scored, []⟩).scored := by
  refine foldl_add_keeps (P := fun y => Expanding bm25 cfg userId queryVec o db hits y.scored)
    (fun y lm r hlm _ hr hy => ?_) h
  obtain ⟨hlive, hdim, hentry⟩ := expandEntry_eq_some hr
  obtain ⟨added, hscored, hsource⟩ := hy.hits
  refine ⟨⟨added ++ [r], by rw [hscored, List.append_assoc], fun r' hr' => ?_⟩, fun r' hr' => ?_⟩
  · rcases List.mem_append.mp hr' with hr' | hr'
    · exact hsource r' hr'
    · rw [List.mem_singleton.mp hr', hentry]
      rfl
  · rcases List.mem_append.mp hr' with hr' | hr'
    · exact hy.origin r' hr'
    · rw [List.mem_singleton.mp hr', hentry]
      exact ⟨.expanded x.frontier lm hlm hlive hdim, rfl⟩

/-- Direct hits that are sorted stay so, and go before added entries of the same score. -/
theorem Expanding.sorted {hits scored : List (SearchResult F)} (h : Expanding bm25 cfg userId queryVec o db hits scored)
    (hdirect : ∀ r ∈ hits, r.source = .direct) : (sortDesc SearchResult.score scored).Pairwise fun a b =>
      b.score ≤ a.score ∧ (a.source = .graphExpanded → b.source = .direct → b.score < a.score) := by
  have htotal : Std.Total fun a b : SearchResult F => b.score ≤ a.score := ⟨fun a b => le_total b.score a.score⟩
  have htrans : IsTrans (SearchResult F) fun a b => b.score ≤ a.score := ⟨fun _ _ _ hab hbc => le_trans hbc hab⟩
  obtain ⟨added, rfl, hsource⟩ := h.hits
  have hfirst : (hits ++ added).Pairwise fun a b => a.source = .graphExpanded → b.source ≠ .direct := by
    refine List.pairwise_append.mpr ⟨?_, ?_, ?_⟩
    · refine List.pairwise_of_forall_mem_list fun a ha b hb hexpanded => ?_
      rw [hdirect a ha] at hexpanded
      exact nomatch hexpanded
    · refine List.pairwise_of_forall_mem_list fun a ha b hb _ => ?_
      rw [hsource b hb]
      exact nofun
    · intro a ha b hb hexpanded
      rw [hdirect a ha] at hexpanded
      exact nomatch hexpanded
  refine (pairwise_insertionSort_stable hfirst).imp fun hab => ⟨hab.1, fun ha hb => ?_⟩
  exact lt_of_not_ge fun hle => hab.2 hle ha hb

theorem wp_expandedHits_ranks {hits : List (SearchResult F)} {w : World F} (hw : w.Reads db calm)
    (hsorted : hits.Pairwise fun a b => b.score ≤ a.score) (hdirect : ∀ r ∈ hits, r.source = .direct)
    (horigin : ∀ r ∈ hits, ∃ org : Origin cfg queryVec o userId db, r = org.result bm25)
    (hall : ∀ m (h : db.Candidate userId o m), (Origin.direct m h : Origin cfg queryVec o userId db).result bm25 ∈ hits) :
    (expandedHits cfg userId queryVec o hits).wp (exec bm25)
      (fun ranked w' => Ranking bm25 cfg userId queryVec o db ranked ∧ w'.Reads db calm) (fun _ => ¬ calm) w := by
  have hstart : Expanding bm25 cfg userId queryVec o db hits hits := ⟨⟨[], by simp⟩, horigin⟩
  unfold expandedHits
  split
  · refine wp.seq (wp_expandHops _ (J := fun _ x => Expanding bm25 cfg userId queryVec o db hits x.scored)
      (fun _ _ hx => hx.expand) hstart hw) ?_
    rintro expanded w' ⟨⟨k, x, hx, -, rfl⟩, hw'⟩
    refine ⟨⟨hx.sorted hdirect, fun r hr => hx.origin r (mem_sortDesc.mp hr), fun m hm => ?_⟩, hw'⟩
    obtain ⟨added, hscored, -⟩ := hx.hits
    rw [mem_sortDesc, hscored]
    exact List.mem_append_left _ (hall m hm)
  · refine ⟨⟨?_, horigin, hall⟩, hw⟩
    refine (List.Pairwise.and_mem.mp hsorted).imp fun hab => ⟨hab.2.2, fun hexpanded => ?_⟩
    rw [hdirect _ hab.1] at hexpanded
    exact nomatch hexpanded

theorem denseHits_nodup (hk : db.Keyed) : ((db.denseHits cfg userId queryVec o).map SearchResult.memoryId).Nodup := by
  have hids : ((db.memories.filter fun r => r.searchable userId o.provider o.model o.now o.deepRecall).map MemoryRow.id).Nodup :=
    hk.sublist (List.Sublist.map _ List.filter_sublist)
  have hperm := (List.perm_insertionSort (fun a b : SearchResult F => b.score ≤ a.score)
    (((db.memories.filter fun r => r.searchable userId o.provider o.model o.now o.deepRecall).map SearchCandidate.ofRow).map
      fun c => c.result (compositeScore cfg queryVec o.now c) .direct)).map SearchResult.memoryId
  refine hperm.nodup_iff.mpr ?_
  rw [List.map_map, List.map_map]
  exact hids

/-- Nothing but a failing statement fails the search. -/
structure Fair (db : Db F) (userId : String) (queryVec : List F) (o : SearchOptions F) : Prop where
  dims : ∀ c, db.Candidate userId o c → c.hasDim queryVec.length
  text : o.hybrid → o.queryText.isSome

theorem wp_scoring {α : Type} {w : World F} (hw : w.Reads db calm)
    (hdims : calm → ∀ c, db.Candidate userId o c → c.hasDim queryVec.length) {k : List (SearchResult F) → SearchM F α}
    {Q : α → World F → Prop} (hk : ∀ dense w', sortDesc SearchResult.score dense = db.denseHits cfg userId queryVec o →
      w'.Reads db calm → (k dense).wp (exec bm25) Q (fun _ => ¬ calm) w') :
    Prog.wp (exec bm25) Q (fun _ => ¬ calm) (do
      let candidates : List (SearchCandidate F) ←
        (query (.candidatesForSearch userId o.provider o.model o.now o.deepRecall)).mapError .storage
      let dense ← Prog.ofExcept (candidates.mapM (scoreCandidate cfg queryVec o.now))
      k dense : SearchM F α) w := by
  let q : Query F := .candidatesForSearch userId o.provider o.model o.now o.deepRecall
  refine wp.seq (.mapError (wp_query (q := q) hw rfl) fun _ he => he) ?_
  rintro candidates w₁ ⟨rfl, hw₁⟩
  refine wp.seq (P := fun dense w₂ => sortDesc SearchResult.score dense = db.denseHits cfg userId queryVec o ∧
    w₂.Reads db calm) (wp_ofExcept (fun dense hdense => ?_) fun e he hc => ?_) fun dense w₂ h => hk dense w₂ h.1 h.2
  · rw [(mapM_scoreCandidate hdense).2]
    exact ⟨rfl, hw₁⟩
  · obtain ⟨dense, hdense⟩ := exists_candidate_scores cfg (hdims hc)
    rw [hdense] at he
    exact nomatch he

theorem mem_denseHits {r : SearchResult F} (hr : r ∈ db.denseHits cfg userId queryVec o) : ∃ m, db.Candidate userId o m ∧
    r = (SearchCandidate.ofRow m).result (compositeScore cfg queryVec o.now (SearchCandidate.ofRow m)) .direct := by
  obtain ⟨c, hc, rfl⟩ := List.mem_map.mp (mem_sortDesc.mp hr)
  obtain ⟨m, hm, rfl⟩ := List.mem_map.mp hc
  exact ⟨m, List.mem_filter.mp hm, rfl⟩

theorem denseHits_of_candidate {m : MemoryRow F} (hm : db.Candidate userId o m) :
    (SearchCandidate.ofRow m).result (compositeScore cfg queryVec o.now (SearchCandidate.ofRow m)) .direct ∈
      db.denseHits cfg userId queryVec o :=
  mem_sortDesc.mpr (List.mem_map_of_mem (List.mem_map_of_mem (List.mem_filter.mpr hm)))

theorem wp_rankAll {w : World F} (hw : w.Reads db calm) (hk : db.Keyed) (hfair : calm → Fair db userId queryVec o) :
    (rankAll cfg userId queryVec o).wp (exec bm25)
      (fun ranked w' => Ranking bm25 cfg userId queryVec o db ranked ∧ w'.Reads db calm) (fun _ => ¬ calm) w := by
  refine wp_scoring hw (fun hc => (hfair hc).dims) fun dense w₂ hdense hw₂ => ?_
  rw [hdense]
  let org (m : MemoryRow F) (h : db.Candidate userId o m) : Origin cfg queryVec o userId db := .direct m h
  unfold hybridHits
  split
  · rename_i hhybrid
    refine wp.seq (wp_fuseHybrid hw₂ fun hc => (hfair hc).text hhybrid) ?_
    rintro hits w₃ ⟨hfused, hw₃⟩
    have hscore : ∀ m h, (org m h).score bm25 =
        fusedScore (db.rankLists bm25 userId o (db.denseHits cfg userId queryVec o)) 60 m.id := fun m h => if_pos hhybrid
    refine wp_expandedHits_ranks hw₃ hfused.sorted ?_ ?_ ?_
    · intro r hr
      obtain ⟨r', hr', rfl⟩ := hfused.rescored r hr
      obtain ⟨m, -, rfl⟩ := mem_denseHits hr'
      rfl
    · intro r hr
      obtain ⟨r', hr', rfl⟩ := hfused.rescored r hr
      obtain ⟨m, hm, rfl⟩ := mem_denseHits hr'
      exact ⟨org m hm, by rw [Origin.result, hscore]; rfl⟩
    · intro m hm
      have hmem := hfused.all (denseHits_nodup hk) _ (denseHits_of_candidate hm)
      rw [Origin.result, hscore]
      exact hmem
  · rename_i hdense_mode
    have hscore : ∀ m h, (org m h).score bm25 = compositeScore cfg queryVec o.now (SearchCandidate.ofRow m) :=
      fun m h => if_neg hdense_mode
    refine wp_expandedHits_ranks hw₂ (sortDesc_sorted _ _) ?_ ?_ ?_
    · intro r hr
      obtain ⟨m, -, rfl⟩ := mem_denseHits hr
      rfl
    · intro r hr
      obtain ⟨m, hm, rfl⟩ := mem_denseHits hr
      exact ⟨org m hm, by rw [Origin.result, hscore]; rfl⟩
    · intro m hm
      rw [Origin.result, hscore]
      exact denseHits_of_candidate hm

theorem run_rankAll {w : World F} (hdb : w.db = db) (hk : db.Keyed) {ranked : List (SearchResult F)}
    (hrun : ((rankAll cfg userId queryVec o).run (exec bm25) w).1 = .ok ranked) :
    Ranking bm25 cfg userId queryVec o db ranked := by
  have hw : w.Reads db False := ⟨hdb, False.elim⟩
  exact (wp_ok (wp_rankAll hw hk False.elim) hrun).1

theorem exists_run_rankAll {w : World F} (hw : w.Reads db True) (hk : db.Keyed) (hfair : Fair db userId queryVec o) :
    ∃ ranked, ((rankAll cfg userId queryVec o).run (exec bm25) w).1 = .ok ranked := by
  have hrank : (rankAll cfg userId queryVec o).wp (exec bm25)
      (fun ranked w' => Ranking bm25 cfg userId queryVec o db ranked ∧ w'.Reads db True) (fun _ => ¬ True) w :=
    wp_rankAll hw hk fun _ => hfair
  obtain ⟨ranked, hrun, -⟩ := wp_total hrank fun _ => not_not.mpr trivial
  exact ⟨ranked, hrun⟩

theorem run_search_ranked {w : World F} (hlimit : o.limit ≠ 0) {results : List (SearchResult F)}
    (hrun : ((search cfg userId queryVec o).run (exec bm25) w).1 = .ok results) :
    ∃ ranked, ((rankAll cfg userId queryVec o).run (exec bm25) w).1 = .ok ranked ∧ results = ranked.take o.limit := by
  have hvec : queryVec ≠ [] := by
    rintro rfl
    exact nomatch hrun
  rw [search_eq_rankAll hvec hlimit, bind_eq, run_bind] at hrun
  cases hranked : (rankAll cfg userId queryVec o).run (exec bm25) w with
  | mk answer w' =>
    rw [hranked] at hrun
    cases answer with
    | error e => cases hrun
    | ok ranked =>
      cases hrun
      exact ⟨ranked, rfl, rfl⟩

theorem run_search_zero {w : World F} (hlimit : o.limit = 0) {results : List (SearchResult F)}
    (hrun : ((search cfg userId queryVec o).run (exec bm25) w).1 = .ok results) : results = [] := by
  unfold search at hrun
  split at hrun
  · cases hrun
  · cases hrun
    rfl

theorem run_search {w : World F} (hdb : w.db = db) (hk : db.Keyed) {results : List (SearchResult F)}
    (hrun : ((search cfg userId queryVec o).run (exec bm25) w).1 = .ok results) (hne : results ≠ []) :
    ∃ ranked, Ranking bm25 cfg userId queryVec o db ranked ∧ results = ranked.take o.limit := by
  have hlimit : o.limit ≠ 0 := fun hzero => hne (run_search_zero hzero hrun)
  obtain ⟨ranked, hranked, rfl⟩ := run_search_ranked hlimit hrun
  exact ⟨ranked, run_rankAll hdb hk hranked, rfl⟩

theorem wp_search_dense {w : World F} (hw : w.Reads db calm) (hmode : o.hybrid = false) (hhops : o.graphExpansionHops = 0)
    (hvec : queryVec ≠ []) (hlimit : o.limit ≠ 0) (hdims : calm → ∀ c, db.Candidate userId o c → c.hasDim queryVec.length) :
    (search cfg userId queryVec o).wp (exec bm25)
      (fun results w' => results = (db.denseHits cfg userId queryVec o).take o.limit ∧ w'.Reads db calm) (fun _ => ¬ calm) w := by
  rw [search_eq_rankAll hvec hlimit]
  refine wp.seq (wp_scoring (Q := fun ranked w' => ranked = db.denseHits cfg userId queryVec o ∧ w'.Reads db calm) hw hdims
    fun dense w₂ hdense hw₂ => ?_) ?_
  · unfold hybridHits expandedHits
    rw [if_neg (by simp [hmode]), hdense]
    rw [pure_eq, bind_eq, pure_bind', if_neg (by simp [hhops])]
    exact ⟨rfl, hw₂⟩
  · rintro ranked w' ⟨rfl, hw'⟩
    exact ⟨rfl, hw'⟩

end
end CognitiveMemory
