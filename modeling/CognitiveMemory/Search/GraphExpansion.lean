import CognitiveMemory.Search.EdgeWeight
import CognitiveMemory.Search.Graph

/-! Graph expansion of a search beside the graph crate's `expand_graph`: over one graph of decayed
edges they reach the same memories unless merging edges interferes, and the one weighs a memory by the
last edge of the route where the other multiplies along it. -/

namespace CognitiveMemory
open Prog Frontier

/-! ## One graph for both -/

section
variable {F : Type}

/-- The place of a memory in the array. -/
def Db.memoryIndex (db : Db F) (id : String) : MemoryIndex := (db.memories.map MemoryRow.id).idxOf id

variable [Field F] [LinearOrder F] [Elementary F]

def Db.association (cfg : LifecycleConfig F) (db : Db F) (now : Int) (e : AssociationRow F) : Association F :=
  ⟨db.memoryIndex e.targetMemoryId, e.decayed cfg now, e.lastCoRetrieval.getD 0⟩

def Db.adjacency (cfg : LifecycleConfig F) (db : Db F) (now : Int) : AdjacencyList F :=
  db.memories.map fun m =>
    (db.memoryIndex m.id, (db.associations.filter fun e => e.sourceMemoryId == m.id).map (db.association cfg now))

/-- The memories are one user's, with vectors of this dimension, and the edges lead to them. -/
structure Db.GraphOf (db : Db F) (userId : String) (dim : ℕ) : Prop where
  keyed : db.Keyed
  memories : ∀ m ∈ db.memories, m.userId = userId ∧ m.hasDim dim
  targets : ∀ e ∈ db.associations, e.targetMemoryId ∈ db.memories.map MemoryRow.id

/-- An edge whose decayed weight reaches the threshold. -/
def Db.Admissible (cfg : LifecycleConfig F) (o : SearchOptions F) (db : Db F) (a : String) (e : AssociationRow F)
    (b : String) : Prop :=
  e ∈ db.associations ∧ e.sourceMemoryId = a ∧ e.targetMemoryId = b ∧ o.minBridgeEdgeWeight ≤ e.decayed cfg o.now

def AssociationRow.merged (e e' : AssociationRow F) : AssociationRow F :=
  { e with weight := max e.weight e'.weight, lastCoRetrieval := maxLast e.lastCoRetrieval e'.lastCoRetrieval }

/-- Two edges to one memory, merged, reach the threshold just when one of them does. -/
def Db.MergesEvenly (cfg : LifecycleConfig F) (o : SearchOptions F) (db : Db F) : Prop :=
  ∀ e ∈ db.associations, ∀ e' ∈ db.associations, e.targetMemoryId = e'.targetMemoryId → o.minBridgeEdgeWeight ≤ e.weight →
    o.minBridgeEdgeWeight ≤ e'.weight → (o.minBridgeEdgeWeight ≤ (e.merged e').decayed cfg o.now ↔
      o.minBridgeEdgeWeight ≤ e.decayed cfg o.now ∨ o.minBridgeEdgeWeight ≤ e'.decayed cfg o.now)

/-- Two edges to one memory, merged, are as strong as the stronger of them. -/
def Db.MergesToStronger (cfg : LifecycleConfig F) (o : SearchOptions F) (db : Db F) : Prop :=
  ∀ e ∈ db.associations, ∀ e' ∈ db.associations, e.targetMemoryId = e'.targetMemoryId → o.minBridgeEdgeWeight ≤ e.weight →
    o.minBridgeEdgeWeight ≤ e'.weight → (e.merged e').decayed cfg o.now = max (e.decayed cfg o.now) (e'.decayed cfg o.now)

variable {cfg : LifecycleConfig F} {o : SearchOptions F} {db : Db F} {a b : String} {anchors : List String}

theorem Db.MergesToStronger.evenly (h : db.MergesToStronger cfg o) : db.MergesEvenly cfg o := by
  intro e he e' he' htarget hweight hweight'
  rw [h e he e' he' htarget hweight hweight']
  exact le_max_iff

omit [Field F] [LinearOrder F] [Elementary F] in
theorem memoryIndex_inj (ha : a ∈ db.memories.map MemoryRow.id) :
    db.memoryIndex a = db.memoryIndex b ↔ a = b := List.idxOf_inj ha

omit [LinearOrder F] in
theorem lookup_adjacency (hk : db.Keyed) (ha : a ∈ db.memories.map MemoryRow.id) :
    (db.adjacency cfg o.now).lookup (db.memoryIndex a) =
    some ((db.associations.filter fun e => e.sourceMemoryId == a).map (db.association cfg o.now)) := by
  obtain ⟨m, hm, rfl⟩ := List.mem_map.mp ha
  obtain ⟨before, after, hsplit⟩ := List.append_of_mem hm
  refine List.lookup_eq_some_iff.mpr ⟨_, _, by rw [Db.adjacency, hsplit, List.map_append, List.map_cons], fun p hp => ?_⟩
  obtain ⟨m', hm', rfl⟩ := List.mem_map.mp hp
  rw [bne_iff_ne, Ne, memoryIndex_inj ha]
  rintro heq
  have hnodup : ((before ++ m :: after).map MemoryRow.id).Nodup := hsplit ▸ hk
  rw [List.map_append, List.map_cons] at hnodup
  exact (List.disjoint_of_nodup_append hnodup) (List.mem_map_of_mem hm') (heq ▸ List.mem_cons_self)

theorem follows_iff (hk : db.Keyed) (ha : a ∈ db.memories.map MemoryRow.id) {e' : Association F} {j : MemoryIndex} :
    Follows (db.adjacency cfg o.now) ⟨o.minBridgeEdgeWeight⟩ (db.memoryIndex a) e' j ↔
      ∃ e b, db.Admissible cfg o a e b ∧ e' = db.association cfg o.now e ∧ j = db.memoryIndex b := by
  unfold Follows
  rw [lookup_adjacency hk ha]
  constructor
  · rintro ⟨edges, hedges, hfollowed, rfl, hweight⟩
    cases hedges
    obtain ⟨e, he, rfl⟩ := List.mem_map.mp hfollowed
    obtain ⟨hmem, hsource⟩ := List.mem_filter.mp he
    exact ⟨e, e.targetMemoryId, ⟨hmem, by simpa using hsource, rfl, hweight⟩, rfl, rfl⟩
  · rintro ⟨e, b, ⟨hmem, hsource, rfl, hweight⟩, rfl, rfl⟩
    exact ⟨_, rfl, List.mem_map_of_mem (List.mem_filter.mpr ⟨hmem, by simpa using hsource⟩), rfl, hweight⟩

theorem within_follows (hk : db.Keyed) (ht : ∀ e ∈ db.associations, e.targetMemoryId ∈ db.memories.map MemoryRow.id)
    (ha : a ∈ db.memories.map MemoryRow.id) {n : ℕ} (h : Within (fun a b => ∃ e, db.Admissible cfg o a e b) n a b) :
    Within (fun i j => ∃ e, Follows (db.adjacency cfg o.now) ⟨o.minBridgeEdgeWeight⟩ i e j) n (db.memoryIndex a)
      (db.memoryIndex b) := by
  induction h with
  | refl n a => exact .refl n _
  | step hedge _ ih =>
    obtain ⟨e, hadm⟩ := hedge
    have hnext := ht e hadm.1
    rw [hadm.2.2.1] at hnext
    exact .step ⟨_, (follows_iff hk ha).mpr ⟨e, _, hadm, rfl, rfl⟩⟩ (ih hnext)

theorem route_of_follows (hk : db.Keyed) (ht : ∀ e ∈ db.associations, e.targetMemoryId ∈ db.memories.map MemoryRow.id)
    (hanchors : ∀ a ∈ anchors, a ∈ db.memories.map MemoryRow.id) {i : MemoryIndex} {es' : List (Association F)}
      {bs' : List MemoryIndex}
    (h : Route (Follows (db.adjacency cfg o.now) ⟨o.minBridgeEdgeWeight⟩) {i | i ∈ anchors.map db.memoryIndex} i es' bs') :
    ∃ id es bs, id ∈ db.memories.map MemoryRow.id ∧ i = db.memoryIndex id ∧
      Route (db.Admissible cfg o) {a | a ∈ anchors} id es bs ∧ es' = es.map (db.association cfg o.now) ∧ bs' =
        bs.map db.memoryIndex := by
  induction h with
  | start hi =>
    obtain ⟨a, ha, rfl⟩ := List.mem_map.mp hi
    exact ⟨a, [], [], hanchors a ha, rfl, .start ha, rfl, rfl⟩
  | follow _ hedge hfar hnew ih =>
    obtain ⟨id, es, bs, hid, rfl, hroute, rfl, rfl⟩ := ih
    obtain ⟨e, b, hadm, rfl, rfl⟩ := (follows_iff hk hid).mp hedge
    have hb : b ∈ db.memories.map MemoryRow.id := hadm.2.2.1 ▸ ht e hadm.1
    refine ⟨b, es ++ [e], bs ++ [b], hb, rfl, hroute.follow hadm (fun ha => ?_) fun hmem => ?_, by simp, by simp⟩
    · exact hfar (List.mem_map_of_mem ha)
    · exact hnew (List.mem_map_of_mem hmem)

end

/-! ## What a hop admits -/

section
variable {cfg : LifecycleConfig ℝ} {queryVec : List ℝ} {o : SearchOptions ℝ} {userId : String} {db : Db ℝ} {x : Expansion ℝ}
  {lm : LinkedMemory ℝ}

theorem decayed_mono_weight {cfg : LifecycleConfig ℝ} {e : AssociationRow ℝ} {weight : ℝ} (h : e.weight ≤ weight)
    (now : Int) :
    e.decayed cfg now ≤ ({ e with weight := weight } : AssociationRow ℝ).decayed cfg now := by
  unfold AssociationRow.decayed
  cases e.lastCoRetrieval with
  | none => exact h
  | some last => exact mul_le_mul_of_nonneg_right h (Real.exp_pos _).le

theorem expandEntry_score {r : SearchResult ℝ} (h : expandEntry cfg queryVec o lm = some r) :
    o.minBridgeEdgeWeight ≤ liveWeight cfg o.now lm ∧
      r.score = compositeScore cfg queryVec o.now (SearchCandidate.ofRow lm.memory) * liveWeight cfg o.now lm := by
  unfold expandEntry at h
  split at h
  · cases h
  rename_i hlive
  split at h
  · cases h
  split at h
  · cases h
  cases h
  exact ⟨not_lt.mp hlive, rfl⟩

/-- The live weight is that of two of the edges, merged, and no less than what the later makes of any
other. -/
theorem liveWeight_merged (cfg : LifecycleConfig ℝ) (hm : Merged o db x lm) :
    ∃ e₀ ∈ db.edgesInto x.frontier o.minBridgeEdgeWeight lm.memory.id,
    ∃ e₁ ∈ db.edgesInto x.frontier o.minBridgeEdgeWeight lm.memory.id, liveWeight cfg o.now lm =
      (e₀.merged e₁).decayed cfg o.now ∧
      ∀ e ∈ db.edgesInto x.frontier o.minBridgeEdgeWeight lm.memory.id,
        (e.merged e₁).decayed cfg o.now ≤ liveWeight cfg o.now lm := by
  obtain ⟨e₀, he₀, hheavy⟩ := hm.heaviest
  obtain ⟨e₁, he₁, hlatest⟩ := hm.latest
  have hlast : ∀ e ∈ db.edgesInto x.frontier o.minBridgeEdgeWeight lm.memory.id,
      maxLast e.lastCoRetrieval e₁.lastCoRetrieval = lm.lastCoRetrieval := by
    intro e he
    rw [hlatest]
    cases hdate : e.lastCoRetrieval with
    | none => rfl
    | some l =>
      obtain ⟨last, hsome, hle⟩ := hm.le_last e he l hdate
      rw [hsome, maxLast, max_eq_right hle]
  have hlive : ∀ e : AssociationRow ℝ, e.lastCoRetrieval = lm.lastCoRetrieval → e.weight = lm.linkStrength →
      liveWeight cfg o.now lm = e.decayed cfg o.now := by
    intro e hdate hweight
    unfold liveWeight AssociationRow.decayed
    rw [hdate]
    exact hweight ▸ rfl
  refine ⟨e₀, he₀, e₁, he₁, hlive _ (hlast e₀ he₀) ?_, fun e he => ?_⟩
  · exact (max_eq_left ((hm.le_weight e₁ he₁).trans hheavy.ge)).trans hheavy
  · rw [hlive { e.merged e₁ with weight := lm.linkStrength } (hlast e he) rfl]
    exact decayed_mono_weight (max_le (hm.le_weight e he) (hm.le_weight e₁ he₁)) o.now

theorem edgesInto_of_admissible (htau : 0 < cfg.associationDecayConstantDays) (hmin : 0 ≤ o.minBridgeEdgeWeight)
    {a b : String} {e : AssociationRow ℝ} (ha : a ∈ x.frontier) (h : db.Admissible cfg o a e b) :
    e ∈ db.edgesInto x.frontier o.minBridgeEdgeWeight b := by
  obtain ⟨hmem, rfl, rfl, hweight⟩ := h
  have hpos : 0 ≤ e.weight := by
    by_contra hneg
    exact absurd (hmin.trans hweight) (not_le.mpr (decayed_neg (not_le.mp hneg) o.now))
  exact mem_edgesInto.mpr ⟨hmem, ha, rfl, hweight.trans (decayed_le htau hpos o.now)⟩

theorem admissible_of_edgesInto {b : String} {e : AssociationRow ℝ}
    (he : e ∈ db.edgesInto x.frontier o.minBridgeEdgeWeight b)
    (hweight : o.minBridgeEdgeWeight ≤ e.decayed cfg o.now) : ∃ a ∈ x.frontier, db.Admissible cfg o a e b := by
  obtain ⟨hmem, hsource, rfl, -⟩ := mem_edgesInto.mp he
  exact ⟨_, hsource, hmem, rfl, rfl, hweight⟩

theorem Db.MergesEvenly.iff (h : db.MergesEvenly cfg o) {b : String} {e e' : AssociationRow ℝ}
    (he : e ∈ db.edgesInto x.frontier o.minBridgeEdgeWeight b) (he' : e' ∈ db.edgesInto x.frontier o.minBridgeEdgeWeight b) :
    o.minBridgeEdgeWeight ≤ (e.merged e').decayed cfg o.now ↔
      o.minBridgeEdgeWeight ≤ e.decayed cfg o.now ∨ o.minBridgeEdgeWeight ≤ e'.decayed cfg o.now := by
  obtain ⟨hmem, -, htarget, hweight⟩ := mem_edgesInto.mp he
  obtain ⟨hmem', -, htarget', hweight'⟩ := mem_edgesInto.mp he'
  exact h e hmem e' hmem' (htarget.trans htarget'.symm) hweight hweight'

/-- A linked memory that is live is at the end of an admissible edge; when merged edges are as strong as
the stronger, its live weight is that edge's. -/
theorem admissible_of_live (heven : db.MergesEvenly cfg o) (hlm : lm ∈ db.linkedMany userId x.frontier o.minBridgeEdgeWeight)
    (hlive : o.minBridgeEdgeWeight ≤ liveWeight cfg o.now lm) : ∃ a ∈ x.frontier, ∃ e, db.Admissible cfg o a e lm.memory.id ∧
      (db.MergesToStronger cfg o → liveWeight cfg o.now lm = e.decayed cfg o.now) := by
  obtain ⟨e₀, he₀, e₁, he₁, heq, -⟩ := liveWeight_merged cfg (merged_of_linkedMany hlm)
  have hpick : ∃ e ∈ db.edgesInto x.frontier o.minBridgeEdgeWeight lm.memory.id, o.minBridgeEdgeWeight ≤ e.decayed cfg o.now ∧
      (db.MergesToStronger cfg o → liveWeight cfg o.now lm = e.decayed cfg o.now) := by
    by_cases hstronger : db.MergesToStronger cfg o
    · obtain ⟨hmem, -, htarget, hweight⟩ := mem_edgesInto.mp he₀
      obtain ⟨hmem', -, htarget', hweight'⟩ := mem_edgesInto.mp he₁
      have hmax := heq.trans (hstronger e₀ hmem e₁ hmem' (htarget.trans htarget'.symm) hweight hweight')
      rcases max_choice (e₀.decayed cfg o.now) (e₁.decayed cfg o.now) with hfirst | hsecond
      · exact ⟨e₀, he₀, (hmax.trans hfirst) ▸ hlive, fun _ => hmax.trans hfirst⟩
      · exact ⟨e₁, he₁, (hmax.trans hsecond) ▸ hlive, fun _ => hmax.trans hsecond⟩
    · rcases (heven.iff he₀ he₁).mp (heq ▸ hlive) with hfirst | hsecond
      · exact ⟨e₀, he₀, hfirst, fun h => absurd h hstronger⟩
      · exact ⟨e₁, he₁, hsecond, fun h => absurd h hstronger⟩
  obtain ⟨e, he, hweight, hfactor⟩ := hpick
  obtain ⟨a, ha, hadm⟩ := admissible_of_edgesInto he hweight
  exact ⟨a, ha, e, hadm, hfactor⟩

/-- A hop holds what an admissible edge from the frontier leads to. -/
theorem held_of_admissible (hg : db.GraphOf userId queryVec.length) (htau : 0 < cfg.associationDecayConstantDays)
    (hmin : 0 ≤ o.minBridgeEdgeWeight) (heven : db.MergesEvenly cfg o) {a b : String} {e : AssociationRow ℝ} (ha : a ∈ x.frontier)
    (h : db.Admissible cfg o a e b) : b ∈ ((db.linkedMany userId x.frontier o.minBridgeEdgeWeight).foldl
      (Expansion.add cfg queryVec o) ⟨x.alreadyHave, x.scored, []⟩).alreadyHave := by
  have hinto := edgesInto_of_admissible htau hmin ha h
  obtain ⟨hmem, hsource, htarget, hweight⟩ := mem_edgesInto.mp hinto
  obtain ⟨m, hm, hid⟩ := List.mem_map.mp (hg.targets e hmem)
  obtain ⟨huser, hdim⟩ := hg.memories m hm
  obtain ⟨lm, hlm, rfl⟩ := linkedMany_of_edge hm huser hmem hsource hweight hid.symm
  obtain rfl : lm.memory.id = b := hid.trans htarget
  obtain ⟨-, -, e₁, he₁, -, hle⟩ := liveWeight_merged cfg (merged_of_linkedMany hlm)
  have hlive : o.minBridgeEdgeWeight ≤ liveWeight cfg o.now lm := ((heven.iff hinto he₁).mpr (.inl h.2.2.2)).trans (hle e hinto)
  obtain ⟨r, hr⟩ := expandEntry_of_live hlive hdim
  exact mem_foldl_add hlm hr

end

/-! ## The walk -/

section
variable {bm25 : Bm25 ℝ} {cfg : LifecycleConfig ℝ} {queryVec : List ℝ} {o : SearchOptions ℝ} {userId : String} {db : Db ℝ}
  {hits : List (SearchResult ℝ)}

/-- The edge weight factor in the score of an entry. -/
def SearchResult.HasFactor (cfg : LifecycleConfig ℝ) (queryVec : List ℝ) (o : SearchOptions ℝ) (db : Db ℝ)
    (r : SearchResult ℝ) (factor : ℝ) : Prop :=
  ∃ m ∈ db.memories, m.id = r.memoryId ∧ r.score = compositeScore cfg queryVec o.now (SearchCandidate.ofRow m) * factor

/-- An entry is at the end of a route that no other entry before it lies beyond, and where merged edges
are as strong as the stronger its factor is the weight of the last edge. -/
def Routed (cfg : LifecycleConfig ℝ) (queryVec : List ℝ) (o : SearchOptions ℝ) (db : Db ℝ) (anchors : List String)
    (r : SearchResult ℝ) : Prop :=
  ∃ a e es bs, Route (db.Admissible cfg o) {a | a ∈ anchors} r.memoryId (es ++ [e]) bs ∧ db.Admissible cfg o a e r.memoryId ∧
    ∃ factor, r.HasFactor cfg queryVec o db factor ∧ (db.MergesToStronger cfg o → factor = e.decayed cfg o.now)

structure Spread (cfg : LifecycleConfig ℝ) (queryVec : List ℝ) (o : SearchOptions ℝ) (db : Db ℝ)
    (hits : List (SearchResult ℝ)) (n : ℕ) (x : Expansion ℝ) : Prop where
  held : ∀ id, id ∈ x.alreadyHave ↔ id ∈ x.scored.map SearchResult.memoryId
  frontier : ∀ id ∈ x.frontier, id ∈ x.alreadyHave
  added : ∃ added, x.scored = hits ++ added ∧ ∀ r ∈ added, Routed cfg queryVec o db (hits.map SearchResult.memoryId) r
  routes : ∀ id ∈ x.alreadyHave, ∃ es bs, Route (db.Admissible cfg o) {a | a ∈ hits.map SearchResult.memoryId} id es bs ∧
    es.length + n ≤ o.graphExpansionHops ∧ ∀ b ∈ bs, b ∈ x.alreadyHave

theorem Spread.start : Spread cfg queryVec o db hits o.graphExpansionHops 
    ⟨hits.map SearchResult.memoryId, hits, hits.map SearchResult.memoryId⟩ := by
  refine ⟨fun _ => .rfl, fun _ hid => hid, ⟨[], (List.append_nil _).symm, by simp⟩, fun id hid => ?_⟩
  exact ⟨[], [], .start hid, (Nat.zero_add _).le, by simp⟩

theorem Spread.anchor {n : ℕ} {x : Expansion ℝ} (h : Spread cfg queryVec o db hits n x) {id : String}
    (hid : id ∈ hits.map SearchResult.memoryId) : id ∈ x.alreadyHave := by
  obtain ⟨added, hscored, -⟩ := h.added
  rw [h.held, hscored, List.map_append]
  exact List.mem_append_left _ hid

theorem Spread.add {n : ℕ} {x y : Expansion ℝ} (heven : db.MergesEvenly cfg o) (hx : Spread cfg queryVec o db hits (n + 1) x)
    (hsub : ∀ id ∈ x.alreadyHave, id ∈ y.alreadyHave) (hy : Spread cfg queryVec o db hits n y) {lm : LinkedMemory ℝ}
    (hlm : lm ∈ db.linkedMany userId x.frontier o.minBridgeEdgeWeight) (hnew : lm.memory.id ∉ y.alreadyHave) {r : SearchResult ℝ}
    (hr : expandEntry cfg queryVec o lm = some r) : Spread cfg queryVec o db hits n
      ⟨lm.memory.id :: y.alreadyHave, y.scored ++ [r], y.frontier ++ [lm.memory.id]⟩ := by
  obtain ⟨hid, -⟩ := expandEntry_some hr
  obtain ⟨hlive, hscore⟩ := expandEntry_score hr
  obtain ⟨hmem, -⟩ := mem_linkedMany hlm
  obtain ⟨a, ha, e, hadm, hfactor⟩ := admissible_of_live heven hlm hlive
  obtain ⟨es, bs, hroute, hlen, hbs⟩ := hx.routes a (hx.frontier a ha)
  have hroute' : Route (db.Admissible cfg o) {a | a ∈ hits.map SearchResult.memoryId} lm.memory.id (es ++ [e])
      (bs ++ [lm.memory.id]) :=
    hroute.follow hadm (fun hanchor => hnew (hy.anchor hanchor)) fun hb => hnew (hsub _ (hbs _ hb))
  refine ⟨fun id => ?_, fun id hmem => ?_, ?_, fun id hmem => ?_⟩
  · rw [map_memoryId_add hid, List.mem_append, List.mem_cons, List.mem_singleton, hy.held id, or_comm]
  · rcases List.mem_append.mp hmem with hmem | hmem
    · exact List.mem_cons_of_mem _ (hy.frontier id hmem)
    · rw [List.mem_singleton.mp hmem]
      exact List.mem_cons_self
  · obtain ⟨added, hscored, hall⟩ := hy.added
    refine ⟨added ++ [r], by rw [hscored, List.append_assoc], fun r' hr' => ?_⟩
    rcases List.mem_append.mp hr' with hr' | hr'
    · exact hall r' hr'
    · rw [List.mem_singleton.mp hr']
      refine ⟨a, e, es, bs ++ [lm.memory.id], ?_, ?_, _, ⟨lm.memory, hmem, hid.symm, hscore⟩, hfactor⟩
      · rwa [hid]
      · rwa [hid]
  · rcases List.mem_cons.mp hmem with rfl | hmem
    · refine ⟨_, _, hroute', ?_, fun b hb => ?_⟩
      · rw [List.length_append, List.length_singleton]
        omega
      · rcases List.mem_append.mp hb with hb | hb
        · exact List.mem_cons_of_mem _ (hsub b (hbs b hb))
        · rw [List.mem_singleton.mp hb]
          exact List.mem_cons_self
    · obtain ⟨es', bs', hroute'', hlen', hbs'⟩ := hy.routes id hmem
      exact ⟨es', bs', hroute'', hlen', fun b hb => List.mem_cons_of_mem _ (hbs' b hb)⟩

theorem Spread.hop {n : ℕ} {x : Expansion ℝ} (heven : db.MergesEvenly cfg o) (hx : Spread cfg queryVec o db hits (n + 1) x) :
    let next := (db.linkedMany userId x.frontier o.minBridgeEdgeWeight).foldl (Expansion.add cfg queryVec o)
      ⟨x.alreadyHave, x.scored, []⟩
    Spread cfg queryVec o db hits n next ∧ (∀ id ∈ x.alreadyHave, id ∈ next.alreadyHave) ∧
      ∀ id ∈ next.alreadyHave, id ∈ x.alreadyHave ∨ id ∈ next.frontier := by
  refine foldl_add_keeps (P := fun y => Spread cfg queryVec o db hits n y ∧ (∀ id ∈ x.alreadyHave, id ∈ y.alreadyHave) ∧
    ∀ id ∈ y.alreadyHave, id ∈ x.alreadyHave ∨ id ∈ y.frontier) (fun y lm r hlm hnew hr hy => ?_) ⟨?_, ?_, ?_⟩
  · obtain ⟨hspread, hsub, hfront⟩ := hy
    refine ⟨hx.add heven hsub hspread hlm hnew hr, fun id hid => List.mem_cons_of_mem _ (hsub id hid), fun id hid => ?_⟩
    rcases List.mem_cons.mp hid with rfl | hid
    · exact .inr (List.mem_append_right _ (List.mem_singleton_self _))
    · exact (hfront id hid).imp_right (List.mem_append_left _)
  · refine ⟨hx.held, by simp, hx.added, fun id hid => ?_⟩
    obtain ⟨es, bs, hroute, hlen, hbs⟩ := hx.routes id hid
    exact ⟨es, bs, hroute, by omega, hbs⟩
  · exact fun _ hid => hid
  · exact fun _ hid => .inl hid

structure Ahead (cfg : LifecycleConfig ℝ) (o : SearchOptions ℝ) (db : Db ℝ) (anchors : List String) (n : ℕ)
    (x : Expansion ℝ) :
    Prop where
  explored : Explored (fun a b => ∃ e, db.Admissible cfg o a e b) {a | a ∈ x.alreadyHave} {a | a ∈ x.frontier}
  near : ∀ a ∈ anchors, ∀ id, Within (fun a b => ∃ e, db.Admissible cfg o a e b) o.graphExpansionHops a id →
    ∃ b ∈ x.alreadyHave, Within (fun a b => ∃ e, db.Admissible cfg o a e b) n b id

theorem Ahead.hop (hg : db.GraphOf userId queryVec.length) (htau : 0 < cfg.associationDecayConstantDays)
    (hmin : 0 ≤ o.minBridgeEdgeWeight) (heven : db.MergesEvenly cfg o) {n : ℕ} {x : Expansion ℝ}
    (hx : Spread cfg queryVec o db hits (n + 1) x) (h : Ahead cfg o db (hits.map SearchResult.memoryId) (n + 1) x) :
    Ahead cfg o db (hits.map SearchResult.memoryId) n ((db.linkedMany userId x.frontier o.minBridgeEdgeWeight).foldl
      (Expansion.add cfg queryVec o) ⟨x.alreadyHave, x.scored, []⟩) := by
  let next := (db.linkedMany userId x.frontier o.minBridgeEdgeWeight).foldl (Expansion.add cfg queryVec o)
    ⟨x.alreadyHave, x.scored, []⟩
  obtain ⟨hnext, hsub, hnew⟩ : Spread cfg queryVec o db hits n next ∧ (∀ id ∈ x.alreadyHave, id ∈ next.alreadyHave) ∧
    ∀ id ∈ next.alreadyHave, id ∈ x.alreadyHave ∨ id ∈ next.frontier := hx.hop heven
  have hexpand : ∀ a ∈ {a | a ∈ x.frontier}, ∀ b, (∃ e, db.Admissible cfg o a e b) → _ := fun a ha b ⟨e, he⟩ =>
    held_of_admissible hg htau hmin heven ha he
  refine ⟨h.explored.expand hsub hnew hnext.frontier hexpand, fun a ha id hwithin => ?_⟩
  obtain ⟨b, hb, hrest⟩ := h.near a ha id hwithin
  exact h.explored.advance hsub hexpand hb hrest

/-- What `expand_via_graph` returns: the anchors, and entries for just the memories that routes of so
many edges lead to. -/
structure Expanded (cfg : LifecycleConfig ℝ) (queryVec : List ℝ) (o : SearchOptions ℝ) (db : Db ℝ)
    (hits added : List (SearchResult ℝ)) :
    Prop where
  routed : ∀ r ∈ added, Routed cfg queryVec o db (hits.map SearchResult.memoryId) r
  short : ∀ r ∈ added, ∃ a ∈ hits.map SearchResult.memoryId,
    Within (fun a b => ∃ e, db.Admissible cfg o a e b) o.graphExpansionHops a r.memoryId
  complete : ∀ a ∈ hits.map SearchResult.memoryId, ∀ id,
    Within (fun a b => ∃ e, db.Admissible cfg o a e b) o.graphExpansionHops a id →
    id ∈ hits.map SearchResult.memoryId ∨ ∃ r ∈ added, r.memoryId = id

theorem expanded_of_spread {n : ℕ} {x : Expansion ℝ} (hx : Spread cfg queryVec o db hits n x)
    (h : Ahead cfg o db (hits.map SearchResult.memoryId) n x) (hend : n = 0 ∨ x.frontier = []) :
    ∃ added, x.scored = hits ++ added ∧ Expanded cfg queryVec o db hits added := by
  obtain ⟨added, hscored, hrouted⟩ := hx.added
  refine ⟨added, hscored, hrouted, fun r hr => ?_, fun a ha id hwithin => ?_⟩
  · have hheld : r.memoryId ∈ x.alreadyHave := by
      rw [hx.held, hscored]
      exact List.mem_map_of_mem (List.mem_append_right _ hr)
    obtain ⟨es, bs, hroute, hlen, -⟩ := hx.routes _ hheld
    obtain ⟨a, ha, hwithin⟩ := hroute.within
    exact ⟨a, ha, hwithin.mono (by omega)⟩
  · have hheld : id ∈ x.alreadyHave := by
      obtain ⟨b, hb, hrest⟩ := h.near a ha id hwithin
      rcases hend with rfl | hend
      · cases hrest
        exact hb
      · have hempty : {a | a ∈ x.frontier} = ∅ := by simp [hend]
        have hexplored := h.explored
        rw [hempty] at hexplored
        exact hexplored.done hb hrest
    rw [hx.held, hscored, List.map_append, List.mem_append] at hheld
    exact hheld.imp_right List.mem_map.mp

theorem wp_expandViaGraph_expanded {calm : Prop} {w : World ℝ} (hw : w.Reads db calm)
    (hg : db.GraphOf userId queryVec.length)
    (htau : 0 < cfg.associationDecayConstantDays) (hmin : 0 ≤ o.minBridgeEdgeWeight) (hlimit : hits.length ≤ max o.limit 5)
    (heven : db.MergesEvenly cfg o) : (expandViaGraph cfg userId queryVec o hits).wp (exec bm25)
      (fun scored _ => ∃ added, scored = hits ++ added ∧ Expanded cfg queryVec o db hits added) (fun _ => ¬ calm) w := by
  let J (n : ℕ) (x : Expansion ℝ) : Prop :=
    Spread cfg queryVec o db hits n x ∧ Ahead cfg o db (hits.map SearchResult.memoryId) n x
  have hstart : J o.graphExpansionHops ⟨hits.map SearchResult.memoryId, hits, hits.map SearchResult.memoryId⟩ := by
    refine ⟨.start, ⟨fun _ ha => ha, fun a ha hnot => absurd ha hnot⟩, fun a ha id hwithin => ⟨a, ha, hwithin⟩⟩
  have htake : (hits.map SearchResult.memoryId).take (max o.limit 5) = hits.map SearchResult.memoryId :=
    List.take_of_length_le (by rwa [List.length_map])
  unfold expandViaGraph
  dsimp only
  rw [htake]
  refine (wp_expandHops bm25 (J := J) (fun n x h => ?_) hstart hw).imp ?_
  · exact ⟨(h.1.hop heven).1, h.2.hop hg htau hmin heven h.1⟩
  rintro scored w' ⟨⟨n, x, ⟨hspread, hahead⟩, hend, rfl⟩, -⟩
  exact expanded_of_spread hspread hahead hend

end

/-! ## Beside `expand_graph` -/

section
variable {bm25 : Bm25 ℝ} {cfg : LifecycleConfig ℝ} {queryVec : List ℝ} {o : SearchOptions ℝ} {userId : String} {db : Db ℝ}
  {hits added : List (SearchResult ℝ)} {reached : List (ExpandedMemory ℝ)}

/-- `expand_graph` from the anchors of a search, over its decayed edges and with its threshold. -/
noncomputable def Db.expandGraph (cfg : LifecycleConfig ℝ) (o : SearchOptions ℝ) (db : Db ℝ)
    (hits : List (SearchResult ℝ)) (fuel : ℕ) :
    Option (List (ExpandedMemory ℝ)) :=
  CognitiveMemory.expandGraph fuel (hits.map fun r => db.memoryIndex r.memoryId) (db.adjacency cfg o.now) o.graphExpansionHops
    ⟨o.minBridgeEdgeWeight⟩

/-- Only one route of admissible edges leads to the memory. -/
def Db.SingleRoute (cfg : LifecycleConfig ℝ) (o : SearchOptions ℝ) (db : Db ℝ) (anchors : List String)
    (id : String) : Prop :=
  ∀ es bs es' bs', Route (db.Admissible cfg o) {a | a ∈ anchors} id es bs →
    Route (db.Admissible cfg o) {a | a ∈ anchors} id es' bs' →
    es = es'

/-- What `expand_graph` reaches: each by a route of the weight it reports, and all within so many
hops. -/
theorem expandGraph_reaches (cfg : LifecycleConfig ℝ) (o : SearchOptions ℝ) (hg : db.GraphOf userId queryVec.length)
    (hhits : ∀ r ∈ hits, r.memoryId ∈ db.memories.map MemoryRow.id)
    {fuel : ℕ} (hfuel : hits.length + db.associations.length ≤ fuel) : ∃ reached, db.expandGraph cfg o hits fuel = some reached ∧
      (∀ y ∈ reached, ∃ id es bs, id ∈ db.memories.map MemoryRow.id ∧ id ∉ hits.map SearchResult.memoryId ∧
        y.index = db.memoryIndex id ∧ Route (db.Admissible cfg o) {a | a ∈ hits.map SearchResult.memoryId} id es bs ∧
        es.length ≤ o.graphExpansionHops ∧ y.combinedWeight = (es.map fun e => e.decayed cfg o.now).prod) ∧
      ∀ a ∈ hits.map SearchResult.memoryId, ∀ id, Within (fun a b => ∃ e, db.Admissible cfg o a e b) o.graphExpansionHops a id →
        id ∉ hits.map SearchResult.memoryId → ∃ y ∈ reached, y.index = db.memoryIndex id := by
  have hanchors : ∀ a ∈ hits.map SearchResult.memoryId, a ∈ db.memories.map MemoryRow.id := by
    intro a ha
    obtain ⟨r, hr, rfl⟩ := List.mem_map.mp ha
    exact hhits r hr
  have hmap : hits.map (fun r => db.memoryIndex r.memoryId) = (hits.map SearchResult.memoryId).map db.memoryIndex := by
    rw [List.map_map]
    rfl
  -- the nodes are targets of edges, so there are no more of them than edges
  have hnodes : ∀ i edges, (db.adjacency cfg o.now).lookup i = some edges → ∀ e ∈ edges,
      e.targetIdIndex ∈ db.associations.map fun e => db.memoryIndex e.targetMemoryId := by
    intro i edges hlookup e' he'
    obtain ⟨l₁, l₂, hsplit, -⟩ := List.lookup_eq_some_iff.mp hlookup
    have hentry : (i, edges) ∈ db.adjacency cfg o.now := hsplit ▸ List.mem_append_right _ List.mem_cons_self
    obtain ⟨m, -, hm⟩ := List.mem_map.mp hentry
    cases hm
    obtain ⟨e, he, rfl⟩ := List.mem_map.mp he'
    exact List.mem_map.mpr ⟨e, (List.mem_filter.mp he).1, rfl⟩
  have hcount : (hits.map fun r => db.memoryIndex r.memoryId).length +
      (db.associations.map fun e => db.memoryIndex e.targetMemoryId).length ≤ fuel := by
    rwa [List.length_map, List.length_map]
  obtain ⟨reached, hrun, hsound, hcomplete⟩ := expandGraph_spec hnodes hcount
  refine ⟨reached, hrun, fun y hy => ?_, fun a ha id hwithin hnew => ?_⟩
  · obtain ⟨hfar, es', bs', hroute, hweight, hlen, hle⟩ := hsound y hy
    rw [hmap] at hfar hroute
    obtain ⟨id, es, bs, hid, hindex, hroute', rfl, -⟩ := route_of_follows hg.keyed hg.targets hanchors hroute
    refine ⟨id, es, bs, hid, fun ha => hfar (hindex ▸ List.mem_map_of_mem ha), hindex, hroute', ?_, ?_⟩
    · rw [List.length_map] at hlen
      omega
    · rw [hweight, List.map_map]
      rfl
  · have ha' : db.memoryIndex a ∈ hits.map fun r => db.memoryIndex r.memoryId := hmap ▸ List.mem_map_of_mem ha
    refine hcomplete _ ha' _ (within_follows hg.keyed hg.targets (hanchors a ha) hwithin) fun hmem => hnew ?_
    rw [hmap] at hmem
    obtain ⟨b, hb, hindex⟩ := List.mem_map.mp hmem
    rwa [(memoryIndex_inj (hanchors b hb)).mp hindex] at hb

theorem added_apart (h : Expanded cfg queryVec o db hits added) {r : SearchResult ℝ} (hr : r ∈ added) :
    r.memoryId ∉ hits.map SearchResult.memoryId ∧ r.memoryId ∈ db.memories.map MemoryRow.id := by
  obtain ⟨a, e, es, bs, hroute, -, factor, ⟨m, hm, hid, -⟩, -⟩ := h.routed r hr
  refine ⟨?_, List.mem_map.mpr ⟨m, hm, hid⟩⟩
  rcases hroute.last with ⟨-, hnil⟩ | ⟨hfar, -⟩
  · exact absurd hnil (by simp)
  · exact hfar

/-- Along the only route, each memory is weighed by the edge that leads to it. -/
theorem factors_of_route (h : Expanded cfg queryVec o db hits added) (hstronger : db.MergesToStronger cfg o)
    (hsingle : ∀ r ∈ added, db.SingleRoute cfg o (hits.map SearchResult.memoryId) r.memoryId) {id : String}
    {es : List (AssociationRow ℝ)} {bs : List String}
      (hroute : Route (db.Admissible cfg o) {a | a ∈ hits.map SearchResult.memoryId} id es bs)
    (hlen : es.length ≤ o.graphExpansionHops) : ∀ e ∈ es, ∃ r ∈ added, r.memoryId = e.targetMemoryId ∧
      r.HasFactor cfg queryVec o db (e.decayed cfg o.now) := by
  induction hroute with
  | start => simp
  | @follow a b e es bs hprefix hedge hfar hnew ih =>
    have hroute : Route (db.Admissible cfg o) {a | a ∈ hits.map SearchResult.memoryId} b (es ++ [e]) (bs ++ [b]) :=
      hprefix.follow hedge hfar hnew
    rw [List.length_append, List.length_singleton] at hlen
    intro e' he'
    rcases List.mem_append.mp he' with he' | he'
    · exact ih (by omega) e' he'
    obtain ⟨a', ha', hwithin⟩ := hroute.within
    rw [List.length_append, List.length_singleton] at hwithin
    obtain ⟨r, hr, rfl⟩ := (h.complete a' ha' b (hwithin.mono hlen)).resolve_left hfar
    obtain ⟨_, e₁, es₁, bs₁, hroute₁, -, factor, hfactor, hweight⟩ := h.routed r hr
    have hsame := hsingle r hr _ _ _ _ hroute hroute₁
    have hlast : e = e₁ := (List.append_inj' hsame rfl).2 |> List.singleton_inj.mp
    rw [List.mem_singleton.mp he']
    refine ⟨r, hr, hedge.2.2.1.symm, ?_⟩
    rw [hlast, ← hweight hstronger]
    exact hfactor

/-- The memories expansion adds are those `expand_graph` reaches where merging edges crosses the
threshold neither way; where merged edges are as strong as the stronger and only one route leads to
each memory, the product along it is made of the factors of the memories it passes. -/
theorem expansion_follows_graph (hg : db.GraphOf userId queryVec.length) (htau : 0 < cfg.associationDecayConstantDays)
    (hmin : 0 ≤ o.minBridgeEdgeWeight) (hhits : ∀ r ∈ hits, r.memoryId ∈ db.memories.map MemoryRow.id)
    (hlimit : hits.length ≤ max o.limit 5) {fuel : ℕ} (hfuel : hits.length + db.associations.length ≤ fuel)
    (heven : db.MergesEvenly cfg o) :
    ∃ reached, db.expandGraph cfg o hits fuel = some reached ∧ ∀ w : World ℝ, w.db = db →
      ((∀ n, w.oracle.sqlFault n = false) → ∃ scored,
        ((expandViaGraph cfg userId queryVec o hits).run (exec bm25) w).1 = .ok scored) ∧
      ∀ scored, ((expandViaGraph cfg userId queryVec o hits).run (exec bm25) w).1 = .ok scored → ∃ added, scored = hits ++ added ∧
        (∀ id, (∃ r ∈ added, r.memoryId = id) ↔ ∃ y ∈ reached, y.index = db.memoryIndex id) ∧
        (db.MergesToStronger cfg o → (∀ r ∈ added, db.SingleRoute cfg o (hits.map SearchResult.memoryId) r.memoryId) →
          ∀ r ∈ added, ∀ y ∈ reached, y.index = db.memoryIndex r.memoryId → ∃ es bs,
            Route (db.Admissible cfg o) {a | a ∈ hits.map SearchResult.memoryId} r.memoryId es bs ∧
            y.combinedWeight = (es.map fun e => e.decayed cfg o.now).prod ∧
            (∀ e ∈ es.getLast?, r.HasFactor cfg queryVec o db (e.decayed cfg o.now)) ∧
            ∀ e ∈ es, ∃ r' ∈ added, r'.memoryId = e.targetMemoryId ∧ r'.HasFactor cfg queryVec o db (e.decayed cfg o.now)) := by
  obtain ⟨reached, hreached, hsound, hcomplete⟩ := expandGraph_reaches cfg o hg hhits hfuel
  refine ⟨reached, hreached, fun w hdb => ⟨fun hcalm => ?_, fun scored hrun => ?_⟩⟩
  · have hw : w.Reads db True := ⟨hdb, fun _ => hcalm⟩
    obtain ⟨scored, hscored, -⟩ := wp_total (wp_expandViaGraph_expanded hw hg htau hmin hlimit heven) fun _ => not_not.mpr trivial
    exact ⟨scored, hscored⟩
  have hw : w.Reads db False := ⟨hdb, False.elim⟩
  obtain ⟨added, rfl, hexpanded⟩ := wp_ok (wp_expandViaGraph_expanded hw hg htau hmin hlimit heven) hrun
  refine ⟨added, rfl, fun id => ⟨?_, ?_⟩, fun hstronger hsingle r hr y hy hindex => ?_⟩
  · rintro ⟨r, hr, rfl⟩
    obtain ⟨a, ha, hwithin⟩ := hexpanded.short r hr
    exact hcomplete a ha _ hwithin (added_apart hexpanded hr).1
  · rintro ⟨y, hy, hindex⟩
    obtain ⟨id', es, bs, hid', hfar, hindex', hroute, hlen, -⟩ := hsound y hy
    obtain rfl : id' = id := (memoryIndex_inj hid').mp (hindex'.symm.trans hindex)
    obtain ⟨a, ha, hwithin⟩ := hroute.within
    exact (hexpanded.complete a ha id' (hwithin.mono hlen)).resolve_left hfar
  · obtain ⟨id, es, bs, hid, -, hindex', hroute, hlen, hweight⟩ := hsound y hy
    obtain rfl : id = r.memoryId := (memoryIndex_inj hid).mp (hindex'.symm.trans hindex)
    refine ⟨es, bs, hroute, hweight, fun e he => ?_, factors_of_route hexpanded hstronger hsingle hroute hlen⟩
    obtain ⟨a, e₁, es₁, bs₁, hroute₁, -, factor, hfactor, hfactor'⟩ := hexpanded.routed r hr
    rw [hsingle r hr _ _ _ _ hroute hroute₁, List.getLast?_concat, Option.mem_some_iff] at he
    rw [← he, ← hfactor' hstronger]
    exact hfactor

end

/-! ### Sugar by way of milk -/

noncomputable def teaToMilk : AssociationRow ℝ := ⟨"mem_tea", "mem_milk", 1 / 2, "explicit", 0, none⟩

noncomputable def milkToSugar : AssociationRow ℝ := ⟨"mem_milk", "mem_sugar", 1 / 2, "explicit", 0, none⟩

noncomputable def breakfast : Db ℝ :=
  let row (id content : String) : MemoryRow ℝ :=
    { MemoryRow.newMinimal id "alice" content "procedural" "fact" 0 with
      embedding := some [1]
      embeddingProvider := some "flat"
      embeddingModel := some "flat-1" }
  { Db.empty with
    memories := [row "mem_tea" "tea", row "mem_milk" "milk", row "mem_sugar" "sugar"]
    associations := [teaToMilk, milkToSugar] }

noncomputable def twoHops : SearchOptions ℝ := ⟨5, false, "flat", "flat-1", 0, false, none, 2, 3 / 10, false, 3⟩

noncomputable def breakfastHit : SearchResult ℝ := ⟨"mem_tea", "tea", "procedural", "fact", 1, .direct⟩

theorem mem_breakfast_edges {e : AssociationRow ℝ} : e ∈ breakfast.associations ↔ e = teaToMilk ∨ e = milkToSugar := by
  simp [breakfast]

theorem breakfast_ids : breakfast.memories.map MemoryRow.id = ["mem_tea", "mem_milk", "mem_sugar"] := rfl

theorem breakfast_graph : breakfast.GraphOf "alice" ([1] : List ℝ).length := by
  refine ⟨?_, fun m hm => ?_, fun e he => ?_⟩
  · show (breakfast.memories.map MemoryRow.id).Nodup
    rw [breakfast_ids]
    decide
  · simp only [breakfast, List.mem_cons, List.not_mem_nil, or_false] at hm
    rcases hm with rfl | rfl | rfl <;> exact ⟨rfl, rfl⟩
  · rw [breakfast_ids]
    rcases mem_breakfast_edges.mp he with rfl | rfl <;> simp [teaToMilk, milkToSugar]

theorem breakfast_merges : breakfast.MergesToStronger .default twoHops := by
  intro e he e' he' htarget _ _
  rcases mem_breakfast_edges.mp he with rfl | rfl <;> rcases mem_breakfast_edges.mp he' with rfl | rfl <;>
    simp [teaToMilk, milkToSugar, AssociationRow.merged, AssociationRow.decayed, maxLast] at htarget ⊢

theorem breakfast_admissible {a b : String} {e : AssociationRow ℝ} : breakfast.Admissible .default twoHops a e b ↔
    a = "mem_tea" ∧ e = teaToMilk ∧ b = "mem_milk" ∨ a = "mem_milk" ∧ e = milkToSugar ∧ b = "mem_sugar" := by
  have hstrong : twoHops.minBridgeEdgeWeight ≤ (1 / 2 : ℝ) := by norm_num [twoHops]
  unfold Db.Admissible
  rw [mem_breakfast_edges]
  constructor
  · rintro ⟨rfl | rfl, rfl, rfl, -⟩
    · exact .inl ⟨rfl, rfl, rfl⟩
    · exact .inr ⟨rfl, rfl, rfl⟩
  · rintro (⟨rfl, rfl, rfl⟩ | ⟨rfl, rfl, rfl⟩)
    · exact ⟨.inl rfl, rfl, rfl, hstrong⟩
    · exact ⟨.inr rfl, rfl, rfl, hstrong⟩

theorem breakfast_route {id : String} {es : List (AssociationRow ℝ)} {bs : List String}
    (h : Route (breakfast.Admissible .default twoHops) {a | a ∈ [breakfastHit].map SearchResult.memoryId} id es bs) :
    id = "mem_tea" ∧ es = [] ∨ id = "mem_milk" ∧ es = [teaToMilk] ∨ id = "mem_sugar" ∧ es = [teaToMilk, milkToSugar] := by
  induction h with
  | start ha => exact .inl ⟨List.mem_singleton.mp ha, rfl⟩
  | follow _ hedge _ _ ih =>
    rcases breakfast_admissible.mp hedge with ⟨rfl, rfl, rfl⟩ | ⟨rfl, rfl, rfl⟩
    · rcases ih with ⟨-, rfl⟩ | ⟨hid, -⟩ | ⟨hid, -⟩
      · exact .inr (.inl ⟨rfl, rfl⟩)
      · exact absurd hid (by decide)
      · exact absurd hid (by decide)
    · rcases ih with ⟨hid, -⟩ | ⟨-, rfl⟩ | ⟨hid, -⟩
      · exact absurd hid (by decide)
      · exact .inr (.inr ⟨rfl, rfl⟩)
      · exact absurd hid (by decide)

theorem breakfast_single (id : String) :
    breakfast.SingleRoute .default twoHops ([breakfastHit].map SearchResult.memoryId) id := by
  intro es bs es' bs' h h'
  rcases breakfast_route h with ⟨rfl, rfl⟩ | ⟨rfl, rfl⟩ | ⟨rfl, rfl⟩ <;>
    rcases breakfast_route h' with ⟨hid, rfl⟩ | ⟨hid, rfl⟩ | ⟨hid, rfl⟩ <;>
    first | rfl | exact absurd hid (by decide)

theorem breakfast_within : Within (fun a b => ∃ e, breakfast.Admissible .default twoHops a e b) 2 "mem_tea" "mem_sugar" := by
  have hmilk : breakfast.Admissible .default twoHops "mem_tea" teaToMilk "mem_milk" :=
      breakfast_admissible.mpr (.inl ⟨rfl, rfl, rfl⟩)
  have hsugar : breakfast.Admissible .default twoHops "mem_milk" milkToSugar "mem_sugar" :=
      breakfast_admissible.mpr (.inr ⟨rfl, rfl, rfl⟩)
  exact .step ⟨_, hmilk⟩ (.step ⟨_, hsugar⟩ (.refl 0 _))

theorem breakfast_sound : (0 : ℝ) < LifecycleConfig.default.associationDecayConstantDays ∧ 0 ≤ twoHops.minBridgeEdgeWeight ∧
    (∀ r ∈ [breakfastHit], r.memoryId ∈ breakfast.memories.map MemoryRow.id) ∧ [breakfastHit].length ≤ max twoHops.limit 5 ∧
    [breakfastHit].length + breakfast.associations.length ≤ 3 := by
  refine ⟨?_, ?_, fun r hr => ?_, ?_, ?_⟩
  · show (0 : ℝ) < 90
    norm_num
  · norm_num [twoHops]
  · rw [List.mem_singleton.mp hr, breakfast_ids]
    exact List.mem_cons_self
  · decide
  · decide

theorem expansion_follows_graph_breakfast :
    ∃ reached, breakfast.expandGraph .default twoHops [breakfastHit] 3 = some reached ∧
    ∃ scored, ((expandViaGraph .default "alice" [1] twoHops [breakfastHit]).run (exec fun _ _ _ => none) ⟨breakfast,
      [], Oracle.quiet⟩).1 =
        .ok scored ∧ ∃ added, scored = [breakfastHit] ++ added ∧
      ∀ id, (∃ r ∈ added, r.memoryId = id) ↔ ∃ y ∈ reached, y.index = breakfast.memoryIndex id := by
  obtain ⟨htau, hmin, hhits, hlimit, hfuel⟩ := breakfast_sound
  obtain ⟨reached, hreached, hruns⟩ :=
    expansion_follows_graph breakfast_graph htau hmin hhits hlimit hfuel breakfast_merges.evenly
  obtain ⟨hends, hsame⟩ := hruns ⟨breakfast, [], Oracle.quiet⟩ rfl
  obtain ⟨scored, hscored⟩ := hends fun _ => rfl
  obtain ⟨added, hadded, hids, -⟩ := hsame scored hscored
  exact ⟨reached, hreached, scored, hscored, added, hadded, hids⟩

/-! ### Where they part -/

noncomputable def teaAndAle : List (SearchResult ℝ) :=
  [⟨"mem_tea", "tea", "semantic", "fact", 1, .direct⟩, ⟨"mem_ale", "ale", "semantic", "fact", 1, .direct⟩]

theorem ridge_graph : ridge.GraphOf "alice" ([1] : List ℝ).length := by
  have hids : ridge.memories.map MemoryRow.id = ["mem_tea", "mem_ale", "mem_milk"] := rfl
  refine ⟨?_, fun m hm => ?_, fun e he => ?_⟩
  · show (ridge.memories.map MemoryRow.id).Nodup
    rw [hids]
    decide
  · simp only [ridge, List.mem_cons, List.not_mem_nil, or_false] at hm
    rcases hm with rfl | rfl | rfl <;> exact ⟨rfl, rfl⟩
  · rw [hids]
    rcases mem_ridge_edges.mp he with rfl | rfl <;> simp

theorem ridge_faded {e : AssociationRow ℝ} (he : e ∈ ridge.associations) :
    e.decayed .default halfYear.now < halfYear.minBridgeEdgeWeight := by
  have hone := Real.exp_one_gt_d9
  have hinv : Real.exp (-1) < 1 / 2 := by
    rw [Real.exp_neg, inv_lt_comm₀ (Real.exp_pos 1) (by norm_num)]
    linarith
  have hpos := Real.exp_pos (-1)
  rcases mem_ridge_edges.mp he with rfl | rfl
  · show 1 * Real.exp (-(daysSince 0 15552000 : ℝ) / 90) < 3 / 10
    have hsplit : (-180 / 90 : ℝ) = -1 + -1 := by norm_num
    rw [daysSince_tea, hsplit, Real.exp_add]
    nlinarith
  · show 3 / 10 * Real.exp (-(daysSince 7776000 15552000 : ℝ) / 90) < 3 / 10
    have hone' : (-90 / 90 : ℝ) = -1 := by norm_num
    rw [daysSince_ale, hone']
    linarith

theorem ridge_adds_milk : ∃ added, ((expandViaGraph .default "alice" [1] halfYear teaAndAle).run (exec fun _ _ _ => none)
    ⟨ridge, [], Oracle.quiet⟩).1 = .ok (teaAndAle ++ added) ∧ ∃ r ∈ added, r.memoryId = "mem_milk" := by
  obtain ⟨lm, hadmits, hid, -⟩ := admits_milk
  obtain ⟨hlm, -⟩ := hadmits.linked
  obtain ⟨r, hr⟩ := Option.isSome_iff_exists.mp hadmits.2.2
  let start : Expansion ℝ := ⟨["mem_tea", "mem_ale"], teaAndAle, ["mem_tea", "mem_ale"]⟩
  let next := (ridge.linkedMany "alice" start.frontier halfYear.minBridgeEdgeWeight).foldl
    (Expansion.add .default [1] halfYear) ⟨start.alreadyHave, start.scored, []⟩
  have hw : (⟨ridge, [], Oracle.quiet⟩ : World ℝ).Reads ridge True := ⟨rfl, fun _ _ => rfl⟩
  have hwalk : (expandViaGraph .default "alice" [1] halfYear teaAndAle).wp (exec fun _ _ _ => none)
      (fun scored _ => scored = next.scored) (fun _ => ¬ True) ⟨ridge, [], Oracle.quiet⟩ := by
    refine (wp_expandHops _ (J := fun n x => n = 1 ∧ x = start ∨ n = 0 ∧ x = next) ?_ (.inl ⟨rfl, rfl⟩) hw).imp ?_
    · rintro n x (⟨hn, rfl⟩ | ⟨hn, -⟩)
      · exact .inr ⟨by omega, rfl⟩
      · omega
    · rintro scored w' ⟨⟨n, x, ⟨rfl, rfl⟩ | ⟨rfl, rfl⟩, hend, rfl⟩, -⟩
      · exact absurd hend (by simp [start])
      · rfl
  obtain ⟨scored, hscored, rfl⟩ := wp_total hwalk fun _ => not_not.mpr trivial
  obtain ⟨added, hadded⟩ : ∃ added, next.scored = teaAndAle ++ added := by
    refine foldl_add_keeps (P := fun y => ∃ added, y.scored = teaAndAle ++ added) (fun y lm r _ _ _ hy => ?_)
        ⟨[], by simp [start]⟩
    obtain ⟨added, hadded⟩ := hy
    exact ⟨added ++ [r], by rw [hadded, List.append_assoc]⟩
  have hheld : lm.memory.id ∈ next.alreadyHave := mem_foldl_add hlm hr
  have hids : (∀ id, id ∈ next.alreadyHave ↔ id ∈ next.scored.map SearchResult.memoryId) ∧ _ :=
    held_foldl_add (fun _ => .rfl) (by decide)
  rw [hids.1, hadded, List.map_append, hid] at hheld
  refine ⟨added, by rw [hscored, hadded], ?_⟩
  rcases List.mem_append.mp hheld with hheld | hheld
  · exact absurd hheld (by simp [teaAndAle])
  · exact List.mem_map.mp hheld

/-- Sugar is worth as much as its memory times the one edge to it, not times both. -/
theorem sugar_factor {r : SearchResult ℝ} (hid : r.memoryId = "mem_sugar") {factor factor' : ℝ}
    (h : r.HasFactor .default [1] twoHops breakfast factor) (h' : r.HasFactor .default [1] twoHops breakfast factor') :
    factor = factor' := by
  have hcomposite : ∀ m ∈ breakfast.memories, m.id = "mem_sugar" →
      compositeScore .default ([1] : List ℝ) twoHops.now (SearchCandidate.ofRow m) = 1 := by
    intro m hm hsugar
    simp only [breakfast, List.mem_cons, List.not_mem_nil, or_false] at hm
    rcases hm with rfl | rfl | rfl
    · exact absurd hsugar (by decide)
    · exact absurd hsugar (by decide)
    · show cosineSimilarity ([1] : List ℝ) [1] * (1 : ℝ) ^ (3 / 10 : ℝ) = 1
      rw [Real.one_rpow, mul_one]
      simp [cosineSimilarity, Elementary.sqrt]
  obtain ⟨m, hm, hmid, hscore⟩ := h
  obtain ⟨m', hm', hmid', hscore'⟩ := h'
  rw [hcomposite m hm (hmid.trans hid), one_mul] at hscore
  rw [hcomposite m' hm' (hmid'.trans hid), one_mul] at hscore'
  exact hscore.symm.trans hscore'

/-- Milk is added by way of two edges neither of which `expand_graph` follows; sugar is weighed by one
edge where `expand_graph` multiplies two. -/
theorem expansion_parts_from_graph :
    (¬ ∀ (bm25 : Bm25 ℝ) (cfg : LifecycleConfig ℝ) (queryVec : List ℝ) (o : SearchOptions ℝ) (userId : String) (w : World ℝ)
      (hits added : List (SearchResult ℝ)) (reached : List (ExpandedMemory ℝ)) (fuel : ℕ), 0 < cfg.associationDecayConstantDays →
      0 ≤ o.minBridgeEdgeWeight → w.db.GraphOf userId queryVec.length →
        (∀ r ∈ hits, r.memoryId ∈ w.db.memories.map MemoryRow.id) →
      hits.length ≤ max o.limit 5 → w.db.expandGraph cfg o hits fuel = some reached →
      ((expandViaGraph cfg userId queryVec o hits).run (exec bm25) w).1 = .ok (hits ++ added) →
      ∀ id, (∃ r ∈ added, r.memoryId = id) ↔ ∃ y ∈ reached, y.index = w.db.memoryIndex id) ∧
    ¬ ∀ (bm25 : Bm25 ℝ) (cfg : LifecycleConfig ℝ) (queryVec : List ℝ) (o : SearchOptions ℝ) (userId : String) (w : World ℝ)
      (hits added : List (SearchResult ℝ)) (reached : List (ExpandedMemory ℝ)) (fuel : ℕ), 0 < cfg.associationDecayConstantDays →
      0 ≤ o.minBridgeEdgeWeight → w.db.GraphOf userId queryVec.length →
        (∀ r ∈ hits, r.memoryId ∈ w.db.memories.map MemoryRow.id) →
      hits.length ≤ max o.limit 5 → w.db.expandGraph cfg o hits fuel = some reached →
      ((expandViaGraph cfg userId queryVec o hits).run (exec bm25) w).1 = .ok (hits ++ added) →
      (∀ r ∈ added, w.db.SingleRoute cfg o (hits.map SearchResult.memoryId) r.memoryId) →
      ∀ r ∈ added, ∀ y ∈ reached, y.index = w.db.memoryIndex r.memoryId → r.HasFactor cfg queryVec o w.db y.combinedWeight := by
  constructor
  · intro h
    -- `expand_graph` compares the decayed weight, and both edges to milk have faded
    have htau : (0 : ℝ) < LifecycleConfig.default.associationDecayConstantDays := breakfast_sound.1
    have hmin : (0 : ℝ) ≤ halfYear.minBridgeEdgeWeight := breakfast_sound.2.1
    have hhits : ∀ r ∈ teaAndAle, r.memoryId ∈ ridge.memories.map MemoryRow.id := by
      intro r hr
      simp only [teaAndAle, List.mem_cons, List.not_mem_nil, or_false] at hr
      rcases hr with rfl | rfl <;> simp [ridge, MemoryRow.newMinimal]
    have hfuel : teaAndAle.length + ridge.associations.length ≤ 4 := by decide
    obtain ⟨reached, hreached, hsound, -⟩ := expandGraph_reaches .default halfYear ridge_graph hhits hfuel
    obtain ⟨added, hrun, r, hr, hid⟩ := ridge_adds_milk
    have hsame := h _ .default [1] halfYear "alice" ⟨ridge, [], Oracle.quiet⟩ teaAndAle added reached 4 htau
        hmin ridge_graph hhits
      (by decide) hreached hrun "mem_milk"
    obtain ⟨y, hy, -⟩ := hsame.mp ⟨r, hr, hid⟩
    obtain ⟨id, es, bs, -, hfar, -, hroute, -⟩ := hsound y hy
    rcases hroute.last with ⟨ha, -⟩ | ⟨-, es', e, a, bs', -, hedge, -⟩
    · exact hfar ha
    · exact absurd hedge.2.2.2 (not_le.mpr (ridge_faded hedge.1))
  · intro h
    -- sugar is two hops away
    obtain ⟨htau, hmin, hhits, hlimit, hfuel⟩ := breakfast_sound
    have hw : (⟨breakfast, [], Oracle.quiet⟩ : World ℝ).Reads breakfast True := ⟨rfl, fun _ _ => rfl⟩
    obtain ⟨reached, hreached, hsound, hcomplete⟩ := expandGraph_reaches .default twoHops breakfast_graph hhits hfuel
    have hwalk : (expandViaGraph .default "alice" [1] twoHops [breakfastHit]).wp (exec fun _ _ _ => none) _ _
        ⟨breakfast, [], Oracle.quiet⟩ :=
      wp_expandViaGraph_expanded hw breakfast_graph htau hmin hlimit breakfast_merges.evenly
    obtain ⟨scored, hrun, added, rfl, hexpanded⟩ := wp_total hwalk fun _ => not_not.mpr trivial
    have hanchor : "mem_tea" ∈ [breakfastHit].map SearchResult.memoryId := List.mem_singleton_self _
    have hfar : "mem_sugar" ∉ [breakfastHit].map SearchResult.memoryId :=
        fun hmem => absurd (List.mem_singleton.mp hmem) (by decide)
    obtain ⟨r, hr, hid⟩ := (hexpanded.complete _ hanchor _ breakfast_within).resolve_left hfar
    obtain ⟨y, hy, hindex⟩ := hcomplete _ hanchor _ breakfast_within hfar
    have hfactor := h _ .default [1] twoHops "alice" ⟨breakfast, [], Oracle.quiet⟩ [breakfastHit] added reached 3 htau
        hmin breakfast_graph
      hhits hlimit hreached hrun (fun r _ => breakfast_single r.memoryId) r hr y hy (hid ▸ hindex)
    obtain ⟨id', es', bs', hmem, -, hindex', hroute', -, hweight⟩ := hsound y hy
    obtain rfl : id' = "mem_sugar" := (memoryIndex_inj hmem).mp (hindex'.symm.trans hindex)
    obtain ⟨_, e, es, bs, hroute, hedge, factor, hlast, hdecayed⟩ := hexpanded.routed r hr
    rw [hid] at hedge
    have hquarter : y.combinedWeight = 1 / 4 := by
      rcases breakfast_route hroute' with ⟨hid', -⟩ | ⟨hid', -⟩ | ⟨-, rfl⟩
      · exact absurd hid' (by decide)
      · exact absurd hid' (by decide)
      · rw [hweight]
        norm_num [teaToMilk, milkToSugar, AssociationRow.decayed]
    have hhalf : factor = 1 / 2 := by
      rw [hdecayed breakfast_merges]
      rcases breakfast_admissible.mp hedge with ⟨-, -, hsugar⟩ | ⟨-, rfl, -⟩
      · exact absurd hsugar (by decide)
      · rfl
    have hsame := sugar_factor hid hlast hfactor
    rw [hhalf, hquarter] at hsame
    norm_num at hsame

end CognitiveMemory
