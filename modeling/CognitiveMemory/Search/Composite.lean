import CognitiveMemory.Search.Ranking

/-! The composite score `relevance * R^α * w` of the results of a search, and the order it gives
them. -/

namespace CognitiveMemory
open Prog Selection

section
variable {F : Type} [Field F] [LinearOrder F] [Elementary F] {bm25 : Bm25 F} {cfg : LifecycleConfig F} {queryVec : List F}
  {o : SearchOptions F} {userId : String} {db : Db F}

namespace Origin

def fused (bm25 : Bm25 F) (org : Origin cfg queryVec o userId db) : F :=
  fusedScore (db.rankLists bm25 userId o (db.denseHits cfg userId queryVec o)) 60 org.row.id

def cosine (org : Origin cfg queryVec o userId db) : F := cosineSimilarity queryVec (SearchCandidate.ofRow org.row).embedding

def relevance (bm25 : Bm25 F) (org : Origin cfg queryVec o userId db) : F :=
  if o.hybrid then org.fused bm25 else org.cosine

def retention (org : Origin cfg queryVec o userId db) : F :=
  computeRetention (candidateToState (SearchCandidate.ofRow org.row) cfg) o.now cfg

def decay (org : Origin cfg queryVec o userId db) : F := Elementary.powf org.retention cfg.retrievalScoreExponent

def Composite (bm25 : Bm25 F) (org : Origin cfg queryVec o userId db) : Prop :=
  org.score bm25 = org.relevance bm25 * org.decay * org.weight

/-- The search is dense; or the candidate has not decayed; or the linked memory scores zero, or ranks
as it is near. -/
def Undecayed (bm25 : Bm25 F) (org : Origin cfg queryVec o userId db) : Prop :=
  o.hybrid = false ∨
    match org.source with
    | .direct => org.decay = 1
    | .graphExpanded => org.cosine = org.fused bm25 ∨ org.decay * org.weight = 0

theorem fused_pos [IsStrictOrderedRing F] (bm25 : Bm25 F) (m : MemoryRow F) (h : db.Candidate userId o m) :
    0 < (direct m h : Origin cfg queryVec o userId db).fused bm25 := by
  have hmem : m.id ∈ (db.denseHits cfg userId queryVec o).map SearchResult.memoryId := by
    refine List.mem_map.mpr ⟨(SearchCandidate.ofRow m).result
      (compositeScore cfg queryVec o.now (SearchCandidate.ofRow m)) .direct, mem_sortDesc.mpr ?_, rfl⟩
    exact List.mem_map_of_mem (List.mem_map_of_mem (List.mem_filter.mpr h))
  obtain ⟨hit, hhit, hid⟩ := mem_rankedHits.mpr hmem
  exact fusedScore_pos ⟨hit, by simp [Db.rankLists, hhit], hid⟩

theorem composite_iff_undecayed [IsStrictOrderedRing F] (bm25 : Bm25 F) (org : Origin cfg queryVec o userId db) :
    org.Composite bm25 ↔ org.Undecayed bm25 := by
  unfold Composite Undecayed relevance
  cases hmode : o.hybrid with
  | false =>
    refine iff_of_true ?_ (.inl rfl)
    cases org with
    | direct m h => simp [score, hmode, weight, cosine, decay, retention, row, compositeScore]
    | expanded sources lm h hlive hdim => rfl
  | true =>
    cases org with
    | direct m h =>
      have hpos : 0 < (direct m h : Origin cfg queryVec o userId db).fused bm25 := fused_pos bm25 m h
      have hscore : (direct m h : Origin cfg queryVec o userId db).score bm25 = (direct m h).fused bm25 := if_pos hmode
      rw [hscore]
      simp [weight, source, hpos.ne']
    | expanded sources lm h hlive hdim =>
      have hscore : (expanded sources lm h hlive hdim).score bm25 = (expanded sources lm h hlive hdim).cosine *
          ((expanded sources lm h hlive hdim).decay * (expanded sources lm h hlive hdim).weight) := mul_assoc _ _ _
      rw [hscore]
      simp [source, mul_assoc]

end Origin

/-- For every store, query, config and mode: a result obeys the law if and only if fusion has not cost
it its decay, or its nearness. -/
theorem composite_iff [IsStrictOrderedRing F] {w : World F} (hk : w.db.Keyed) {results : List (SearchResult F)}
    (hrun : ((search cfg userId queryVec o).run (exec bm25) w).1 = .ok results) {r : SearchResult F} (hr : r ∈ results) :
    ∃ org : Origin cfg queryVec o userId w.db, r = org.result bm25 ∧
      (r.score = org.relevance bm25 * org.decay * org.weight ↔ org.Undecayed bm25) := by
  obtain ⟨ranked, hranking, rfl⟩ := run_search rfl hk hrun (List.ne_nil_of_mem hr)
  obtain ⟨org, rfl⟩ := hranking.origin r (List.mem_of_mem_take hr)
  exact ⟨org, rfl, org.composite_iff_undecayed bm25⟩

end

/-! ### Tea of yesterday -/

noncomputable def teaOf (id : String) (last : Int) (x : ℝ) : MemoryRow ℝ :=
  { MemoryRow.newMinimal id "alice" "tea" "semantic" "fact" last with
    embedding := some [x]
    embeddingProvider := some "flat"
    embeddingModel := some "flat-1" }

theorem retention_teaOf (id : String) (last : Int) (x : ℝ) :
    computeRetention (candidateToState (SearchCandidate.ofRow (teaOf id last x)) .default) 86400 .default =
      Real.exp (-daysSince last 86400 / 24) := by
  have hrate : max (1 / 10 : ℝ) (1 / 100) * min (1 + 0 * 2) 3 * 240 = 24 := by norm_num
  show max (Real.exp (-daysSince last 86400 / (max (1 / 10 : ℝ) (1 / 100) * min (1 + 0 * 2) 3 * 240))) 0 = _
  rw [hrate, max_eq_left (Real.exp_pos _).le]

theorem fades_in_a_day : Real.exp (-daysSince 0 86400 / 24) < 1 := by
  rw [Real.exp_lt_one_iff, show (daysSince 0 86400 : ℝ) = 1 by norm_num [daysSince]]
  norm_num

noncomputable def fadedTea : Db ℝ := { Db.empty with memories := [teaOf "mem_tea" 0 1] }

noncomputable def lateSearch : SearchOptions ℝ := ⟨5, false, "flat", "flat-1", 86400, true, some "tea", 0, 3 / 10, false, 3⟩

theorem search_fadedTea : ((search .default "alice" [1] lateSearch).run (exec fun _ _ _ => none)
    ⟨fadedTea, [], Oracle.quiet⟩).1 =
      .ok [⟨"mem_tea", "tea", "semantic", "fact", 0 + 1 / (((60 : ℕ) : ℝ) + ((0 : ℕ) : ℝ) + 1), .direct⟩] := by
  with_unfolding_all rfl

theorem composite_fadedTea : ∃ org : Origin .default [1] lateSearch "alice" fadedTea,
    (0 + 1 / (((60 : ℕ) : ℝ) + ((0 : ℕ) : ℝ) + 1) = org.relevance (fun _ _ _ => none) * org.decay * org.weight ↔
      org.Undecayed fun _ _ _ => none) := by
  have hk : fadedTea.Keyed := by
    unfold Db.Keyed
    decide
  obtain ⟨org, -, hiff⟩ := composite_iff (w := ⟨fadedTea, [], Oracle.quiet⟩) hk search_fadedTea List.mem_cons_self
  exact ⟨org, hiff⟩

/-- Tea of yesterday, found by a hybrid search, scores as if it were of today. -/
theorem fusion_drops_decay : ¬ ∀ (bm25 : Bm25 ℝ) (cfg : LifecycleConfig ℝ) (queryVec : List ℝ) (o : SearchOptions ℝ)
    (userId : String) (w : World ℝ) (results : List (SearchResult ℝ)) (r : SearchResult ℝ), w.db.Keyed →
    ((search cfg userId queryVec o).run (exec bm25) w).1 = .ok results → r ∈ results →
    ∃ org : Origin cfg queryVec o userId w.db, r = org.result bm25 ∧ r.score = org.relevance bm25 * org.decay * org.weight := by
  intro h
  have hk : fadedTea.Keyed := by
    unfold Db.Keyed
    decide
  obtain ⟨org, hr, hlaw⟩ := h (fun _ _ _ => none) .default [1] lateSearch "alice" ⟨fadedTea, [], Oracle.quiet⟩ _ _ hk
    search_fadedTea List.mem_cons_self
  rw [hr] at hlaw
  have hundecayed := (org.composite_iff_undecayed _).mp hlaw
  have hsource : org.source = .direct := (congrArg SearchResult.source hr).symm
  cases org with
  | expanded => exact nomatch hsource
  | direct m hm =>
    obtain rfl : m = teaOf "mem_tea" 0 1 := List.mem_singleton.mp hm.1
    have hone : Real.exp (-daysSince 0 86400 / 24) ^ (3 / 10 : ℝ) = 1 := by
      rw [← retention_teaOf "mem_tea" 0 1]
      exact hundecayed.resolve_left nofun
    exact absurd hone (Real.rpow_lt_one (Real.exp_pos _).le fades_in_a_day (by norm_num)).ne

/-! ## One scale -/

section
variable {F : Type} [Field F] [LinearOrder F] [Elementary F] {bm25 : Bm25 F} {cfg : LifecycleConfig F} {queryVec : List F}
  {o : SearchOptions F} {userId : String} {db : Db F}

theorem Ranking.ranked_above {ranked : List (SearchResult F)} (h : Ranking bm25 cfg userId queryVec o db ranked)
    {d e : SearchResult F} (hd : d ∈ ranked) (he : e ∈ ranked) (hdirect : d.source = .direct)
    (hexpanded : e.source = .graphExpanded) : [e, d].Sublist ranked ↔ d.score < e.score := by
  constructor
  · intro hsub
    obtain ⟨-, hstable⟩ := List.pairwise_iff_forall_sublist.mp h.sorted hsub
    exact hstable hexpanded hdirect
  · intro hlt
    have hne : e ≠ d := by
      rintro rfl
      exact absurd hlt (lt_irrefl _)
    rcases sublist_of_mem hne he hd with hsub | hsub
    · exact hsub
    · obtain ⟨hle, -⟩ := List.pairwise_iff_forall_sublist.mp h.sorted hsub
      exact absurd hlt (not_lt.mpr hle)

/-- In a hybrid search: a candidate whose dense composite is at least that of a linked memory goes
before it if and only if its fused score is, too; unless the linked memory's is greater anyway. -/
theorem one_scale_iff {w : World F} (hk : w.db.Keyed) (hhybrid : o.hybrid = true) {ranked : List (SearchResult F)}
    (hrun : ((rankAll cfg userId queryVec o).run (exec bm25) w).1 = .ok ranked) {d e : SearchResult F} (hd : d ∈ ranked)
    (he : e ∈ ranked) (hdirect : d.source = .direct) (hexpanded : e.source = .graphExpanded) :
    ∃ dOrg eOrg : Origin cfg queryVec o userId w.db, d = dOrg.result bm25 ∧ e = eOrg.result bm25 ∧
      ((eOrg.cosine * eOrg.decay * eOrg.weight ≤ dOrg.cosine * dOrg.decay → ¬ [e, d].Sublist ranked) ↔
        (dOrg.cosine * dOrg.decay < eOrg.cosine * eOrg.decay * eOrg.weight ∨
          eOrg.cosine * eOrg.decay * eOrg.weight ≤ dOrg.fused bm25)) := by
  have hranking := run_rankAll rfl hk hrun
  obtain ⟨dOrg, rfl⟩ := hranking.origin d hd
  obtain ⟨eOrg, rfl⟩ := hranking.origin e he
  refine ⟨dOrg, eOrg, rfl, rfl, ?_⟩
  rw [hranking.ranked_above hd he hdirect hexpanded]
  have hdscore : (dOrg.result bm25).score = dOrg.fused bm25 := by
    cases dOrg with
    | direct m h => exact if_pos hhybrid
    | expanded => exact nomatch hdirect
  have hescore : (eOrg.result bm25).score = eOrg.cosine * eOrg.decay * eOrg.weight := by
    cases eOrg with
    | direct => exact nomatch hexpanded
    | expanded => rfl
  rw [hdscore, hescore, not_lt, ← not_le, imp_iff_not_or]

/-! ## The order of retentions -/

/-- `a` comes after `b` in the list, and not because of a tie. -/
def StrictlyBelow (ranked : List (SearchResult F)) (a b : SearchResult F) : Prop :=
  [b, a].Sublist ranked ∧ a.score < b.score

theorem Ranking.strictlyBelow_iff {ranked : List (SearchResult F)} (h : Ranking bm25 cfg userId queryVec o db ranked)
    {a b : SearchResult F} (ha : a ∈ ranked) (hb : b ∈ ranked) : StrictlyBelow ranked a b ↔ a.score < b.score := by
  refine ⟨And.right, fun hlt => ⟨?_, hlt⟩⟩
  have hne : b ≠ a := by
    rintro rfl
    exact absurd hlt (lt_irrefl _)
  rcases sublist_of_mem hne hb ha with hsub | hsub
  · exact hsub
  · obtain ⟨hle, -⟩ := List.pairwise_iff_forall_sublist.mp h.sorted hsub
    exact absurd hlt (not_lt.mpr hle)

end

section
variable {bm25 : Bm25 ℝ} {cfg : LifecycleConfig ℝ} {queryVec : List ℝ} {o : SearchOptions ℝ} {userId : String} {db : Db ℝ}

namespace Origin

theorem direct_score (bm25 : Bm25 ℝ) {org : Origin cfg queryVec o userId db} (hsource : org.source = .direct)
    (hdense : o.hybrid = false) : org.score bm25 = org.cosine * org.decay := by
  cases org with
  | direct m h => exact if_neg (by simp [hdense])
  | expanded => exact nomatch hsource

theorem expanded_score (bm25 : Bm25 ℝ) {org : Origin cfg queryVec o userId db} (hsource : org.source = .graphExpanded) :
    org.score bm25 = org.cosine * org.decay * org.weight := by
  cases org with
  | direct => exact nomatch hsource
  | expanded => rfl

theorem decay_lt_decay (halpha : 0 < cfg.retrievalScoreExponent) {org org' : Origin cfg queryVec o userId db}
    (h : 0 ≤ org'.retention) (hless : org'.retention < org.retention) : org'.decay < org.decay :=
  Real.rpow_lt_rpow h hless halpha

theorem decay_pos_iff (halpha : 0 < cfg.retrievalScoreExponent) {org : Origin cfg queryVec o userId db}
    (h : 0 ≤ org.retention) : 0 < org.decay ↔ org.retention ≠ 0 := by
  constructor
  · rintro hpos hzero
    have hdecay : org.decay = (0 : ℝ) ^ cfg.retrievalScoreExponent := congrArg (· ^ cfg.retrievalScoreExponent) hzero
    rw [hdecay, Real.zero_rpow halpha.ne'] at hpos
    exact absurd hpos (lt_irrefl 0)
  · exact fun hne => Real.rpow_pos_of_pos (h.lt_of_ne hne.symm) _

end Origin

/-- Of two candidates of a dense search with one cosine, the one with the higher retention is never
strictly below if and only if the cosine is not negative; the same holds of two linked memories with
one cosine and retention and the weights that brought them in, unless their retention is zero. -/
theorem retention_respected_iff {w : World ℝ} (hk : w.db.Keyed) (halpha : 0 < cfg.retrievalScoreExponent)
    {ranked : List (SearchResult ℝ)} (hrun : ((rankAll cfg userId queryVec o).run (exec bm25) w).1 = .ok ranked) :
    (o.hybrid = false → ∀ org org' : Origin cfg queryVec o userId w.db, org.result bm25 ∈ ranked → org'.result bm25 ∈ ranked →
      org.source = .direct → org'.source = .direct → org.cosine = org'.cosine → 0 ≤ org'.retention →
      org'.retention < org.retention →
      (¬ StrictlyBelow ranked (org.result bm25) (org'.result bm25) ↔ 0 ≤ org.cosine)) ∧
    ∀ org org' : Origin cfg queryVec o userId w.db, org.result bm25 ∈ ranked → org'.result bm25 ∈ ranked →
      org.source = .graphExpanded → org'.source = .graphExpanded → org.cosine = org'.cosine →
      org.retention = org'.retention → 0 ≤ org.retention → org'.weight < org.weight →
      (¬ StrictlyBelow ranked (org.result bm25) (org'.result bm25) ↔ 0 ≤ org.cosine ∨ org.retention = 0) := by
  have hranking := run_rankAll rfl hk hrun
  constructor
  · intro hdense org org' hmem hmem' hsource hsource' hcosine hpos hless
    have hdecay := Origin.decay_lt_decay halpha hpos hless
    rw [hranking.strictlyBelow_iff hmem hmem', Origin.result_score, Origin.result_score, Origin.direct_score bm25 hsource hdense,
      Origin.direct_score bm25 hsource' hdense, ← hcosine, not_lt]
    constructor
    · intro hle
      by_contra hneg
      exact absurd hle (not_le.mpr (mul_lt_mul_of_neg_left hdecay (not_le.mp hneg)))
    · exact fun hnonneg => mul_le_mul_of_nonneg_left hdecay.le hnonneg
  · intro org org' hmem hmem' hsource hsource' hcosine hretention hpos hless
    have hdecay : org'.decay = org.decay := congrArg (· ^ cfg.retrievalScoreExponent) hretention.symm
    rw [hranking.strictlyBelow_iff hmem hmem', Origin.result_score, Origin.result_score, Origin.expanded_score bm25 hsource,
      Origin.expanded_score bm25 hsource', ← hcosine, hdecay, not_lt]
    by_cases hzero : org.retention = 0
    · have hnone : org.decay = 0 := by
        refine le_antisymm (not_lt.mp fun hpos' => ?_) (Real.rpow_nonneg hpos _)
        exact (Origin.decay_pos_iff halpha hpos).mp hpos' hzero
      simp [hnone, hzero]
    · have hfactor : 0 < org.decay := (Origin.decay_pos_iff halpha hpos).mpr hzero
      rw [or_iff_left hzero]
      constructor
      · intro hle
        by_contra hneg
        exact absurd hle (not_le.mpr (mul_lt_mul_of_neg_left hless (mul_neg_of_neg_of_pos (not_le.mp hneg) hfactor)))
      · exact fun hnonneg => mul_le_mul_of_nonneg_left hless.le (mul_nonneg hnonneg hfactor.le)

end

/-! ### What is far from the query -/

noncomputable def bitterTeas : Db ℝ := { Db.empty with memories := [teaOf "mem_new" 86400 (-1), teaOf "mem_old" 0 (-1)] }

noncomputable def denseSearch : SearchOptions ℝ := ⟨5, false, "flat", "flat-1", 86400, false, none, 0, 3 / 10, false, 3⟩

noncomputable def newTea : Origin .default [1] denseSearch "alice" bitterTeas :=
  .direct (teaOf "mem_new" 86400 (-1)) ⟨List.mem_cons_self, rfl⟩

noncomputable def oldTea : Origin .default [1] denseSearch "alice" bitterTeas :=
  .direct (teaOf "mem_old" 0 (-1)) ⟨List.mem_cons_of_mem _ List.mem_cons_self, rfl⟩

theorem oldTea_fades : 0 ≤ oldTea.retention ∧ oldTea.retention < newTea.retention := by
  have hold : oldTea.retention = Real.exp (-daysSince 0 86400 / 24) := retention_teaOf "mem_old" 0 (-1)
  have hnew : newTea.retention = Real.exp (-daysSince 86400 86400 / 24) := retention_teaOf "mem_new" 86400 (-1)
  have hone : Real.exp (-daysSince 86400 86400 / 24) = 1 := by
    rw [show (daysSince 86400 86400 : ℝ) = 0 by norm_num [daysSince]]
    norm_num
  rw [hold, hnew, hone]
  exact ⟨(Real.exp_pos _).le, fades_in_a_day⟩

theorem ranked_bitterTeas : ∃ ranked, ((rankAll .default "alice" [1] denseSearch).run (exec fun _ _ _ => none)
    ⟨bitterTeas, [], Oracle.quiet⟩).1 = .ok ranked ∧ bitterTeas.Keyed ∧
      newTea.result (fun _ _ _ => none) ∈ ranked ∧ oldTea.result (fun _ _ _ => none) ∈ ranked := by
  have hk : bitterTeas.Keyed := by
    unfold Db.Keyed
    decide
  have hfair : Fair bitterTeas "alice" [1] denseSearch := by
    refine ⟨fun c hc => ?_, nofun⟩
    rcases List.mem_cons.mp hc.1 with rfl | hc'
    · rfl
    · rw [List.mem_singleton.mp hc']
      rfl
  let bm25 : Bm25 ℝ := fun _ _ _ => none
  obtain ⟨ranked, hrun⟩ : ∃ ranked, ((rankAll .default "alice" [1] denseSearch).run (exec bm25)
      ⟨bitterTeas, [], Oracle.quiet⟩).1 = .ok ranked := exists_run_rankAll ⟨rfl, fun _ _ => rfl⟩ hk hfair
  have hranking := run_rankAll rfl hk hrun
  exact ⟨ranked, hrun, hk, hranking.all _ _, hranking.all _ _⟩

theorem retention_respected_bitterTeas : ∃ ranked,
    (¬ StrictlyBelow ranked (newTea.result fun _ _ _ => none) (oldTea.result fun _ _ _ => none) ↔ 0 ≤ newTea.cosine) := by
  obtain ⟨ranked, hrun, hk, hnew, hold⟩ := ranked_bitterTeas
  have halpha : (0 : ℝ) < 3 / 10 := by norm_num
  exact ⟨ranked, (retention_respected_iff hk halpha hrun).1 rfl newTea oldTea hnew hold rfl rfl rfl oldTea_fades.1 oldTea_fades.2⟩

/-- Of two teas equally far from the query, yesterday's goes before today's. -/
theorem faded_goes_first : ¬ ∀ (bm25 : Bm25 ℝ) (cfg : LifecycleConfig ℝ) (queryVec : List ℝ) (o : SearchOptions ℝ)
    (userId : String) (w : World ℝ) (ranked : List (SearchResult ℝ)) (org org' : Origin cfg queryVec o userId w.db),
    w.db.Keyed → 0 < cfg.retrievalScoreExponent → ((rankAll cfg userId queryVec o).run (exec bm25) w).1 = .ok ranked →
    o.hybrid = false → org.result bm25 ∈ ranked → org'.result bm25 ∈ ranked → org.source = .direct →
    org'.source = .direct → org.cosine = org'.cosine → 0 ≤ org'.retention → org'.retention < org.retention →
    ¬ StrictlyBelow ranked (org.result bm25) (org'.result bm25) := by
  intro h
  obtain ⟨ranked, hrun, hk, hnew, hold⟩ := ranked_bitterTeas
  have halpha : (0 : ℝ) < 3 / 10 := by norm_num
  refine h _ .default [1] denseSearch "alice" ⟨bitterTeas, [], Oracle.quiet⟩ ranked newTea oldTea hk halpha hrun rfl hnew hold
    rfl rfl rfl oldTea_fades.1 oldTea_fades.2 ?_
  have hranking := run_rankAll rfl hk hrun
  have hcosine : ∀ org : Origin .default [1] denseSearch "alice" bitterTeas,
      (SearchCandidate.ofRow org.row).embedding = [-1] → org.cosine = -1 := by
    intro org hvec
    rw [Origin.cosine, hvec]
    show (if (0 : ℝ) + 1 * 1 = 0 ∨ (0 : ℝ) + -1 * -1 = 0 then (0 : ℝ) else
      (0 + 1 * -1) / (Real.sqrt (0 + 1 * 1) * Real.sqrt (0 + -1 * -1))) = -1
    norm_num
  rw [hranking.strictlyBelow_iff hnew hold, Origin.result_score, Origin.result_score, Origin.direct_score _ rfl rfl,
    Origin.direct_score _ rfl rfl, hcosine newTea rfl, hcosine oldTea rfl]
  exact mul_lt_mul_of_neg_left (Origin.decay_lt_decay halpha oldTea_fades.1 oldTea_fades.2) (by norm_num)

/-! ### Tea, and the milk it leads to -/

def teaRow : MemoryRow ℚ :=
  { MemoryRow.newMinimal "mem_tea" "alice" "tea" "semantic" "fact" 0 with
    embedding := some [1]
    embeddingProvider := some "flat"
    embeddingModel := some "flat-1" }

def coldMilkRow : MemoryRow ℚ := { teaRow with id := "mem_milk", content := "milk", isCold := true, coldSince := some 0 }

def pantry : Db ℚ :=
  { Db.empty with
    memories := [teaRow, coldMilkRow]
    associations := [⟨"mem_tea", "mem_milk", 1 / 2, "explicit", 0, some 0⟩] }

def hybridSearch : SearchOptions ℚ := ⟨5, false, "flat", "flat-1", 0, true, some "tea", 1, 3 / 10, false, 3⟩

def teaHit : SearchResult ℚ := ⟨"mem_tea", "tea", "semantic", "fact", 1 / 61, .direct⟩

def milkHit : SearchResult ℚ := ⟨"mem_milk", "milk", "semantic", "fact", 1 / 2, .graphExpanded⟩

theorem rankAll_pantry : ((rankAll .default "alice" [1] hybridSearch).run (exec fun _ _ _ => none)
    ⟨pantry, [], Oracle.quiet⟩).1 = .ok [milkHit, teaHit] := by
  decide +kernel

theorem pantry_keyed : pantry.Keyed := by
  unfold Db.Keyed
  decide

theorem coldMilk_linked : (⟨coldMilkRow, 1 / 2, some 0⟩ : LinkedMemory ℚ) ∈
    pantry.linkedMany "alice" ["mem_tea"] hybridSearch.minBridgeEdgeWeight := by
  have hrows : pantry.linkedMany "alice" ["mem_tea"] hybridSearch.minBridgeEdgeWeight = [⟨coldMilkRow, 1 / 2, some 0⟩] := by
    with_unfolding_all rfl
  rw [hrows]
  exact List.mem_singleton.mpr rfl

def teaOrigin : Origin .default [1] hybridSearch "alice" pantry := .direct teaRow ⟨by decide +kernel, by decide +kernel⟩

def milkOrigin : Origin .default [1] hybridSearch "alice" pantry :=
  .expanded ["mem_tea"] ⟨coldMilkRow, 1 / 2, some 0⟩ coldMilk_linked (by decide +kernel) rfl

theorem one_scale_pantry : ∃ dOrg eOrg : Origin .default [1] hybridSearch "alice" pantry,
    ((eOrg.cosine * eOrg.decay * eOrg.weight ≤ dOrg.cosine * dOrg.decay → ¬ [milkHit, teaHit].Sublist [milkHit, teaHit]) ↔
      (dOrg.cosine * dOrg.decay < eOrg.cosine * eOrg.decay * eOrg.weight ∨
        eOrg.cosine * eOrg.decay * eOrg.weight ≤ dOrg.fused fun _ _ _ => none)) := by
  have htea : teaHit ∈ [milkHit, teaHit] := List.mem_cons_of_mem _ List.mem_cons_self
  have hmilk : milkHit ∈ [milkHit, teaHit] := List.mem_cons_self
  obtain ⟨dOrg, eOrg, -, -, hiff⟩ := one_scale_iff (w := ⟨pantry, [], Oracle.quiet⟩) pantry_keyed rfl
    rankAll_pantry htea hmilk rfl rfl
  exact ⟨dOrg, eOrg, hiff⟩

/-- Tea is as near as can be, and the milk half as strong goes before it. -/
theorem milk_before_tea : ¬ ∀ (bm25 : Bm25 ℚ) (cfg : LifecycleConfig ℚ) (queryVec : List ℚ) (o : SearchOptions ℚ)
    (userId : String) (w : World ℚ) (ranked : List (SearchResult ℚ)) (dOrg eOrg : Origin cfg queryVec o userId w.db),
    w.db.Keyed → o.hybrid = true → ((rankAll cfg userId queryVec o).run (exec bm25) w).1 = .ok ranked →
    dOrg.result bm25 ∈ ranked → eOrg.result bm25 ∈ ranked → dOrg.source = .direct → eOrg.source = .graphExpanded →
    eOrg.cosine * eOrg.decay * eOrg.weight ≤ dOrg.cosine * dOrg.decay →
    ¬ [eOrg.result bm25, dOrg.result bm25].Sublist ranked := by
  intro h
  have htea : teaOrigin.result (fun _ _ _ => none) = teaHit := by decide +kernel
  have hmilk : milkOrigin.result (fun _ _ _ => none) = milkHit := by decide +kernel
  refine h (fun _ _ _ => none) .default [1] hybridSearch "alice" ⟨pantry, [], Oracle.quiet⟩ [milkHit, teaHit] teaOrigin
    milkOrigin pantry_keyed rfl rankAll_pantry ?_ ?_ rfl rfl (by decide +kernel) ?_
  · rw [htea]
    exact List.mem_cons_of_mem _ List.mem_cons_self
  · rw [hmilk]
    exact List.mem_cons_self
  · rw [htea, hmilk]

end CognitiveMemory
