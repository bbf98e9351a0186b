import CognitiveMemory.Search.Rounded

/-! The shape of the list a search returns: what a score that is no number does to its order. -/

namespace CognitiveMemory.Rounded
open Floating
variable {F N : Type} {A : Floating F N}

theorem join_score {p : String × N} {r : SearchResult N} (h : join A scored p = some r) : r.score = A.single p.2 := by
  obtain ⟨r', -, rfl⟩ := Option.map_eq_some_iff.mp h
  rfl

/-- The hits before expansion: the dense ones, or these with fused scores, which are numbers. -/
structure Hits (A : Floating F N) (o : SearchOptions F) (scored hits : List (SearchResult N)) : Prop where
  same : o.hybrid = false → hits = scored
  fused : o.hybrid = true → A.Numbers SearchResult.score hits
  perm : ∃ score : SearchResult N → N, hits.Perm (scored.map fun r => if o.hybrid then { r with score := score r } else r)

theorem Hits.ids {o : SearchOptions F} {scored hits : List (SearchResult N)} (h : Hits A o scored hits) :
    (hits.map SearchResult.memoryId).Perm (scored.map SearchResult.memoryId) := by
  obtain ⟨score, hperm⟩ := h.perm
  refine (hperm.map SearchResult.memoryId).trans (.of_eq ?_)
  rw [List.map_map]
  refine List.map_congr_left fun r _ => ?_
  simp only [Function.comp_apply]
  split <;> rfl

/-- The walk began with these hits; it holds each memory once, and only the user's. -/
structure Walked (db : Db F) (userId : String) (hits : List (SearchResult N)) (x : Expansion N) : Prop where
  hits : ∃ added, x.scored = hits ++ added
  held : ∀ id, id ∈ x.alreadyHave ↔ id ∈ x.scored.map SearchResult.memoryId
  once : (x.scored.map SearchResult.memoryId).Nodup
  owned : ∀ r ∈ x.scored, ∃ m ∈ db.memories, m.id = r.memoryId ∧ m.userId = userId

theorem expandEntry_memoryId [Field F] {cfg : LifecycleConfig F} {queryVec : List F} {o : SearchOptions F}
    {lm : LinkedMemory F} {r : SearchResult N} (h : expandEntry A cfg queryVec o lm = some r) :
    r.memoryId = lm.memory.id := by
  unfold expandEntry at h
  split at h
  · cases h
  split at h
  · cases h
  split at h
  · cases h
  cases h
  rfl

theorem Walked.expandWith [Field F] {cfg : LifecycleConfig F} {userId : String} {queryVec : List F}
    {o : SearchOptions F} {db : Db F} {hits : List (SearchResult N)} {x : Expansion N} (h : Walked db userId hits x)
    {lm : LinkedMemory F} (hmem : lm.memory ∈ db.memories) (huser : lm.memory.userId = userId) :
    Walked db userId hits (Rounded.expandWith A cfg queryVec o x lm) := by
  unfold Rounded.expandWith
  split
  · exact h
  rename_i hnew
  split
  · exact h
  rename_i r hr
  have hid := expandEntry_memoryId hr
  have hnew : lm.memory.id ∉ x.scored.map SearchResult.memoryId := fun hmem => hnew (by simpa using (h.held _).mpr hmem)
  have hids : (x.scored ++ [r]).map SearchResult.memoryId = x.scored.map SearchResult.memoryId ++ [lm.memory.id] := by
    rw [List.map_append, List.map_singleton, hid]
  obtain ⟨added, hadded⟩ := h.hits
  refine ⟨⟨added ++ [r], ?_⟩, fun id => ?_, ?_, fun r' hr' => ?_⟩
  · show x.scored ++ [r] = hits ++ (added ++ [r])
    rw [hadded, List.append_assoc]
  · rw [hids, List.mem_append, List.mem_cons, List.mem_singleton, h.held id, or_comm]
  · rw [hids]
    exact h.once.append (List.nodup_singleton _) (List.disjoint_singleton.mpr hnew)
  · rcases List.mem_append.mp hr' with hr' | hr'
    · exact h.owned r' hr'
    · rw [List.mem_singleton.mp hr', hid]
      exact ⟨lm.memory, hmem, rfl, huser⟩

/-! ## Fused scores -/

theorem keys_addContribution [Field F] (k : ℕ) (scores : List (String × N)) (hit : RankedHit) :
    (addContribution A k scores hit).map Prod.fst =
      if hit.id ∈ scores.map Prod.fst then scores.map Prod.fst else scores.map Prod.fst ++ [hit.id] := by
  induction scores with
  | nil => rfl
  | cons entry rest ih =>
    obtain ⟨id, score⟩ := entry
    rw [addContribution]
    by_cases hid : id = hit.id
    · simp [hid]
    · rw [if_neg hid, List.map_cons, List.map_cons, ih]
      by_cases hmem : hit.id ∈ rest.map Prod.fst
      · rw [if_pos hmem, if_pos (List.mem_cons_of_mem _ hmem)]
      · rw [if_neg hmem, if_neg (by simpa [Ne.symm hid] using hmem)]
        rfl

theorem keys_rrfScores [Field F] (lists : List (List RankedHit)) :
    (rrfScores A lists 60).map Prod.fst = fusedKeys F lists := by
  have hsame : ∀ (hits : List RankedHit) (scores : List (String × N)) (scores' : List (String × F)),
      scores.map Prod.fst = scores'.map Prod.fst →
      (hits.foldl (addContribution A 60) scores).map Prod.fst =
        (hits.foldl (CognitiveMemory.addContribution 60) scores').map Prod.fst := by
    intro hits
    induction hits with
    | nil => exact fun _ _ h => h
    | cons hit hits ih =>
      intro scores scores' h
      refine ih _ _ ?_
      rw [keys_addContribution, CognitiveMemory.keys_addContribution, h]
  exact hsame _ _ _ rfl

variable [Field F] [LinearOrder F]

section
variable [IsStrictOrderedRing F]

theorem contribution_nonneg (hA : A.Lawful) (k : ℕ) (hit : RankedHit) :
    A.le (A.num 0) (contribution A k hit) :=
  hA.one_div_nonneg (hA.add_pos (hA.add_nonneg (hA.num_le (Nat.cast_nonneg _)) (hA.num_le (Nat.cast_nonneg _))) hA.one_pos)

theorem addContribution_nonneg (hA : A.Lawful) (k : ℕ) {scores : List (String × N)} (hit : RankedHit)
    (h : ∀ p ∈ scores, A.le (A.num 0) p.2) : ∀ p ∈ addContribution A k scores hit, A.le (A.num 0) p.2 := by
  have hhit := contribution_nonneg hA k hit
  induction scores with
  | nil =>
    intro p hp
    rw [List.mem_singleton.mp hp]
    exact hA.add_nonneg (hA.num_le le_rfl) hhit
  | cons entry rest ih =>
    obtain ⟨hscore, hrest⟩ := List.forall_mem_cons.mp h
    rw [addContribution]
    split
    · exact List.forall_mem_cons.mpr ⟨hA.add_nonneg hscore hhit, hrest⟩
    · exact List.forall_mem_cons.mpr ⟨hscore, ih hrest⟩

theorem rrfScores_nonneg (hA : A.Lawful) (lists : List (List RankedHit)) (k : ℕ) :
    ∀ p ∈ rrfScores A lists k, A.le (A.num 0) p.2 := by
  refine List.foldlRecOn _ _ (motive := fun scores : List (String × N) => ∀ p ∈ scores, A.le (A.num 0) p.2) nofun ?_
  exact fun scores h hit _ => addContribution_nonneg hA k hit h

/-! ## Fused hits -/

def fusedHits (A : Floating F N) (lists : List (List RankedHit)) (scored : List (SearchResult N)) (keys : List String) :
    List (SearchResult N) :=
  (sortFused A (keys.filterMap fun id => ((rrfScores A lists 60).lookup id).map fun s => (id, s))).filterMap (join A scored)

section
variable {lists : List (List RankedHit)} {scored : List (SearchResult N)} {keys : List String}

theorem fusedEntries_numbers (hA : A.Lawful) (lists : List (List RankedHit)) (keys : List String) :
    A.Numbers Prod.snd (keys.filterMap fun id => ((rrfScores A lists 60).lookup id).map fun s => (id, s)) := by
  intro p hp
  obtain ⟨id, -, hid⟩ := List.mem_filterMap.mp hp
  obtain ⟨s, hs, rfl⟩ := Option.map_eq_some_iff.mp hid
  obtain ⟨before, after, heq, -⟩ := List.lookup_eq_some_iff.mp hs
  refine hA.le_right (rrfScores_nonneg hA lists 60 (id, s) ?_)
  rw [heq]
  exact List.mem_append_right _ List.mem_cons_self

theorem fusedHits_falling (hA : A.Lawful) (lists : List (List RankedHit)) (scored : List (SearchResult N))
    (keys : List String) : A.Falling SearchResult.score (fusedHits A lists scored keys) ∧
      A.Numbers SearchResult.score (fusedHits A lists scored keys) := by
  have hnumbers := fusedEntries_numbers hA lists keys
  constructor
  · refine List.Pairwise.filterMap (join A scored) (fun p q hpq r hr r' hr' => ?_) (falling_insertionSort hA hnumbers)
    rw [join_score hr, join_score hr']
    exact hA.single_le hpq
  · intro r hr
    obtain ⟨p, hp, hr⟩ := List.mem_filterMap.mp hr
    have hp' := (List.perm_insertionSort _ _).mem_iff.mp hp
    rw [join_score hr]
    exact hA.single_le (hnumbers p hp')

def rescored (A : Floating F N) (lists : List (List RankedHit)) (r : SearchResult N) : SearchResult N :=
  { r with score := A.single (((rrfScores A lists 60).lookup r.memoryId).getD (A.num 0)) }

omit [LinearOrder F] [IsStrictOrderedRing F] in
/-- In whatever order the map is read, the hits are the dense ones with other scores. -/
theorem fusedHits_perm (hnodup : (scored.map SearchResult.memoryId).Nodup) (sparse : List RankedHit)
    (hkeys : keys.Perm ((rrfScores A [rankedHits (scored.map SearchResult.memoryId), sparse] 60).map Prod.fst)) :
    (fusedHits A [rankedHits (scored.map SearchResult.memoryId), sparse] scored keys).Perm
      (scored.map (rescored A [rankedHits (scored.map SearchResult.memoryId), sparse])) := by
  let lists := [rankedHits (scored.map SearchResult.memoryId), sparse]
  have hjoin : (keys.filterMap fun id => ((rrfScores A lists 60).lookup id).map fun s => (id, s)).filterMap (join A scored) =
      (keys.filterMap fun id => scored.find? (·.memoryId == id)).map (rescored A lists) := by
    rw [List.filterMap_filterMap, List.map_filterMap]
    refine List.filterMap_congr fun id hid => ?_
    obtain ⟨s, hs⟩ : ∃ s, (rrfScores A lists 60).lookup id = some s := by
      rw [← Option.isSome_iff_exists, Option.isSome_iff_ne_none]
      intro hnone
      obtain ⟨p, hp, rfl⟩ := List.mem_map.mp (hkeys.mem_iff.mp hid)
      exact absurd (List.lookup_eq_none_iff.mp hnone p hp) (by simp)
    rw [hs]
    show join A scored (id, s) = _
    rw [join]
    cases hfound : scored.find? (·.memoryId == id) with
    | none => rfl
    | some r =>
      obtain rfl : r.memoryId = id := by simpa using List.find?_some hfound
      simp only [Option.map_some, rescored, hs, Option.getD_some]
  refine ((List.perm_insertionSort _ _).filterMap _).trans ?_
  rw [hjoin]
  rw [keys_rrfScores] at hkeys
  refine (joined_perm hnodup (hkeys.nodup_iff.mpr (fusedKeys_nodup _)) fun r hr => hkeys.mem_iff.mpr ?_).map _
  obtain ⟨hit, hhit, hid⟩ := mem_rankedHits.mpr (List.mem_map_of_mem (f := SearchResult.memoryId) hr)
  exact mem_fusedKeys.mpr ⟨hit, by simp [hhit], hid⟩

end

end

/-! ## What is scored -/

def dense (A : Floating F N) (cfg : LifecycleConfig F) (db : Db F) (userId : String) (queryVec : List F)
    (o : SearchOptions F) :
    List (SearchResult N) := (db.candidates userId o).map (directHit A cfg queryVec o.now)

def follow (A : Floating F N) (cfg : LifecycleConfig F) (userId : String) (queryVec : List F) (o : SearchOptions F)
    (scored : List (SearchResult N)) : SearchM F (List (SearchResult N)) := do
  let hits ← hybridHits A userId o scored
  if 0 < o.graphExpansionHops ∧ hits ≠ [] then expandViaGraph A cfg userId queryVec o hits else pure hits

def SearchOptions.plain (o : SearchOptions F) : Bool := !o.hybrid && decide (o.graphExpansionHops = 0)

/-- All the search scores, as it is when it sorts it last. -/
def entries (A : Floating F N) (sort : List (SearchResult N) → List (SearchResult N)) (cfg : LifecycleConfig F)
    (userId : String) (queryVec : List F) (o : SearchOptions F) : SearchM F (List (SearchResult N)) :=
  if queryVec.isEmpty then .fail (.invalidQuery "query vector is empty") else do
    let candidates : List (SearchCandidate F) ←
      (query (.candidatesForSearch userId o.provider o.model o.now o.deepRecall)).mapError .storage
    let dense ← Prog.ofExcept (candidates.mapM (scoreCandidate A cfg queryVec o.now))
    if SearchOptions.plain o then pure dense else follow A cfg userId queryVec o (sort dense)

section
variable {sort : List (SearchResult N) → List (SearchResult N)} {cfg : LifecycleConfig F} {userId : String} {queryVec : List F}
  {o : SearchOptions F}

theorem fuseHybrid_sort [IsStrictOrderedRing F] (hA : A.Lawful) (hs : A.SortsBy SearchResult.score sort)
    (scored : List (SearchResult N)) {α : Type} (f : List (SearchResult N) → α) :
    ((fuseHybrid A userId o scored).bind fun hits => .pure (f (sort hits))) =
      (fuseHybrid A userId o scored).bind fun hits => .pure (f hits) := by
  have hsorted : ∀ lists keys, sort (fusedHits A lists scored keys) = fusedHits A lists scored keys := by
    intro lists keys
    obtain ⟨hfalling, hnumbers⟩ := fusedHits_falling hA lists scored keys
    exact hs.eq_self hA hnumbers hfalling
  unfold fuseHybrid
  cases o.queryText with
  | none => rfl
  | some text =>
    simp only [Prog.bind_eq, Prog.bind_assoc', reciprocalRankFusion, Prog.call_bind, Prog.cmd_bind, Prog.pure_eq,
      Prog.pure_bind']
    refine congrArg (Prog.bind _) (funext fun ids => ?_)
    refine congrArg (Prog.cmd _) (funext fun keys => ?_)
    exact congrArg (fun l => Prog.pure (f l)) (hsorted _ keys)

theorem search_eq [IsStrictOrderedRing F] (hA : A.Lawful) (hs : A.SortsBy SearchResult.score sort) (hlimit : o.limit ≠ 0) :
    search A sort cfg userId queryVec o =
      (entries A sort cfg userId queryVec o).bind fun l => .pure ((sort l).take o.limit) := by
  unfold search entries
  split
  · rfl
  simp only [Prog.bind_eq, Prog.bind_assoc', Prog.pure_eq]
  refine congrArg (Prog.bind _) (funext fun candidates => ?_)
  refine congrArg (Prog.bind _) (funext fun scored => ?_)
  have hnil : sort [] = [] := (hs.perm []).eq_nil
  by_cases hhops : o.graphExpansionHops = 0
  · have hexpanded : expandedHits A sort cfg userId queryVec o = fun hits => .pure hits :=
      funext fun hits => if_neg fun h => absurd hhops h.1.ne'
    have hstop : ∀ hits : List (SearchResult N), ¬ (0 < o.graphExpansionHops ∧ hits ≠ []) := fun _ h => absurd hhops h.1.ne'
    rw [hexpanded]
    cases hmode : o.hybrid with
    | false => simp [SearchOptions.plain, hybridHits, hmode, hhops]
    | true =>
      simp only [SearchOptions.plain, follow, hybridHits, hmode, if_neg (hstop _), if_true, Bool.not_true, Bool.false_and,
        Bool.false_eq_true, if_false, Prog.bind_eq, Prog.bind_assoc', Prog.pure_eq, Prog.pure_bind']
      exact (fuseHybrid_sort hA hs (sort scored) (List.take o.limit)).symm
  · have hplain : SearchOptions.plain o = false := by simp [SearchOptions.plain, hhops]
    simp only [hplain, Bool.false_eq_true, if_false, follow, Prog.bind_eq, Prog.bind_assoc', Prog.pure_eq]
    refine congrArg (Prog.bind _) (funext fun hits => ?_)
    unfold expandedHits
    split
    · simp only [Prog.bind_eq, Prog.bind_assoc', Prog.pure_eq, Prog.pure_bind']
    · rename_i hstop
      have hempty : hits = [] := by_contra fun hne => hstop ⟨Nat.pos_of_ne_zero hhops, hne⟩
      rw [hempty, Prog.pure_bind', hnil]
      rfl

theorem Walked.hop {db : Db F} {hits : List (SearchResult N)} {x : Expansion N} (h : Walked db userId hits x) :
    Walked db userId hits ((db.linkedMany userId x.frontier o.minBridgeEdgeWeight).foldl (Rounded.expandWith A cfg queryVec o)
      ⟨x.alreadyHave, x.scored, []⟩) := by
  refine List.foldlRecOn _ _ (motive := Walked db userId hits) ⟨h.hits, h.held, h.once, h.owned⟩ fun y hy lm hlm => ?_
  obtain ⟨hmem, huser, -⟩ := mem_linkedMany hlm
  exact hy.expandWith hmem huser

variable {bm25 : Bm25 F} {db : Db F} {calm : Prop} {w : World F}

theorem wp_expandHops {hits : List (SearchResult N)} {n : ℕ} {x : Expansion N} (h : Walked db userId hits x)
    (hw : w.Reads db calm) : (expandHops A cfg userId queryVec o n x).wp (exec bm25)
      (fun l _ => ∃ x', Walked db userId hits x' ∧ l = x'.scored) (fun _ => ¬ calm) w := by
  induction n generalizing x w with
  | zero => exact ⟨x, h, rfl⟩
  | succ n ih =>
    rw [expandHops]
    split
    · exact ⟨x, h, rfl⟩
    · refine .seq (.mapError (wp_linkedForMany hw) fun e he => he) ?_
      rintro linked w' ⟨rfl, hw'⟩
      exact ih h.hop hw'

/-! ## Runs -/

theorem wp_hybridHits [IsStrictOrderedRing F] (hA : A.Lawful) {scored : List (SearchResult N)}
    (hnodup : (scored.map SearchResult.memoryId).Nodup) (hw : w.Reads db calm) :
    (hybridHits A userId o scored).wp (exec bm25) (fun hits w' => Hits A o scored hits ∧ w'.Reads db calm)
      (fun _ => calm → o.hybrid = true) w := by
  unfold hybridHits
  split
  · rename_i hmode
    unfold fuseHybrid
    cases htext : o.queryText with
    | none => exact fun _ => hmode
    | some text =>
      refine .seq (.mapError (wp_query_answer hw rfl) fun _ _ _ => hmode) ?_
      rintro ids w₁ ⟨-, rfl⟩
      let lists := [rankedHits (scored.map SearchResult.memoryId), rankedHits ids]
      have hkeys := w.oracle.order_perm 0 ((rrfScores A lists 60).map Prod.fst)
      refine ⟨⟨fun hoff => absurd hmode (by simp [hoff]), fun _ => ?_, fun r => A.single
        (((rrfScores A lists 60).lookup r.memoryId).getD (A.num 0)), ?_⟩, World.Reads.mk hw.db fun hc n => hw.calm hc (n + 1)⟩
      · exact (fusedHits_falling hA lists scored _).2
      · simp only [hmode, if_true]
        exact fusedHits_perm hnodup _ hkeys
  · rename_i hmode
    exact ⟨⟨fun _ => rfl, fun hon => absurd hon hmode, fun r => r.score, by simp [hmode]⟩, hw⟩

/-- What comes of the sorted dense hits: hits with these ids, and what the walk adds. -/
structure Gathered (A : Floating F N) (db : Db F) (userId : String) (o : SearchOptions F)
    (scored l : List (SearchResult N)) : Prop where
  hits : ∃ hits added, l = hits ++ added ∧ Hits A o scored hits
  once : (l.map SearchResult.memoryId).Nodup
  owned : ∀ r ∈ l, ∃ m ∈ db.memories, m.id = r.memoryId ∧ m.userId = userId

theorem wp_follow [IsStrictOrderedRing F] (hA : A.Lawful) {scored : List (SearchResult N)}
    (hnodup : (scored.map SearchResult.memoryId).Nodup)
    (howned : ∀ r ∈ scored, ∃ m ∈ db.memories, m.id = r.memoryId ∧ m.userId = userId) (hw : w.Reads db calm) :
    (follow A cfg userId queryVec o scored).wp (exec bm25) (fun l _ => Gathered A db userId o scored l)
      (fun _ => calm → o.hybrid = true) w := by
  refine Prog.wp.seq (wp_hybridHits hA hnodup hw) ?_
  rintro hits w₁ ⟨hhits, hw₁⟩
  have honce := hhits.ids.nodup_iff.mpr hnodup
  have howned' : ∀ r ∈ hits, ∃ m ∈ db.memories, m.id = r.memoryId ∧ m.userId = userId := by
    intro r hr
    obtain ⟨r', hr', hid⟩ := List.mem_map.mp (hhits.ids.mem_iff.mp (List.mem_map_of_mem hr))
    rw [← hid]
    exact howned r' hr'
  have hstart : Walked db userId hits ⟨hits.map SearchResult.memoryId, hits,
      (hits.map SearchResult.memoryId).take (Max.max o.limit 5)⟩ := ⟨⟨[], by simp⟩, fun _ => .rfl, honce, howned'⟩
  split
  · refine ((wp_expandHops hstart hw₁).imp_error fun _ hrough hc => absurd hc hrough).imp ?_
    rintro l w₂ ⟨x, hx, rfl⟩
    obtain ⟨added, hadded⟩ := hx.hits
    exact ⟨⟨hits, added, hadded, hhits⟩, hx.once, hx.owned⟩
  · exact ⟨⟨hits, [], by simp, hhits⟩, honce, howned'⟩

omit [LinearOrder F] in
theorem mapM_scoreCandidate {now : Int} {cs : List (SearchCandidate F)} {scored : List (SearchResult N)}
    (h : cs.mapM (scoreCandidate A cfg queryVec now) = .ok scored) : scored = cs.map (directHit A cfg queryVec now) := by
  induction cs generalizing scored with
  | nil =>
    cases h
    rfl
  | cons c cs ih =>
    rw [List.mapM_cons] at h
    obtain ⟨r, hr, h⟩ := bind_ok h
    obtain ⟨rs, hrs, h⟩ := bind_ok h
    cases h
    unfold scoreCandidate at hr
    split at hr <;> cases hr
    rw [List.map_cons, ← ih hrs]

theorem run_candidates (hfault : w.oracle.sqlFault 0 = false) :
    ((query (.candidatesForSearch userId o.provider o.model o.now o.deepRecall)).mapError SearchError.storage).run
      (exec bm25) w = (.ok (w.db.candidates userId o), w.answer w.db) := by
  let q : Query F := .candidatesForSearch userId o.provider o.model o.now o.deepRecall
  rw [Prog.run_mapError, run_query (q := q) hfault rfl]
  rfl

/-- After its one statement, a run that scores all candidates goes on from their order. -/
theorem run_entries (hvec : queryVec.isEmpty = false) (hfault : w.oracle.sqlFault 0 = false)
    (hscored : (w.db.candidates userId o).mapM (scoreCandidate A cfg queryVec o.now) = .ok (dense A cfg w.db userId queryVec o)) :
    (entries A sort cfg userId queryVec o).run (exec bm25) w =
      (if SearchOptions.plain o then Prog.pure (dense A cfg w.db userId queryVec o)
        else follow A cfg userId queryVec o (sort (dense A cfg w.db userId queryVec o))).run (exec bm25) (w.answer w.db) := by
  unfold entries
  rw [hvec, if_neg (by simp), Prog.bind_eq, Prog.run_bind_ok _ (run_candidates hfault), hscored]
  rfl

theorem run_entries_ok {l : List (SearchResult N)}
    (hrun : ((entries A sort cfg userId queryVec o).run (exec bm25) w).1 = .ok l) :
    queryVec.isEmpty = false ∧ w.oracle.sqlFault 0 = false ∧
      (w.db.candidates userId o).mapM (scoreCandidate A cfg queryVec o.now) = .ok (dense A cfg w.db userId queryVec o) := by
  let q : Query F := .candidatesForSearch userId o.provider o.model o.now o.deepRecall
  unfold entries at hrun
  cases hvec : queryVec.isEmpty with
  | true =>
    rw [hvec] at hrun
    cases hrun
  | false =>
  rw [hvec, if_neg (by simp), Prog.bind_eq] at hrun
  cases hfault : w.oracle.sqlFault 0 with
  | true =>
    have hquery : ((query q).mapError SearchError.storage).run (exec bm25) w = (.error (.storage .io), w.answer w.db) := by
      rw [Prog.run_mapError, run_query_fault hfault]
      rfl
    rw [Prog.run_bind_error _ hquery] at hrun
    cases hrun
  | false =>
  rw [Prog.run_bind_ok _ (run_candidates hfault)] at hrun
  refine ⟨rfl, rfl, ?_⟩
  cases hscored : (w.db.candidates userId o).mapM (scoreCandidate A cfg queryVec o.now) with
  | ok scored => rw [mapM_scoreCandidate hscored, dense]
  | error e =>
    rw [hscored] at hrun
    cases hrun

omit [LinearOrder F] in
theorem dense_nodup (hk : db.Keyed) : ((dense A cfg db userId queryVec o).map SearchResult.memoryId).Nodup := by
  rw [dense, Db.candidates, List.map_map, List.map_map]
  exact hk.sublist (List.Sublist.map _ List.filter_sublist)

omit [LinearOrder F] in
theorem dense_owned {r : SearchResult N} (hr : r ∈ dense A cfg db userId queryVec o) :
    ∃ m ∈ db.memories, m.id = r.memoryId ∧ m.userId = userId := by
  obtain ⟨c, hc, rfl⟩ := List.mem_map.mp hr
  obtain ⟨m, hm, rfl⟩ := List.mem_map.mp hc
  obtain ⟨hmem, hsearchable⟩ := List.mem_filter.mp hm
  simp only [MemoryRow.searchable, Bool.and_eq_true, beq_iff_eq] at hsearchable
  exact ⟨m, hmem, rfl, hsearchable.1.1.1.1.1.1⟩

/-- All that is scored is there before the list is sorted for the last time, be it the dense hits alone. -/
theorem gathered_entries [IsStrictOrderedRing F] (hA : A.Lawful) (hs : A.SortsBy SearchResult.score sort) (hk : w.db.Keyed)
    {l : List (SearchResult N)} (hrun : ((entries A sort cfg userId queryVec o).run (exec bm25) w).1 = .ok l) :
    Gathered A w.db userId o (if SearchOptions.plain o then dense A cfg w.db userId queryVec o
      else sort (dense A cfg w.db userId queryVec o)) l := by
  obtain ⟨hvec, hfault, hscored⟩ := run_entries_ok hrun
  rw [run_entries hvec hfault hscored] at hrun
  have hperm := hs.perm (dense A cfg w.db userId queryVec o)
  cases hplain : SearchOptions.plain o with
  | true =>
    rw [hplain] at hrun
    cases hrun
    have hmode : o.hybrid = false := by simpa using (Bool.and_eq_true_iff.mp hplain).1
    exact ⟨⟨_, [], by simp, ⟨fun _ => rfl, fun hon => by simp [hmode] at hon, fun r => r.score, by simp [hmode]⟩⟩,
      dense_nodup hk, fun r hr => dense_owned hr⟩
  | false =>
    rw [hplain, if_neg (by simp)] at hrun
    have hw : (w.answer w.db).Reads w.db False := ⟨rfl, False.elim⟩
    have hnodup := ((hperm.map SearchResult.memoryId).nodup_iff).mpr (dense_nodup hk)
    exact Prog.wp_ok (wp_follow hA hnodup (fun r hr => dense_owned (hperm.mem_iff.mp hr)) hw) hrun

end

/-! ## The shape of the list -/

/-- The list is in order, shows each memory once and only the user's, and is as long as the limit and what
was scored allow; the hits of a hybrid search are the dense ones with other scores. -/
structure Shape (A : Floating F N) (bm25 : Bm25 F) (sort : List (SearchResult N) → List (SearchResult N))
    (cfg : LifecycleConfig F) (userId : String) (queryVec : List F) (o : SearchOptions F) (w : World F)
    (results : List (SearchResult N)) : Prop where
  falling : A.Falling SearchResult.score results
  once : (results.map SearchResult.memoryId).Nodup
  owned : ∀ r ∈ results, ∃ m ∈ w.db.memories, m.id = r.memoryId ∧ m.userId = userId
  length : (o.limit = 0 ∧ results = []) ∨ ∃ l, ((entries A sort cfg userId queryVec o).run (exec bm25) w).1 = .ok l ∧
    results.length = Min.min o.limit l.length
  fused : o.hybrid = true → ∀ w' : World F, w'.db = w.db → ∀ hits,
    ((hybridHits A userId o (sort (dense A cfg w.db userId queryVec o))).run (exec bm25) w').1 = .ok hits →
      ∃ score : SearchResult N → N, hits.Perm ((dense A cfg w.db userId queryVec o).map fun r => { r with score := score r })

/-- Whatever `sort_by` makes of a list with NaNs in it, each search of this store that returns a list returns
one of that shape. -/
def KeepsShape (A : Floating F N) (bm25 : Bm25 F) (cfg : LifecycleConfig F) (db : Db F) (userId : String) (queryVec : List F)
    (o : SearchOptions F) : Prop :=
  ∀ sort, A.SortsBy SearchResult.score sort → ∀ w : World F, w.db = db → ∀ results,
    ((search A sort cfg userId queryVec o).run (exec bm25) w).1 = .ok results → Shape A bm25 sort cfg userId queryVec o w results

/-- At most one entry is returned or scored; or no score is a NaN; or all numbers among the scores are equal,
and the first entries up to the limit have numbers. -/
def Comparable (A : Floating F N) (bm25 : Bm25 F) (cfg : LifecycleConfig F) (db : Db F) (userId : String) (queryVec : List F)
    (o : SearchOptions F) : Prop :=
  ∀ sort, A.SortsBy SearchResult.score sort → ∀ w : World F, w.db = db → ∀ l,
    ((entries A sort cfg userId queryVec o).run (exec bm25) w).1 = .ok l → A.Tame SearchResult.score o.limit l

section
variable {bm25 : Bm25 F} {sort : List (SearchResult N) → List (SearchResult N)} {cfg : LifecycleConfig F} {userId : String}
  {queryVec : List F} {o : SearchOptions F} {w : World F}

variable [IsStrictOrderedRing F]

theorem perm_of_hybridHits (hA : A.Lawful) (hs : A.SortsBy SearchResult.score sort) {db : Db F} (hk : db.Keyed)
    (hmode : o.hybrid = true) (hdb : w.db = db) {hits : List (SearchResult N)}
    (hrun : ((hybridHits A userId o (sort (dense A cfg db userId queryVec o))).run (exec bm25) w).1 = .ok hits) :
    ∃ score : SearchResult N → N, hits.Perm ((dense A cfg db userId queryVec o).map fun r => { r with score := score r }) := by
  have hdense := hs.perm (dense A cfg db userId queryVec o)
  have hnodup := ((hdense.map SearchResult.memoryId).nodup_iff).mpr (dense_nodup hk)
  have hw : w.Reads db False := ⟨hdb, False.elim⟩
  obtain ⟨⟨-, -, score, hscore⟩, -⟩ := Prog.wp_ok (wp_hybridHits hA hnodup hw) hrun
  refine ⟨score, (hscore.trans (hdense.map _)).trans (.of_eq ?_)⟩
  simp only [hmode, if_true]

theorem shape_of_falling (hA : A.Lawful) (hs : A.SortsBy SearchResult.score sort) (hk : w.db.Keyed)
    {l : List (SearchResult N)} (hrun : ((entries A sort cfg userId queryVec o).run (exec bm25) w).1 = .ok l)
    (hfalling : A.Falling SearchResult.score ((sort l).take o.limit)) :
    Shape A bm25 sort cfg userId queryVec o w ((sort l).take o.limit) := by
  obtain ⟨-, honce, howned⟩ := gathered_entries hA hs hk hrun
  have hperm := hs.perm l
  have hcut := List.take_sublist o.limit (sort l)
  refine ⟨hfalling, ?_, fun r hr => howned r (hperm.mem_iff.mp (hcut.subset hr)), .inr ⟨l, hrun, ?_⟩, fun hmode w' hdb hits hhits => ?_⟩
  · exact ((hperm.map SearchResult.memoryId).nodup_iff.mpr honce).sublist (hcut.map _)
  · rw [List.length_take, hperm.length_eq]
  · exact perm_of_hybridHits hA hs hk hmode hdb hhits

theorem KeepsShape.falling (hA : A.Lawful) (hs : A.SortsBy SearchResult.score sort) (hlimit : o.limit ≠ 0)
    (h : KeepsShape A bm25 cfg w.db userId queryVec o) {l : List (SearchResult N)}
    (hrun : ((entries A sort cfg userId queryVec o).run (exec bm25) w).1 = .ok l) :
    A.Falling SearchResult.score ((sort l).take o.limit) := by
  refine (h sort hs w rfl _ ?_).falling
  have hentries : (entries A sort cfg userId queryVec o).run (exec bm25) w = (.ok l, _) := Prod.ext hrun rfl
  rw [search_eq hA hs hlimit, Prog.run_bind_ok _ hentries]
  rfl

theorem KeepsShape.consistent_dense (hA : A.Lawful) (hk : w.db.Keyed) (hlimit : 2 ≤ o.limit)
    (h : KeepsShape A bm25 cfg w.db userId queryVec o) (hmode : o.hybrid = false) (hvec : queryVec.isEmpty = false)
    (hscored : (w.db.candidates userId o).mapM (scoreCandidate A cfg queryVec o.now) = .ok (dense A cfg w.db userId queryVec o)) :
    A.Consistent SearchResult.score (dense A cfg w.db userId queryVec o) := by
  let D := dense A cfg w.db userId queryVec o
  let calm : World F := ⟨w.db, [], Oracle.quiet⟩
  have hs : A.SortsBy SearchResult.score (A.nanFirst SearchResult.score) := sortsBy_nanFirst
  obtain ⟨l, hl⟩ : ∃ l, ((entries A (A.nanFirst SearchResult.score) cfg userId queryVec o).run (exec bm25) calm).1 = .ok l := by
    rw [run_entries (w := calm) hvec rfl hscored]
    split
    · exact ⟨D, rfl⟩
    · have hw : (calm.answer calm.db).Reads w.db True := ⟨rfl, fun _ _ => rfl⟩
      have hnodup := (((hs.perm D).map SearchResult.memoryId).nodup_iff).mpr (dense_nodup hk)
      have hfollow : (follow A cfg userId queryVec o (A.nanFirst SearchResult.score D)).wp (exec bm25) _ _ _ :=
        wp_follow hA hnodup (fun r hr => dense_owned ((hs.perm D).mem_iff.mp hr)) hw
      obtain ⟨l, hl, -⟩ := Prog.wp_total hfollow fun _ hon => absurd (hon trivial) (by simp [hmode])
      exact ⟨l, hl⟩
  have hfalling : A.Falling SearchResult.score ((A.nanFirst SearchResult.score l).take o.limit) :=
    KeepsShape.falling (w := calm) hA hs (by omega) h hl
  have hl' : A.Consistent SearchResult.score l := by_contra fun hc => not_falling_nanFirst hA hc hlimit hfalling
  obtain ⟨⟨hits, added, rfl, hhits⟩, -, -⟩ := gathered_entries (w := calm) hA hs hk hl
  refine hl'.subset fun r hr => List.mem_append_left _ ?_
  rw [hhits.same hmode]
  split
  · exact hr
  · exact (hs.perm D).mem_iff.mpr hr

/-- A sort that orders the dense hits as `sort` does, and puts NaNs first in a longer list, would show what cannot
be compared among the entries. -/
theorem KeepsShape.consistent (hA : A.Lawful) (hs : A.SortsBy SearchResult.score sort) (hk : w.db.Keyed)
    (hlimit : 2 ≤ o.limit) (h : KeepsShape A bm25 cfg w.db userId queryVec o) {l : List (SearchResult N)}
    (hl : ((entries A sort cfg userId queryVec o).run (exec bm25) w).1 = .ok l) : A.Consistent SearchResult.score l := by
  by_contra hc
  obtain ⟨hvec, hfault, hscored⟩ := run_entries_ok hl
  let D := dense A cfg w.db userId queryVec o
  have hlonger : l.length ≠ D.length := by
    intro hlen
    obtain ⟨⟨hits, added, rfl, hhits⟩, -, -⟩ := gathered_entries hA hs hk hl
    have hsorted : (if SearchOptions.plain o then D else sort D).Perm D := by
      split
      · exact .refl D
      · exact hs.perm D
    have hids := (hhits.ids.trans (hsorted.map _)).length_eq
    rw [List.length_map, List.length_map] at hids
    have hadded : added = [] := List.length_eq_zero_iff.mp (by rw [List.length_append] at hlen; omega)
    rw [hadded, List.append_nil] at hc
    cases hmode : o.hybrid with
    | true => exact hc (consistent_of_numbers hA (hhits.fused hmode))
    | false =>
      have hdense := h.consistent_dense hA hk hlimit hmode hvec hscored
      exact hc (hdense.subset fun r hr => hsorted.mem_iff.mp (hhits.same hmode ▸ hr))
  let sort' : List (SearchResult N) → List (SearchResult N) := fun l =>
    if l.length = D.length then sort l else A.nanFirst SearchResult.score l
  have hs' : A.SortsBy SearchResult.score sort' := hs.ite sortsBy_nanFirst fun l => l.length = D.length
  have hl' : ((entries A sort' cfg userId queryVec o).run (exec bm25) w).1 = .ok l := by
    have hsame : sort' D = sort D := if_pos rfl
    rw [run_entries hvec hfault hscored] at hl ⊢
    rwa [hsame]
  have hfalling := h.falling hA hs' (by omega) hl'
  have hlast : sort' l = A.nanFirst SearchResult.score l := if_neg hlonger
  rw [hlast] at hfalling
  exact not_falling_nanFirst hA hc hlimit hfalling

/-- The list is in its documented shape just when its scores can be compared. -/
theorem keepsShape_iff (hA : A.Lawful) {db : Db F} (hk : db.Keyed) :
    KeepsShape A bm25 cfg db userId queryVec o ↔ Comparable A bm25 cfg db userId queryVec o := by
  constructor
  · rintro h sort hs w rfl l hl
    by_cases hlimit : o.limit ≤ 1
    · exact .inl hlimit
    · exact hs.tame_of_falling hA (h.consistent hA hs hk (by omega) hl) (h.falling hA hs (by omega) hl)
  · rintro h sort hs w rfl results hrun
    by_cases hlimit : o.limit = 0
    · obtain rfl : results = [] := by
        unfold search at hrun
        split at hrun <;> cases hrun
        rfl
      exact ⟨.nil, List.nodup_nil, nofun, .inl ⟨hlimit, rfl⟩, fun hmode w' hdb hits hhits =>
        perm_of_hybridHits hA hs hk hmode hdb hhits⟩
    rw [search_eq hA hs hlimit, Prog.run_bind] at hrun
    cases hentries : (entries A sort cfg userId queryVec o).run (exec bm25) w with
    | mk answer w' =>
      rw [hentries] at hrun
      cases answer with
      | error e => cases hrun
      | ok l =>
        cases hrun
        have hl : ((entries A sort cfg userId queryVec o).run (exec bm25) w).1 = .ok l := by rw [hentries]
        exact shape_of_falling hA hs hk hl (hs.falling_take hA (h sort hs w rfl l hl))

end
/-! ### A tea below its floor -/

def nanArithmetic : Floating ℚ (Option ℚ) := withNaN Elementary.exp Elementary.sqrt Elementary.powf

/-- An Update has given tea the importance -1 and the floor -1, a month before milk was stored. -/
def sunkenShelf : Db ℚ :=
  let row (id content : String) (now : Int) : MemoryRow ℚ :=
    { MemoryRow.newMinimal id "alice" content "semantic" "fact" now with
      embedding := some [1]
      embeddingProvider := some "flat"
      embeddingModel := some "flat-1" }
  { Db.empty with
    memories := [{ row "mem_tea" "tea" 0 with importance := -1, retentionFloor := -1 }, row "mem_milk" "milk" 2592000] }

def monthLater : SearchOptions ℚ := ⟨10, false, "flat", "flat-1", 2592000, false, none, 0, 3 / 10, false, 3⟩

theorem sunkenShelf_keyed : sunkenShelf.Keyed := by
  unfold Db.Keyed
  decide

theorem dense_sunken : dense nanArithmetic (buildLifecycleConfig []) sunkenShelf "alice" [1] monthLater =
    [⟨"mem_tea", "tea", "semantic", "fact", none, .direct⟩, ⟨"mem_milk", "milk", "semantic", "fact", some 1, .direct⟩] := by
  decide +kernel

theorem keepsShape_sunken : KeepsShape nanArithmetic (fun _ _ _ => none)
    (buildLifecycleConfig []) sunkenShelf "alice" [1] monthLater ↔
    Comparable nanArithmetic (fun _ _ _ => none) (buildLifecycleConfig []) sunkenShelf "alice" [1] monthLater :=
  keepsShape_iff (withNaN_lawful _ _ _) sunkenShelf_keyed

/-- No order of the two is one by score. -/
theorem sunken_unsorted : ¬ ∃ sort, nanArithmetic.SortsBy SearchResult.score sort ∧
    ∀ w : World ℚ, w.db = sunkenShelf → ∀ results,
    ((search nanArithmetic sort (buildLifecycleConfig []) "alice" [1] monthLater).run (exec fun _ _ _ => none) w).1 = .ok results →
      Shape nanArithmetic (fun _ _ _ => none) sort (buildLifecycleConfig []) "alice" [1] monthLater w results := by
  rintro ⟨sort, hs, h⟩
  let w : World ℚ := ⟨sunkenShelf, [], Oracle.quiet⟩
  have hA : nanArithmetic.Lawful := withNaN_lawful _ _ _
  have hD := dense_sunken
  have hscored : (w.db.candidates "alice" monthLater).mapM
      (scoreCandidate nanArithmetic (buildLifecycleConfig []) [1] monthLater.now) =
        .ok (dense nanArithmetic (buildLifecycleConfig []) w.db "alice" [1] monthLater) := rfl
  have hrun : (entries nanArithmetic sort (buildLifecycleConfig []) "alice" [1] monthLater).run (exec fun _ _ _ => none) w = _ :=
    run_entries rfl rfl hscored
  rw [if_pos (by decide), Prog.run_pure] at hrun
  have hsearch : ((search nanArithmetic sort (buildLifecycleConfig []) "alice" [1] monthLater).run (exec fun _ _ _ => none) w).1 =
      .ok ((sort (dense nanArithmetic (buildLifecycleConfig []) w.db "alice" [1] monthLater)).take 10) := by
    rw [search_eq hA hs (by decide), Prog.run_bind_ok _ hrun]
    rfl
  have hfalling := (h w rfl _ hsearch).falling
  rw [hD] at hfalling
  have hperm := hs.perm [⟨"mem_tea", "tea", "semantic", "fact", none, .direct⟩, ⟨"mem_milk", "milk", "semantic", "fact", some 1, .direct⟩]
  have hlength := hperm.length_eq
  rw [List.take_of_length_le (by rw [hlength]; decide)] at hfalling
  have htea := hfalling.numbers hA (by rw [hlength]; decide) _ (hperm.mem_iff.mpr List.mem_cons_self)
  cases htea

end CognitiveMemory.Rounded
