import CognitiveMemory.Daemon.Tenancy
import CognitiveMemory.Daemon.Writes
import CognitiveMemory.Lib.Wp

/-! The strengthening after a search, which works on rows in two transactions, against the functions of
the lifecycle crate, which work on the states that rows stand for. -/

namespace CognitiveMemory
open Prog
variable {F : Type}

/-! ## What the lifecycle crate makes of a row -/

section
variable [Field F] [LinearOrder F]

def MemoryRow.lifecycleState (cfg : LifecycleConfig F) (r : MemoryRow F) : MemoryState F :=
  { candidateToState (SearchCandidate.ofRow r) cfg with
    accessCount := r.retrievalCount.toNat
    sessionCount := r.sessionIds.length }

def ResultSource.boost : ResultSource → MemoryState F → Int → LifecycleConfig F → MemoryState F
  | .direct => MemoryState.applyDirectBoost
  | .graphExpanded => MemoryState.applyAssociativeBoost

def MemoryRow.strengthened (cfg : LifecycleConfig F) (source : ResultSource) (now : Int) (session : String)
    (r : MemoryRow F) :
    MemoryRow F :=
  let boosted := source.boost (r.lifecycleState cfg) now cfg
  let sessions := r.sessionIds ++ [session]
  let promoted := ({ boosted with sessionCount := sessions.length }.checkCorePromotion cfg).1
  { r with
    stability := boosted.stability
    lastAccessedAt := boosted.lastAccessedAt
    retrievalCount := boosted.accessCount
    sessionIds := sessions
    category := if promoted then "core" else r.category
    retentionFloor := if promoted then 6 / 10 else r.retentionFloor }

def MemoryRow.afterRetrieval (cfg : LifecycleConfig F) (userId : String) (retrieved : List (String × ResultSource))
    (now : Int) (session : String) (r : MemoryRow F) : MemoryRow F :=
  match retrieved.lookup r.id with
  | some source => if r.userId = userId ∧ r.isStub = false then r.strengthened cfg source now session else r
  | none => r

/-! ## One row -/

section
variable {cfg : LifecycleConfig F} {source : ResultSource} {now : Int} {session : String} {r : MemoryRow F}

theorem castI64_of_lt {n : ℕ} (h : n < 2 ^ 63) : castI64 n = n := by
  unfold castI64
  rw [Int.bmod_eq_of_le] <;> omega

theorem parseCategory_core {s : String} : parseCategory s = .core ↔ s = "core" := by
  unfold parseCategory
  split_ifs <;> simp_all

theorem boostedStability_eq :
    boostedStability cfg source now r = (source.boost (r.lifecycleState cfg) now cfg).stability := by
  have hfactor : spacedRepFactor cfg r.lastAccessedAt now = (r.lifecycleState cfg).spacedRepFactor now cfg := min_comm _ _
  cases source with
  | direct =>
    unfold boostedStability
    rw [hfactor]
    rfl
  | graphExpanded =>
    unfold boostedStability
    rw [hfactor]
    rfl

theorem boost_lastAccessedAt (m : MemoryState F) : (source.boost m now cfg).lastAccessedAt = now := by
  cases source <;> rfl

theorem boost_accessCount (m : MemoryState F) : (source.boost m now cfg).accessCount = m.accessCount + 1 := by
  cases source <;> rfl

theorem boost_category (m : MemoryState F) : (source.boost m now cfg).category = m.category := by
  cases source <;> rfl

theorem promotes_eq (hcfg : cfg.coreAccessThreshold < 2 ^ 63) (hcount : 0 ≤ r.retrievalCount)
    (hpending : "__pending__" ∉ r.sessionIds) :
    promotes cfg (boostedStability cfg source now r) r = ({ source.boost (r.lifecycleState cfg) now cfg with
      sessionCount := (r.sessionIds ++ [session]).length }.checkCorePromotion cfg).1 := by
  have hsessions : (if r.sessionIds.contains "__pending__" then r.sessionIds else r.sessionIds ++ ["__pending__"]).length =
      (r.sessionIds ++ [session]).length := by
    rw [if_neg (by simpa using hpending), List.length_append, List.length_append]
    rfl
  have haccess : castI64 cfg.coreAccessThreshold ≤ r.retrievalCount + 1 ↔
      cfg.coreAccessThreshold ≤ r.retrievalCount.toNat + 1 := by
    rw [castI64_of_lt hcfg]
    omega
  have hcore : (source.boost (r.lifecycleState cfg) now cfg).category = .core ↔ r.category = "core" := by
    rw [boost_category]
    exact parseCategory_core
  unfold promotes MemoryState.checkCorePromotion
  dsimp only
  rw [hsessions, boost_accessCount, ← boostedStability_eq]
  by_cases hcat : r.category = "core"
  · rw [if_pos (hcore.mpr hcat)]
    simp [hcat]
  · rw [if_neg fun h => hcat (hcore.mp h)]
    have hcount' : (r.lifecycleState cfg).accessCount = r.retrievalCount.toNat := rfl
    rw [hcount']
    have hother : (r.category != "core") = true := bne_iff_ne.mpr hcat
    split_ifs with hgate
    · obtain ⟨hcalls, hstable, hsess⟩ := hgate
      rw [hother, decide_eq_true (haccess.mpr hcalls), decide_eq_true hstable, decide_eq_true hsess]
      rfl
    · refine Bool.eq_false_iff.mpr fun hpass => hgate ?_
      simp only [Bool.and_eq_true, decide_eq_true_eq] at hpass
      exact ⟨haccess.mp hpass.1.1.2, hpass.1.2, hpass.2⟩

def promoteRow (r : MemoryRow F) : MemoryRow F := { r with category := "core", retentionFloor := 6 / 10 }

/-- The two transactions make of a row what the lifecycle crate makes of it. -/
theorem strengthened_eq (hcfg : cfg.coreAccessThreshold < 2 ^ 63) (hcount : 0 ≤ r.retrievalCount)
    (hpending : "__pending__" ∉ r.sessionIds)
    (hfresh : session ∉ r.sessionIds) : r.strengthened cfg source now session =
      let boosted := boostRow (boostedStability cfg source now r) now session r
      if promotes cfg (boostedStability cfg source now r) r then promoteRow boosted else boosted := by
  have hgate : promotes cfg (boostedStability cfg source now r) r = ({ source.boost (r.lifecycleState cfg) now cfg with
      sessionCount := (r.sessionIds ++ [session]).length }.checkCorePromotion cfg).1 := promotes_eq hcfg hcount hpending
  have haccess : ((source.boost (r.lifecycleState cfg) now cfg).accessCount : Int) = r.retrievalCount + 1 := by
    rw [boost_accessCount]
    show ((r.retrievalCount.toNat + 1 : ℕ) : Int) = _
    omega
  unfold MemoryRow.strengthened
  dsimp only
  rw [← hgate, ← boostedStability_eq, boost_lastAccessedAt, haccess]
  have hsession : (if r.sessionIds.contains session then r.sessionIds else r.sessionIds ++ [session]) =
      r.sessionIds ++ [session] :=
    if_neg (by simpa using hfresh)
  unfold boostRow
  rw [hsession]
  cases promotes cfg (boostedStability cfg source now r) r <;> rfl

end

end

/-! ## The two transactions -/

section
variable {db : Db F} {userId : String} {rows : List (MemoryRow F)} {now : Int} {session : String}

theorem boost_memories (hk : db.Keyed) {q : MemoryRow F → Prop} [DecidablePred q]
    (hrows : ∀ r, r ∈ rows ↔ r ∈ db.memories ∧ q r)
    (howned : ∀ r ∈ rows, r.userId = userId) (hnd : (rows.map MemoryRow.id).Nodup) (g : MemoryRow F → F) :
    (db.modifyEach (fun b => owned userId b.1) (fun b => boostRow b.2 now session) (rows.map fun r => (r.id, g r))).1.memories =
      db.memories.map fun r => if q r then boostRow (g r) now session r else r := by
  have hapart : (rows.map fun r => (r.id, g r)).Pairwise fun b b' =>
      ∀ r, owned userId b.1 r → owned userId b'.1 (boostRow b.2 now session r) = false := by
    rw [List.pairwise_map]
    refine (List.pairwise_map.mp hnd).imp fun {m m'} hne r hr => ?_
    simp only [owned, Bool.and_eq_true, beq_iff_eq] at hr
    simp only [owned, boostRow, Bool.and_eq_false_iff, beq_eq_false_iff_ne]
    exact .inr (hr.2 ▸ hne)
  rw [modifyEach_memories hapart]
  refine List.map_congr_left fun r hr => ?_
  rw [List.find?_map]
  -- the entry that selects the row is its own
  cases hfind : rows.find? ((fun b => owned userId b.1 r) ∘ fun r => (r.id, g r)) with
  | none =>
    have hnot : ¬ q r := by
      intro hq
      have hmem : r ∈ rows := (hrows r).mpr ⟨hr, hq⟩
      have hmiss := List.find?_eq_none.mp hfind r hmem
      simp [owned, howned r hmem] at hmiss
    rw [if_neg hnot]
    rfl
  | some m =>
    have hsel := List.find?_some hfind
    simp only [Function.comp_apply, owned, Bool.and_eq_true, beq_iff_eq] at hsel
    have hmem : m ∈ rows := List.mem_of_find?_eq_some hfind
    obtain rfl : m = r := hk.eq_of_id ((hrows m).mp hmem).1 hr hsel.2.symm
    rw [if_pos ((hrows m).mp hmem).2]
    rfl

theorem promote_memories [Field F] {ids : List String} :
    (db.modifyEach (fun id r => owned userId id r && r.category != "core")
      (fun _ r => { r with category := "core", retentionFloor := 6 / 10 }) ids).1.memories =
      db.memories.map fun r => if r.userId = userId ∧ r.id ∈ ids ∧ r.category ≠ "core" then promoteRow r else r := by
  have hapart : ids.Pairwise fun id id' => ∀ r : MemoryRow F, (owned userId id r && r.category != "core") = true →
      (owned userId id' { r with category := "core", retentionFloor := 6 / 10 } && "core" != "core") = false :=
    List.pairwise_of_forall fun _ _ r _ => by simp
  rw [modifyEach_memories hapart]
  refine List.map_congr_left fun r _ => ?_
  cases hfind : ids.find? fun id => owned userId id r && r.category != "core" with
  | none =>
    have hnot : ¬ (r.userId = userId ∧ r.id ∈ ids ∧ r.category ≠ "core") := by
      rintro ⟨huser, hid, hcore⟩
      have hmiss := List.find?_eq_none.mp hfind r.id hid
      simp [owned, huser, hcore] at hmiss
    rw [if_neg hnot]
    rfl
  | some id =>
    have hsel := List.find?_some hfind
    simp only [owned, Bool.and_eq_true, beq_iff_eq, bne_iff_ne] at hsel
    obtain ⟨⟨huser, hid⟩, hcore⟩ := hsel
    rw [if_pos ⟨huser, hid ▸ List.mem_of_find?_eq_some hfind, hcore⟩]
    rfl

theorem getManyForUser_nodup (hk : db.Keyed) (ids : List String) :
    ((db.getManyForUser userId ids).map MemoryRow.id).Nodup := by
  have hperm : (db.getManyForUser userId ids).Perm (db.memories.filter fun r => r.userId == userId && ids.contains r.id) :=
    List.perm_insertionSort _ _
  rw [(hperm.map MemoryRow.id).nodup_iff]
  exact hk.sublist (List.Sublist.map _ List.filter_sublist)

theorem mem_keys_iff {retrieved : List (String × ResultSource)} {id : String} :
    id ∈ retrieved.map Prod.fst ↔ ∃ source, retrieved.lookup id = some source := by
  induction retrieved with
  | nil => simp
  | cons hit retrieved ih =>
    obtain ⟨id', source⟩ := hit
    rw [List.map_cons, List.mem_cons, List.lookup_cons]
    by_cases hid : id = id'
    · simp [hid]
    · simp [hid, ih, beq_eq_false_iff_ne.mpr hid]

variable {cfg : LifecycleConfig F}

variable [Field F] [LinearOrder F]

/-- Both transactions on a store with a primary key, in which no session is pending and the new one has not
been seen. -/
theorem strengthen_memories (hk : db.Keyed) (hcfg : cfg.coreAccessThreshold < 2 ^ 63)
    (hcounts : ∀ r ∈ db.memories, 0 ≤ r.retrievalCount)
    (hpending : ∀ r ∈ db.memories, "__pending__" ∉ r.sessionIds) (hfresh : ∀ r ∈ db.memories, session ∉ r.sessionIds)
    (retrieved : List (String × ResultSource)) :
    let live := (db.getManyForUser userId (retrieved.map Prod.fst)).filter fun r => !r.isStub
    let stability := fun r : MemoryRow F => boostedStability cfg (sourceOf retrieved r.id) now r
    let boosted := (db.modifyEach (fun b => owned userId b.1) (fun b => boostRow b.2 now session)
        (live.map fun r => (r.id, stability r))).1
    (boosted.modifyEach (fun id r => owned userId id r && r.category != "core")
      (fun _ r => { r with category := "core", retentionFloor := 6 / 10 })
      ((live.filter fun r => promotes cfg (stability r) r).map MemoryRow.id)).1.memories =
      db.memories.map (MemoryRow.afterRetrieval cfg userId retrieved now session) := by
  intro live stability boosted
  let q : MemoryRow F → Prop := fun r => r.userId = userId ∧ r.id ∈ retrieved.map Prod.fst ∧ r.isStub = false
  have hlive : ∀ r, r ∈ live ↔ r ∈ db.memories ∧ q r := by
    intro r
    rw [List.mem_filter, mem_getManyForUser, Bool.not_eq_true']
    tauto
  have hnd : (live.map MemoryRow.id).Nodup := (getManyForUser_nodup hk _).sublist (List.Sublist.map _ List.filter_sublist)
  have hboosted : boosted.memories = db.memories.map fun r => if q r then boostRow (stability r) now session r else r :=
    boost_memories hk hlive (fun r hr => ((hlive r).mp hr).2.1) hnd stability
  -- only a live row has its id among the promotions
  have hpromoted : ∀ r ∈ db.memories, r.id ∈ (live.filter fun r => promotes cfg (stability r) r).map MemoryRow.id ↔
      q r ∧ promotes cfg (stability r) r = true := by
    intro r hr
    constructor
    · intro hid
      obtain ⟨m, hm, hsame⟩ := List.mem_map.mp hid
      obtain ⟨hmem, hpass⟩ := List.mem_filter.mp hm
      obtain rfl : m = r := hk.eq_of_id ((hlive m).mp hmem).1 hr hsame
      exact ⟨((hlive m).mp hmem).2, hpass⟩
    · rintro ⟨hq, hpass⟩
      exact List.mem_map_of_mem (List.mem_filter.mpr ⟨(hlive r).mpr ⟨hr, hq⟩, hpass⟩)
  rw [promote_memories, hboosted, List.map_map]
  refine List.map_congr_left fun r hr => ?_
  rw [Function.comp_apply]
  by_cases hq : q r
  · obtain ⟨source, hsource⟩ := mem_keys_iff.mp hq.2.1
    have hstability : stability r = boostedStability cfg source now r := by
      show boostedStability cfg ((retrieved.lookup r.id).getD .direct) now r = _
      rw [hsource]
      rfl
    have hafter : r.afterRetrieval cfg userId retrieved now session =
        if promotes cfg (stability r) r then promoteRow (boostRow (stability r) now session r)
        else boostRow (stability r) now session r := by
      unfold MemoryRow.afterRetrieval
      rw [hsource, hstability]
      exact (if_pos ⟨hq.1, hq.2.2⟩).trans (strengthened_eq hcfg (hcounts r hr) (hpending r hr) (hfresh r hr))
    have hgate : ((boostRow (stability r) now session r).userId = userId ∧ (boostRow (stability r) now session r).id ∈
        (live.filter fun r => promotes cfg (stability r) r).map MemoryRow.id ∧
          (boostRow (stability r) now session r).category ≠ "core") ↔
        promotes cfg (stability r) r = true := by
      show (r.userId = userId ∧ r.id ∈ _ ∧ r.category ≠ "core") ↔ _
      rw [hpromoted r hr]
      refine ⟨fun h => h.2.1.2, fun hpass => ⟨hq.1, ⟨hq, hpass⟩, ?_⟩⟩
      simp only [promotes, Bool.and_eq_true, bne_iff_ne] at hpass
      exact hpass.1.1.1
    rw [if_pos hq, hafter]
    exact if_congr hgate rfl rfl
  · have hstays : r.afterRetrieval cfg userId retrieved now session = r := by
      unfold MemoryRow.afterRetrieval
      cases hsource : retrieved.lookup r.id with
      | none => rfl
      | some source => exact if_neg fun h => hq ⟨h.1, mem_keys_iff.mpr ⟨source, hsource⟩, h.2⟩
    rw [if_neg hq, hstays]
    exact if_neg fun h => hq ((hpromoted r hr).mp h.2.1).1

/-! ## The handler -/

variable {bm25 : Bm25 F} {app : AppState F} {w : World F}

theorem wp_applied {c : Write F} {d : Db F} (h : ∃ a, c.apply w.db = .ok (a, d)) :
    (write c).wp (exec bm25) (fun _ w' => w'.db = d) (· = .io) w := by
  obtain ⟨a, h⟩ := h
  rw [wp_run]
  cases hfault : w.oracle.sqlFault 0 with
  | true =>
    rw [run_write_fault hfault]
    exact ⟨nofun, fun e w' heq => by cases heq; rfl⟩
  | false =>
    rw [run_write hfault h]
    exact ⟨fun a w' heq => by cases heq; rfl, nofun⟩

theorem wp_strengthening (hk : w.db.Keyed) (hcfg : app.lifecycle.coreAccessThreshold < 2 ^ 63)
    (hcounts : ∀ r ∈ w.db.memories, 0 ≤ r.retrievalCount) (hpending : ∀ r ∈ w.db.memories, "__pending__" ∉ r.sessionIds)
    (hfresh : ∀ r ∈ w.db.memories, "s_" ++ w.oracle.ulid 0 ∉ r.sessionIds) (retrieved : List (String × ResultSource)) :
    (applyPostRetrievalStrengthening app userId retrieved now).wp (exec bm25) (fun _ w' => w'.db.memories =
      w.db.memories.map (MemoryRow.afterRetrieval app.lifecycle userId retrieved now ("s_" ++ w.oracle.ulid 0)))
        (· = .storage .io) w := by
  have hsqlx : ∀ {α : Type} {p : Repo F α} {Q : α → World F → Prop} {w : World F}, p.wp (exec bm25) Q (· = .io) w →
      (sqlx p).wp (exec bm25) Q (· = .storage .io) w := fun hp => hp.mapError fun e he => congrArg _ he
  have hread : (getManyForUser userId (retrieved.map Prod.fst)).wp (exec bm25) (fun rows w' =>
      rows = w.db.getManyForUser userId (retrieved.map Prod.fst) ∧ w'.db = w.db ∧ w'.oracle.ulid = w.oracle.ulid)
        (· = .io) w := by
    unfold getManyForUser
    split
    · rename_i hempty
      refine ⟨?_, rfl, rfl⟩
      rw [List.isEmpty_iff.mp hempty]
      simp [Db.getManyForUser]
    · rw [wp_run]
      cases hfault : w.oracle.sqlFault 0 with
      | true =>
        rw [run_query_fault hfault]
        refine ⟨fun a w' heq => ?_, fun e w' heq => ?_⟩
        · cases heq
        · cases heq
          rfl
      | false =>
        rw [run_query (q := .getManyForUser userId (retrieved.map Prod.fst)) hfault rfl]
        refine ⟨fun a w' heq => ?_, fun e w' heq => ?_⟩
        · cases heq
          exact ⟨rfl, rfl, rfl⟩
        · cases heq
  refine .seq (hsqlx hread) ?_
  rintro rows w₁ ⟨rfl, hdb, hulid⟩
  refine .seq (P := fun u w' => u = w.oracle.ulid 0 ∧ w'.db = w.db) ⟨congrFun hulid 0, hdb⟩ ?_
  rintro u w₂ ⟨rfl, hdb₂⟩
  -- the writes, of which an empty one is left out
  let live := (w.db.getManyForUser userId (retrieved.map Prod.fst)).filter fun r => !r.isStub
  let stability := fun r : MemoryRow F => boostedStability app.lifecycle (sourceOf retrieved r.id) now r
  let boosts := live.map fun r => (r.id, stability r)
  let promotions := (live.filter fun r => promotes app.lifecycle (stability r) r).map MemoryRow.id
  let boosted := (w.db.modifyEach (fun b => owned userId b.1) (fun b => boostRow b.2 now ("s_" ++ w.oracle.ulid 0)) boosts).1
  have hboost : (applyDirectBoost userId boosts now ("s_" ++ w.oracle.ulid 0)).wp (exec bm25)
      (fun _ w' => w'.db = boosted) (· = .io) w₂ := by
    unfold applyDirectBoost unlessEmpty
    split
    · rename_i hempty
      show w₂.db = (w.db.modifyEach _ _ boosts).1
      rw [List.isEmpty_iff.mp hempty, hdb₂]
      rfl
    · refine wp_applied (c := .applyDirectBoost userId boosts now ("s_" ++ w.oracle.ulid 0)) ?_
      rw [hdb₂]
      exact ⟨_, rfl⟩
  refine .seq (hsqlx hboost) fun _ w₃ hdb₃ => ?_
  have hpromote : (promoteToCore userId promotions).wp (exec bm25) (fun _ w' => w'.db = (boosted.modifyEach
      (fun id r => owned userId id r && r.category != "core") (fun _ r => { r with category := "core", retentionFloor := 6 / 10 })
      promotions).1) (· = .io) w₃ := by
    unfold promoteToCore unlessEmpty
    split
    · rename_i hempty
      show w₃.db = _
      rw [List.isEmpty_iff.mp hempty, hdb₃]
      rfl
    · refine wp_applied (c := .promoteToCore userId promotions) ?_
      rw [hdb₃]
      exact ⟨_, rfl⟩
  refine .seq (hsqlx hpromote) fun _ w₄ hdb₄ => ?_
  show w₄.db.memories = _
  rw [hdb₄]
  exact strengthen_memories hk hcfg hcounts hpending hfresh retrieved

end

/-! ## The sessions in a store -/

def drawsSession (h : Seen F) : Cmd F → Prop
  | .write (.applyDirectBoost _ _ _ session) => ∃ owner raw, Answered h (.ulid owner) raw ∧ session = "s_" ++ raw
  | _ => True

theorem Cmd.plain.draws {h : Seen F} {c : Cmd F} (hc : c.plain) : drawsSession h c := by
  cases c with
  | write w =>
    cases w with
    | applyDirectBoost => exact hc.elim
    | _ => trivial
  | _ => trivial

def Drawn : (c : Cmd F) × c.Res → World F → Prop
  | ⟨.ulid owner, raw⟩, w => (raw, owner) ∈ w.minted
  | _, _ => True

def MemoryRow.Sessioned (minted : List (String × String)) (r : MemoryRow F) : Prop :=
  0 ≤ r.retrievalCount ∧ ∀ s ∈ r.sessionIds, ∃ raw owner, s = "s_" ++ raw ∧ (raw, owner) ∈ minted

theorem MemoryRow.Sessioned.mono {minted minted' : List (String × String)} {r : MemoryRow F} (h : r.Sessioned minted)
    (hsub : minted ⊆ minted') : r.Sessioned minted' := by
  refine ⟨h.1, fun s hs => ?_⟩
  obtain ⟨raw, owner, heq, hdrawn⟩ := h.2 s hs
  exact ⟨raw, owner, heq, hsub hdrawn⟩

variable [Field F] [LinearOrder F]

theorem minted_exec (bm25 : Bm25 F) (c : Cmd F) (w : World F) : w.minted ⊆ (exec bm25 c w).2.minted := by
  cases c with
  | ulid owner => exact List.subset_cons_self _ _
  | write wr =>
    simp only [exec]
    split
    · exact List.Subset.refl _
    · split <;> exact List.Subset.refl _
  | resolveConflicts llm pairs =>
    simp only [exec]
    split <;> exact List.Subset.refl _
  | _ => exact List.Subset.refl _

theorem storedRow_unretrieved {app : AppState F} {args : StoreMemoryArgs F} {id : String} {vector : List F} {now : Int} :
    (storedRow app args id vector now).retrievalCount = 0 ∧ (storedRow app args id vector now).sessionIds = [] := by
  unfold storedRow
  dsimp only
  split <;> exact ⟨rfl, rfl⟩

section
variable {bm25 : Bm25 F} {w : World F} {guard : Caller F → World F → Cmd F → Prop}

theorem draws_strengthening {app : AppState F} {userId : String} {retrieved : List (String × ResultSource)}
    {now : Int} {h : Seen F} :
    (applyPostRetrievalStrengthening app userId retrieved now).Issues drawsSession (fun _ _ => True) h := by
  have hplain : ∀ {ε α : Type} {p : Prog (Cmd F) Cmd.Res ε α} (h : Seen F), p.Only Cmd.plain →
      p.Issues drawsSession (fun _ _ => True) h := fun h hp => (hp.issues (fun _ _ hc => hc.draws) h).imp fun _ _ _ => trivial
  refine .seq (hplain h (only_mapError (only_getManyForUser trivial))) fun rows h₁ _ => ?_
  refine .seq (P := fun u h' => Answered h' (.ulid userId) u) ⟨trivial, fun u => List.mem_cons_self⟩ fun u h₂ hu => ?_
  refine .seq (P := fun _ _ => True) (.mapError ?_) fun _ h₃ _ => ?_
  · unfold applyDirectBoost unlessEmpty
    split
    · trivial
    · exact ⟨⟨userId, u, hu, rfl⟩, fun answer => by cases answer <;> trivial⟩
  · exact .seq (hplain h₃ (only_mapError (only_unlessEmpty (only_write trivial)))) fun _ _ _ => trivial

theorem issues_draws [Elementary F] (t : Caller F) :
    (handleRequest t.app t.request t.user).Issues drawsSession (fun _ _ => True) [] := by
  by_cases hsearch : ∃ args, t.request = .memory (.search args)
  · obtain ⟨args, hreq⟩ := hsearch
    rw [hreq]
    exact issues_searching (fun _ _ hc => hc.draws) (fun _ => Cmd.quiet.plain) trivial (fun _ => trivial) (fun _ _ _ _ => trivial)
      (fun _ _ _ => draws_strengthening) []
  · refine ((only_issued t.app t.request t.user).issues (fun h c hc => ?_) []).imp fun _ _ _ => trivial
    cases c with
    | write w =>
      cases w with
      | applyDirectBoost => exact absurd (writes_strengthening hc trivial) hsearch
      | _ => trivial
    | _ => trivial

theorem sessioned_exec {t : Caller F} {h : Seen F} {c : Cmd F} (hrows : ∀ r ∈ w.db.memories, r.Sessioned w.minted)
    (hc : t.derives h c ∧ drawsSession h c) (hdrawn : ∀ e ∈ h, Drawn e w) :
    ∀ r ∈ (exec bm25 c w).2.db.memories, r.Sessioned (exec bm25 c w).2.minted := by
  refine fun r hr => MemoryRow.Sessioned.mono ?_ (minted_exec bm25 c w)
  revert r
  refine exec_keeps (P := fun d => ∀ r ∈ d.memories, r.Sessioned w.minted) bm25 hrows ?_ fun llm pairs _ => ?_
  · rintro wr a db rfl happly
    refine Write.forall_rows ?_ (fun _ _ _ _ r _ _ hr => hr) (fun _ f hf r hr => ?_) hrows happly
    · rintro row rfl
      obtain ⟨-, ⟨args, id, vector, now, rfl⟩ | ⟨user, rows, marked, group, id, text, vector, now, -, -, rfl⟩⟩ := hc.1
      · rw [MemoryRow.Sessioned, storedRow_unretrieved.1, storedRow_unretrieved.2]
        exact ⟨le_rfl, nofun⟩
      · exact ⟨le_rfl, nofun⟩
    · cases wr with
      | applyDirectBoost user boosts now session =>
        obtain ⟨b, -, rfl⟩ := hf
        obtain ⟨owner, raw, hanswer, rfl⟩ := hc.2
        refine ⟨Int.add_nonneg hr.1 (by decide), fun s hs => ?_⟩
        simp only [boostRow] at hs
        split at hs
        · exact hr.2 s hs
        · rcases List.mem_append.mp hs with hs | hs
          · exact hr.2 s hs
          · exact ⟨raw, owner, List.mem_singleton.mp hs, hdrawn _ hanswer⟩
      | updateRetentionScores | tickExpire =>
        obtain ⟨u, -, rfl⟩ := hf
        exact hr
      | tickFloor =>
        rcases hf with rfl | rfl | rfl
        all_goals exact hr
      | updateMemory | promoteToCore | markSuperseded | migrateToCold | migrateToHot | migrateToHotMany | convertToStub
        | queueConflicts | supersedeCluster =>
        cases hf
        exact hr
      | _ => exact hf.elim
  · exact resolving_forall_rows (fun _ _ hr => hr) (fun _ _ hr => hr) (fun _ _ _ _ _ hr => hr) llm w.oracle.llm pairs hrows

theorem Reachable.sessioned [Elementary F] (h : Reachable bm25 anyCaller guard w) :
    ∀ r ∈ w.db.memories, r.Sessioned w.minted := by
  obtain ⟨w₀, ts, hstart, hreach⟩ := h
  have hentry : ∀ (t : Caller F) (p : HandlerM F (ResponseData F)), Serving anyCaller t p →
      p.Issues (fun h c => t.derives h c ∧ drawsSession h c) (fun _ _ => True) [] := by
    rintro t p ⟨-, rfl⟩
    exact ((issues_derived t).and (issues_draws t)).imp fun _ _ _ => trivial
  have hanswer : ∀ (c : Cmd F) (s : World F), Drawn ⟨c, (exec bm25 c s).1⟩ (exec bm25 c s).2 := by
    intro c s
    cases c with
    | ulid owner => exact List.mem_cons_self
    | _ => exact True.intro
  have hstable : ∀ (e : (c : Cmd F) × c.Res) (c : Cmd F) (s : World F), Drawn e s → Drawn e (exec bm25 c s).2 := by
    rintro ⟨c', r⟩ c s hd
    cases c' with
    | ulid owner => exact minted_exec bm25 c s hd
    | _ => exact True.intro
  have hkeeps : ∀ (t : Caller F) (h : Seen F) (c : Cmd F) (s : World F), (∀ r ∈ s.db.memories, r.Sessioned s.minted) →
      t.derives h c ∧ drawsSession h c → (∀ e ∈ h, Drawn e s) →
        ∀ r ∈ (exec bm25 c s).2.db.memories, r.Sessioned (exec bm25 c s).2.minted := fun t h c s => sessioned_exec
  refine reach_issues (J := fun w => ∀ r ∈ w.db.memories, r.Sessioned w.minted) hentry hanswer hstable hkeeps hreach ?_
  show ∀ r ∈ w₀.db.memories, r.Sessioned w₀.minted
  rw [hstart.db]
  exact fun r hr => absurd hr List.not_mem_nil

/-! ## Refinement -/

/-- A retrieved row of the user that is no stub is strengthened, any other row stays. -/
structure Strengthens (cfg : LifecycleConfig F) (userId : String) (retrieved : List (String × ResultSource)) (now : Int)
    (session : String) (r r' : MemoryRow F) : Prop where
  hit : ∀ source, (r.id, source) ∈ retrieved → r.userId = userId → r.isStub = false → r' = r.strengthened cfg source now session
  other : r.isStub = true ∨ r.userId ≠ userId ∨ r.id ∉ retrieved.map Prod.fst → r' = r

theorem strengthens_afterRetrieval {cfg : LifecycleConfig F} {userId : String}
    {retrieved : List (String × ResultSource)} {now : Int}
    {session : String} (hnd : (retrieved.map Prod.fst).Nodup) (r : MemoryRow F) :
    Strengthens cfg userId retrieved now session r (r.afterRetrieval cfg userId retrieved now session) := by
  constructor
  · intro source hmem huser hstub
    unfold MemoryRow.afterRetrieval
    rw [lookup_of_mem hnd hmem]
    exact if_pos ⟨huser, hstub⟩
  · intro hother
    unfold MemoryRow.afterRetrieval
    cases hsource : retrieved.lookup r.id with
    | none => rfl
    | some source =>
      refine if_neg fun hhit => ?_
      rcases hother with hstub | huser | hid
      · rw [hhit.2] at hstub
        cases hstub
      · exact huser hhit.1
      · exact hid (mem_keys_iff.mpr ⟨source, hsource⟩)

/-- What a search without concurrent requests makes of the rows is what the lifecycle crate makes of the
states they stand for; it ends with an error only if the database fails below. -/
theorem strengthening_refines_lifecycle [Elementary F] (h : Reachable bm25 anyCaller anyStep w) {app : AppState F}
    (hcfg : app.lifecycle.coreAccessThreshold < 2 ^ 63) {retrieved : List (String × ResultSource)}
    (hnd : (retrieved.map Prod.fst).Nodup) (userId : String) (now : Int) :
    match (applyPostRetrievalStrengthening app userId retrieved now).run (exec bm25) w with
    | (.ok _, w') => ∃ session, (∀ r ∈ w.db.memories, session ∉ r.sessionIds) ∧
        List.Forall₂ (Strengthens app.lifecycle userId retrieved now session) w.db.memories w'.db.memories
    | (.error e, _) => e = .storage .io := by
  have hrows := h.sessioned
  have hcounts : ∀ r ∈ w.db.memories, 0 ≤ r.retrievalCount := fun r hr => (hrows r hr).1
  have hpending : ∀ r ∈ w.db.memories, "__pending__" ∉ r.sessionIds := by
    intro r hr hs
    obtain ⟨raw, owner, heq, -⟩ := (hrows r hr).2 _ hs
    have hchars := congrArg String.toList heq
    simp at hchars
  have hfresh : ∀ r ∈ w.db.memories, "s_" ++ w.oracle.ulid 0 ∉ r.sessionIds := by
    intro r hr hs
    obtain ⟨raw, owner, heq, hdrawn⟩ := (hrows r hr).2 _ hs
    rw [String.append_right_inj] at heq
    exact (h.sound any_serves).fresh 0 owner (heq ▸ hdrawn)
  have hwp : (applyPostRetrievalStrengthening app userId retrieved now).wp (exec bm25)
      (fun _ w' => w'.db.memories = w.db.memories.map
      (MemoryRow.afterRetrieval app.lifecycle userId retrieved now ("s_" ++ w.oracle.ulid 0))) (· = .storage .io) w :=
    wp_strengthening h.keyed hcfg hcounts hpending hfresh retrieved
  obtain ⟨hok, herr⟩ := wp_run.mp hwp
  cases hrun : (applyPostRetrievalStrengthening app userId retrieved now).run (exec bm25) w with
  | mk answer w' =>
    cases answer with
    | error e => exact herr e w' hrun
    | ok a =>
      refine ⟨"s_" ++ w.oracle.ulid 0, hfresh, ?_⟩
      rw [hok a w' hrun, List.forall₂_map_right_iff, List.forall₂_same]
      exact fun r _ => strengthens_afterRetrieval hnd r

end

/-! ### Tea -/

def storedTea : World ℚ := (batch "alice" ["tea"]).serve Bm25.none World.quiet

theorem strengthening_refines_lifecycle_tea :
    match (applyPostRetrievalStrengthening AppState.flat "alice" [("mem_", .direct)] 604800).run (exec Bm25.none) storedTea with
    | (.ok _, w') => ∃ session, (∀ r ∈ storedTea.db.memories, session ∉ r.sessionIds) ∧
        List.Forall₂ (Strengthens AppState.flat.lifecycle "alice" [("mem_", .direct)] 604800 session)
          storedTea.db.memories w'.db.memories
    | (.error e, _) => e = .storage .io := by
  have hreach : Reachable Bm25.none anyCaller anyStep storedTea := quiet_start.reachable.serve trivial fun _ _ => trivial
  have hcfg : AppState.flat.lifecycle.coreAccessThreshold < 2 ^ 63 := by decide
  have hnd : ([("mem_", ResultSource.direct)].map Prod.fst).Nodup := by decide
  exact strengthening_refines_lifecycle hreach hcfg hnd "alice" 604800

end CognitiveMemory
