import CognitiveMemory.Store.Integrity
import CognitiveMemory.Store.Resolver

/-! The constraints the schema declares: primary keys, UNIQUE columns and the references of queue
entries, in every database that statements leave. -/

namespace CognitiveMemory
variable {F : Type} {db db' : Db F}

def AssociationRow.ends (e : AssociationRow F) : String × String := (e.sourceMemoryId, e.targetMemoryId)

def ConflictRow.key (c : ConflictRow F) : String × String × String := (c.userId, c.newMemoryId, c.existingMemoryId)

def CacheRow.key (c : CacheRow F) : String × String × List UInt8 := (c.provider, c.model, c.textHash)

def Db.Queued (db : Db F) : Prop := ∀ c ∈ db.conflictQueue, c.newMemoryId ≠ c.existingMemoryId ∧
  db.hasMemory c.newMemoryId ∧ db.hasMemory c.existingMemoryId

/-- What the schema declares of every table. -/
structure Db.Intact (db : Db F) : Prop where
  ids : db.Keyed
  index : db.Indexed
  edges : (db.associations.map AssociationRow.ends).Nodup
  joined : db.Joined
  numbers : db.QueueNumbered
  pairs : (db.conflictQueue.map ConflictRow.key).Nodup
  queued : db.Queued
  cached : (db.embeddingCache.map CacheRow.key).Nodup
  tokens : (db.bridgeTokens.map BridgeTokenRow.key).Nodup

theorem intact_empty : (Db.empty : Db F).Intact := by
  refine ⟨?_, ?_, ?_, ?_, ?_, ?_, ?_, ?_, ?_⟩ <;>
    simp [Db.empty, Db.Keyed, Db.Indexed, Db.Joined, Db.QueueNumbered, Db.Queued]

/-! ## What statements leave of the other tables -/

def Write.queues : Write F → Prop
  | .queueConflicts .. => True
  | _ => False

def Write.caches : Write F → Prop
  | .cacheInsert _ => True
  | _ => False

structure Db.Sheds (w : Write F) (db db' : Db F) : Prop where
  associations : ¬ w.writesEdges → db'.associations.Sublist db.associations
  conflictQueue : ¬ w.queues → db'.conflictQueue.Sublist db.conflictQueue
  embeddingCache : ¬ w.caches → db'.embeddingCache = db.embeddingCache

theorem Db.SameRest.sheds {w : Write F} (h : db'.SameRest db) : Db.Sheds w db db' :=
  ⟨fun _ => h.associations ▸ .refl _, fun _ => h.conflictQueue ▸ .refl _, fun _ => h.embeddingCache⟩

theorem Write.sheds [Field F] [LinearOrder F] {w : Write F} {a : w.Res} (h : w.apply db = .ok (a, db')) :
    Db.Sheds w db db' := by
  cases w with
  | insertMemory row =>
    obtain ⟨d, hd, hp⟩ := map_ok h
    cases hp
    rw [insertMemory_ok hd]
    exact ⟨fun _ => .refl _, fun _ => .refl _, fun _ => rfl⟩
  | updateMemory userId id upd =>
    cases h
    obtain ⟨-, hedges, hqueue, hcache⟩ := updateMemory_tables db userId id upd
    exact ⟨fun _ => hedges ▸ .refl _, fun _ => hqueue ▸ .refl _, fun _ => hcache⟩
  | deleteMemory | deleteMany | clearUser =>
    cases h
    exact ⟨fun _ => List.filter_sublist, fun _ => List.filter_sublist, fun _ => rfl⟩
  | deleteEdge | deleteEdgeBidirectional =>
    cases h
    exact ⟨fun _ => List.filter_sublist, fun _ => .refl _, fun _ => rfl⟩
  | applyDirectBoost | promoteToCore | updateRetentionScores | migrateToHotMany | supersedeCluster =>
    cases h
    exact (sameRest_modifyEach _ _ _ _).sheds
  | markSuperseded | migrateToCold | migrateToHot | convertToStub =>
    cases h
    exact Db.SameRest.sheds ⟨rfl, rfl, rfl, rfl⟩
  | upsertEdge a b existing bump now kind =>
    obtain ⟨d, hd, hp⟩ := map_ok h
    cases hp
    obtain ⟨-, hqueue, hcache, -⟩ := upsertAssociation_memories hd
    exact ⟨fun hw => absurd trivial hw, fun _ => hqueue ▸ .refl _, fun _ => hcache⟩
  | strengthenPairs pairs amount now kind =>
    obtain ⟨d, hd, hp⟩ := map_ok h
    cases hp
    obtain ⟨-, hqueue, hcache, -⟩ := strengthenPairs_memories hd
    exact ⟨fun hw => absurd trivial hw, fun _ => hqueue ▸ .refl _, fun _ => hcache⟩
  | cacheInsert row =>
    cases h
    unfold Db.cacheInsert
    split <;> exact ⟨fun _ => .refl _, fun _ => .refl _, fun hw => absurd trivial hw⟩
  | insertBridgeToken row =>
    simp only [apply] at h
    split at h <;> cases h
    exact ⟨fun _ => .refl _, fun _ => .refl _, fun _ => rfl⟩
  | queueConflicts userId newId hits now =>
    obtain ⟨d, hd, hp⟩ := map_ok h
    cases hp
    exact ⟨fun hw => absurd trivial hw, fun hw => absurd trivial hw, fun _ => (cache_queueConflicts hd).1⟩
  | tickFloor rows now =>
    cases h
    exact (Db.SameRest.foldl (sameRest_tickFloorRow now) rows db).sheds
  | tickExpire rows =>
    cases h
    exact (Db.SameRest.foldl sameRest_tickExpireRow rows db).sheds

theorem resolving_queue [Field F] [LinearOrder F] (llm : Bool) (answers : ℕ → String → Except String String)
    (pairs : List ConflictPair)
    (acc : Resolving F) : (pairs.foldl (Resolving.pair llm answers) acc).db.conflictQueue.Sublist acc.db.conflictQueue := by
  induction pairs generalizing acc with
  | nil => exact .refl _
  | cons p pairs ih =>
    have hresolve : (acc.resolve llm answers p).db.conflictQueue = acc.db.conflictQueue :=
      (resolve_effects llm answers acc p).2.conflictQueue
    have hpair : (acc.pair llm answers p).db.conflictQueue.Sublist (acc.resolve llm answers p).db.conflictQueue :=
      List.filter_sublist
    exact (ih _).trans (hresolve ▸ hpair)

/-! ## Unique edges -/

theorem edges_upsert {row : AssociationRow F} {f : AssociationRow F → AssociationRow F}
    (h : (db.associations.map AssociationRow.ends).Nodup) (hup : db.upsertAssociation row f = .ok db')
    (hf : ∀ e, (f e).ends = e.ends) : (db'.associations.map AssociationRow.ends).Nodup := by
  unfold Db.upsertAssociation at hup
  split at hup
  · cases hup
    have hends : (db.associations.map fun e => if e.sourceMemoryId == row.sourceMemoryId &&
        e.targetMemoryId == row.targetMemoryId then f e else e).map AssociationRow.ends =
          db.associations.map AssociationRow.ends := by
      rw [List.map_map]
      apply List.map_congr_left
      intro e _
      simp only [Function.comp_apply]
      split
      · exact hf e
      · rfl
    exact hends ▸ h
  · rename_i hnone
    split at hup <;> cases hup
    rw [List.map_append, List.nodup_append]
    refine ⟨h, List.nodup_singleton _, ?_⟩
    rintro _ ha _ hb rfl
    obtain ⟨e, he, heq⟩ := List.mem_map.mp ha
    rw [List.mem_singleton.mp hb] at heq
    simp only [AssociationRow.ends, Prod.mk.injEq] at heq
    apply hnone
    exact List.find?_isSome.mpr ⟨e, he, by simp [heq]⟩

theorem edges_queueConflicts [Field F] [LinearOrder F] {userId newId : String} {now : Int} {hits : List (String × F)}
    (h : (db.associations.map AssociationRow.ends).Nodup) (hq : db.queueConflicts userId newId now hits = .ok db') :
    (db'.associations.map AssociationRow.ends).Nodup := by
  refine queueConflicts_keeps (R := fun d' d => (d.associations.map AssociationRow.ends).Nodup →
    (d'.associations.map AssociationRow.ends).Nodup) (fun _ h => h) (fun h h' hd => h' (h hd)) ?_ hq h
  intro hit _ d d' hd hn
  cases hd with
  | pass | reinforce => exact hn
  | queue _ hq => exact (queueConflict_memories hq).2.1 ▸ hn
  | tag h₁ h₂ =>
    have hforth := edges_upsert hn h₁ fun _ => rfl
    exact edges_upsert hforth h₂ fun _ => rfl

theorem Write.edges_unique [Field F] [LinearOrder F] {w : Write F} {a : w.Res}
    (h : (db.associations.map AssociationRow.ends).Nodup)
    (happly : w.apply db = .ok (a, db')) : (db'.associations.map AssociationRow.ends).Nodup := by
  by_cases hw : w.writesEdges
  · cases w with
    | upsertEdge s t existing bump now kind =>
      obtain ⟨d, hd, hp⟩ := map_ok happly
      cases hp
      exact edges_upsert h hd fun _ => rfl
    | strengthenPairs pairs amount now kind =>
      obtain ⟨d, hd, hp⟩ := map_ok happly
      cases hp
      refine foldlM_ok (R := fun d' d => (d.associations.map AssociationRow.ends).Nodup →
        (d'.associations.map AssociationRow.ends).Nodup) (fun _ h => h) (fun h h' hd => h' (h hd)) ?_ hd h
      exact fun d e d' hstep hn => edges_upsert hn hstep fun _ => rfl
    | queueConflicts userId newId hits now =>
      obtain ⟨d, hd, hp⟩ := map_ok happly
      cases hp
      exact edges_queueConflicts h hd
    | _ => exact hw.elim
  · exact h.sublist (((sheds happly).associations hw).map _)

/-! ## The conflict queue -/

/-- A new entry stands for a pair that was not queued, of two memories that exist. -/
theorem pairs_queueConflict {userId newId existingId : String} {sim : F} {now : Int}
    (h : (db.conflictQueue.map ConflictRow.key).Nodup) (hq : db.queueConflict userId newId existingId sim now = .ok db') :
    (db'.conflictQueue.map ConflictRow.key).Nodup := by
  unfold Db.queueConflict at hq
  split at hq
  · cases hq
    exact h
  · rename_i hnone
    split at hq <;> cases hq
    rw [List.map_append, List.nodup_append]
    refine ⟨h, List.nodup_singleton _, ?_⟩
    rintro _ ha _ hb rfl
    obtain ⟨c, hc, heq⟩ := List.mem_map.mp ha
    rw [List.mem_singleton.mp hb] at heq
    simp only [ConflictRow.key, Prod.mk.injEq] at heq
    apply hnone
    exact List.any_eq_true.mpr ⟨c, hc, by simp [heq]⟩

theorem queued_queueConflict_ends {userId newId existingId : String} {sim : F} {now : Int} (h : db.Queued)
    (hne : existingId ≠ newId) (hq : db.queueConflict userId newId existingId sim now = .ok db') : db'.Queued := by
  unfold Db.queueConflict at hq
  split at hq
  · cases hq
    exact h
  · split at hq <;> cases hq
    rename_i hends
    obtain ⟨hnew, hold⟩ := Bool.and_eq_true_iff.mp hends
    intro c hc
    rcases List.mem_append.mp hc with hc | hc
    · exact h c hc
    · rw [List.mem_singleton.mp hc]
      exact ⟨hne.symm, hnew, hold⟩

theorem Db.Queued.of_ids (h : db.Queued) (hqueue : db'.conflictQueue ⊆ db.conflictQueue)
    (hids : db'.memories.map MemoryRow.id = db.memories.map MemoryRow.id) : db'.Queued := by
  intro c hc
  obtain ⟨hne, hnew, hold⟩ := h c (hqueue hc)
  exact ⟨hne, (hasMemory_of_ids hids _).mp hnew, (hasMemory_of_ids hids _).mp hold⟩

variable [Field F] [LinearOrder F]

theorem follows_reinforce (userId id : String) (db : Db F) :
    (db.modify (owned userId id) fun r => { r with stability := min 1 (r.stability + 5 / 100) }).Follows db :=
  .modify db _ fun _ => ⟨rfl, rfl, rfl, rfl, rfl, .inl rfl⟩

theorem queue_queueConflicts {userId newId : String} {now : Int} {hits : List (String × F)}
    (h : (db.conflictQueue.map ConflictRow.key).Nodup ∧ db.Queued) (hq : db.queueConflicts userId newId now hits = .ok db') :
    (db'.conflictQueue.map ConflictRow.key).Nodup ∧ db'.Queued := by
  refine queueConflicts_keeps (R := fun d' d => (d.conflictQueue.map ConflictRow.key).Nodup ∧ d.Queued →
    (d'.conflictQueue.map ConflictRow.key).Nodup ∧ d'.Queued) (fun _ h => h) (fun h h' hd => h' (h hd)) ?_ hq h
  intro hit _ d d' hd hn
  cases hd with
  | pass => exact hn
  | reinforce =>
    have hfollows := follows_reinforce userId hit.1 d
    exact ⟨hn.1, hn.2.of_ids (List.Subset.refl _) hfollows.ids⟩
  | queue hne hq => exact ⟨pairs_queueConflict hn.1 hq, queued_queueConflict_ends hn.2 hne hq⟩
  | tag h₁ h₂ =>
    obtain ⟨hmem₁, hqueue₁, -⟩ := upsertAssociation_memories h₁
    obtain ⟨hmem₂, hqueue₂, -⟩ := upsertAssociation_memories h₂
    have hqueue : d'.conflictQueue = d.conflictQueue := hqueue₂.trans hqueue₁
    refine ⟨hqueue ▸ hn.1, hn.2.of_ids (fun c hc => hqueue ▸ hc) ?_⟩
    rw [hmem₂, hmem₁]

omit [Field F] [LinearOrder F] in
theorem deleteMemories_queued (h : db.Queued) (p : MemoryRow F → Bool) : (db.deleteMemories p).Queued := by
  have hstays : ∀ id, db.hasMemory id → ((db.memories.filter p).map MemoryRow.id).contains id = false →
      (db.deleteMemories p).hasMemory id := by
    intro id hid hgone
    obtain ⟨r, hr, rfl⟩ := hasMemory_iff.mp hid
    refine hasMemory_iff.mpr ⟨r, List.mem_filter.mpr ⟨hr, ?_⟩, rfl⟩
    by_contra hp
    have hmem : r.id ∈ (db.memories.filter p).map MemoryRow.id :=
      List.mem_map_of_mem (List.mem_filter.mpr ⟨hr, by simpa using hp⟩)
    rw [← List.contains_iff_mem, hgone] at hmem
    exact nomatch hmem
  intro c hc
  obtain ⟨hmem, hkeep⟩ := List.mem_filter.mp hc
  simp only [Bool.and_eq_true, Bool.not_eq_true'] at hkeep
  obtain ⟨hne, hnew, hold⟩ := h c hmem
  exact ⟨hne, hstays _ hnew hkeep.1, hstays _ hold hkeep.2⟩

theorem Write.queued {w : Write F} {a : w.Res} (h : (db.conflictQueue.map ConflictRow.key).Nodup ∧ db.Queued)
    (happly : w.apply db = .ok (a, db')) : (db'.conflictQueue.map ConflictRow.key).Nodup ∧ db'.Queued := by
  by_cases hw : w.queues
  · cases w with
    | queueConflicts userId newId hits now =>
      obtain ⟨d, hd, hp⟩ := map_ok happly
      cases hp
      exact queue_queueConflicts h hd
    | _ => exact hw.elim
  have hsub := (sheds happly).conflictQueue hw
  refine ⟨h.1.sublist (hsub.map _), ?_⟩
  by_cases hr : w.restates
  · cases w with
    | insertMemory row =>
      obtain ⟨d, hd, hp⟩ := map_ok happly
      cases hp
      rw [insertMemory_ok hd]
      intro c hc
      obtain ⟨hne, hnew, hold⟩ := h.2 c hc
      have hmore : ∀ id, db.hasMemory id →
          Db.hasMemory { db with memories := db.memories ++ [row], memoriesFts := db.memoriesFts ++ [⟨row.id, row.content⟩] } id := by
        intro id hid
        obtain ⟨r, hr, rfl⟩ := hasMemory_iff.mp hid
        exact hasMemory_iff.mpr ⟨r, List.mem_append_left _ hr, rfl⟩
      exact ⟨hne, hmore _ hnew, hmore _ hold⟩
    | updateMemory userId id upd =>
      cases happly
      refine h.2.of_ids hsub.subset ?_
      rw [(updateMemory_tables db userId id upd).1]
      simp only [Db.modify, List.map_map]
      apply List.map_congr_left
      intro r _
      simp only [Function.comp_apply]
      split <;> rfl
    | deleteMemory | deleteMany | clearUser =>
      cases happly
      exact deleteMemories_queued h.2 _
    | _ => exact hr.elim
  · exact h.2.of_ids hsub.subset (follows hr happly).ids

/-! ## The keys of the cache and of the bridge tokens -/

theorem Write.cache_unique {w : Write F} {a : w.Res} (h : (db.embeddingCache.map CacheRow.key).Nodup)
    (happly : w.apply db = .ok (a, db')) : (db'.embeddingCache.map CacheRow.key).Nodup := by
  by_cases hw : w.caches
  · cases w with
    | cacheInsert row =>
      cases happly
      unfold Db.cacheInsert
      split
      · exact h
      · rename_i hnone
        rw [List.map_append, List.nodup_append]
        refine ⟨h, List.nodup_singleton _, ?_⟩
        rintro _ ha _ hb rfl
        obtain ⟨c, hc, heq⟩ := List.mem_map.mp ha
        rw [List.mem_singleton.mp hb] at heq
        simp only [CacheRow.key, Prod.mk.injEq] at heq
        apply hnone
        exact List.any_eq_true.mpr ⟨c, hc, by simp [heq]⟩
    | _ => exact hw.elim
  · exact (sheds happly).embeddingCache hw ▸ h

theorem Write.tokens_unique {w : Write F} {a : w.Res} (h : (db.bridgeTokens.map BridgeTokenRow.key).Nodup)
    (happly : w.apply db = .ok (a, db')) : (db'.bridgeTokens.map BridgeTokenRow.key).Nodup := by
  have htokens := apply_tokens happly
  cases w with
  | insertBridgeToken row =>
    simp only [apply] at happly
    split at happly
    · cases happly
    · rename_i hnone
      rw [htokens, List.map_append, List.nodup_append]
      refine ⟨h, List.nodup_singleton _, ?_⟩
      rintro _ ha _ hb rfl
      obtain ⟨t, ht, heq⟩ := List.mem_map.mp ha
      rw [List.mem_singleton.mp hb] at heq
      apply hnone
      exact List.any_eq_true.mpr ⟨t, ht, by simpa using heq⟩
  | _ =>
    rw [htokens]
    simpa [tokens] using h

/-! ## Any command -/

/-- Whatever the daemon executes, in whatever order, the schema's constraints hold. -/
theorem intact_exec (bm25 : Bm25 F) {w : World F} {c : Cmd F} (h : w.db.Intact) : (exec bm25 c w).2.db.Intact := by
  have hqueue : (((exec bm25 c w).2.db.conflictQueue).map ConflictRow.key).Nodup ∧ (exec bm25 c w).2.db.Queued := by
    refine exec_keeps (P := fun db => (db.conflictQueue.map ConflictRow.key).Nodup ∧ db.Queued) bm25 ⟨h.pairs, h.queued⟩
      (fun _ _ _ _ happly => Write.queued ⟨h.pairs, h.queued⟩ happly) fun llm pairs _ => ?_
    have hsub := resolving_queue llm w.oracle.llm pairs ⟨w.db, 0, 0⟩
    have hids := (resolving_effects llm w.oracle.llm pairs ⟨w.db, 0, 0⟩).1.ids
    exact ⟨h.pairs.sublist (hsub.map _), h.queued.of_ids hsub.subset hids⟩
  refine ⟨keyed_exec bm25 h.ids, indexed_exec bm25 h.ids h.index, ?_, joined_exec bm25 h.joined,
    (requeued_exec bm25 c w).numbered h.numbers, hqueue.1, hqueue.2, ?_, ?_⟩
  · refine exec_keeps (P := fun db => (db.associations.map AssociationRow.ends).Nodup) bm25 h.edges
      (fun _ _ _ _ happly => Write.edges_unique h.edges happly) fun llm pairs _ => ?_
    exact (resolving_effects llm w.oracle.llm pairs ⟨w.db, 0, 0⟩).2.1 ▸ h.edges
  · refine exec_keeps (P := fun db => (db.embeddingCache.map CacheRow.key).Nodup) bm25 h.cached
      (fun _ _ _ _ happly => Write.cache_unique h.cached happly) fun llm pairs _ => ?_
    exact (resolving_effects llm w.oracle.llm pairs ⟨w.db, 0, 0⟩).2.2.2.1 ▸ h.cached
  · refine exec_keeps (P := fun db => (db.bridgeTokens.map BridgeTokenRow.key).Nodup) bm25 h.tokens
      (fun _ _ _ _ happly => Write.tokens_unique h.tokens happly) fun llm pairs _ => ?_
    rw [resolving_tokens]
    exact h.tokens

end CognitiveMemory
