import CognitiveMemory.Store.Effects

/-! What the schema's keys and triggers maintain: ids are unique, the full-text index has one
entry for each memory, and edges join memories that exist. -/

namespace CognitiveMemory
variable {F : Type}

theorem keyed_exec [Field F] [LinearOrder F] (bm25 : Bm25 F) {w : World F} {c : Cmd F} (h : w.db.Keyed) :
    (exec bm25 c w).2.db.Keyed := by
  refine exec_keeps bm25 h (fun _ _ _ _ happly => Write.keyed h happly) fun llm pairs _ => ?_
  unfold Db.Keyed
  rw [(resolving_effects llm w.oracle.llm pairs ⟨w.db, 0, 0⟩).1.ids]
  exact h

/-! ## The full-text index -/

def MemoryRow.text (r : MemoryRow F) : FtsRow := ⟨r.id, r.content⟩

/-- One entry for each memory, with its current text. -/
def Db.Indexed (db : Db F) : Prop := db.memoriesFts.Perm (db.memories.map MemoryRow.text)

theorem Db.Follows.texts {db' db : Db F} (h : db'.Follows db) : db'.memories.map MemoryRow.text =
    db.memories.map MemoryRow.text := by
  refine map_eq (fun r' r hr => ?_) h
  simp only [MemoryRow.text, hr.id, hr.content]

theorem Write.index_same [Field F] [LinearOrder F] {w : Write F} {db db' : Db F} {a : w.Res} (hw : ¬ w.restates)
    (h : w.apply db = .ok (a, db')) :
    db'.memoriesFts = db.memoriesFts := by
  cases w with
  | insertMemory | updateMemory | deleteMemory | deleteMany | clearUser => exact absurd trivial hw
  | applyDirectBoost | promoteToCore | updateRetentionScores | migrateToHotMany | supersedeCluster =>
    cases h
    exact (sameRest_modifyEach _ _ _ _).memoriesFts
  | markSuperseded | migrateToCold | migrateToHot | convertToStub | deleteEdge | deleteEdgeBidirectional =>
    cases h
    rfl
  | upsertEdge a b existing bump now kind =>
    obtain ⟨d, hd, hp⟩ := map_ok h
    cases hp
    exact (upsertAssociation_memories hd).2.2.2
  | strengthenPairs pairs amount now kind =>
    obtain ⟨d, hd, hp⟩ := map_ok h
    cases hp
    exact (strengthenPairs_memories hd).2.2.2
  | cacheInsert row =>
    cases h
    unfold Db.cacheInsert
    split <;> rfl
  | insertBridgeToken row =>
    simp only [apply] at h
    split at h <;> cases h
    rfl
  | queueConflicts userId newId hits now =>
    obtain ⟨d, hd, hp⟩ := map_ok h
    cases hp
    exact (cache_queueConflicts hd).2
  | tickFloor rows now =>
    cases h
    exact (Db.SameRest.foldl (sameRest_tickFloorRow now) rows db).memoriesFts
  | tickExpire rows =>
    cases h
    exact (Db.SameRest.foldl sameRest_tickExpireRow rows db).memoriesFts

theorem updateMemory_indexed {db : Db F} (hk : db.Keyed) (hi : db.Indexed) {r : MemoryRow F} (hr : r ∈ db.memories)
    {upd : MemoryUpdate F} {content : String} (hcontent : upd.content = some content) :
    (db.memoriesFts.filter (fun d : FtsRow => d.id != r.id) ++ [FtsRow.mk r.id content]).Perm
      ((db.modify (owned r.userId r.id) upd.set).memories.map MemoryRow.text) := by
  refine ((hi.filter _).append_right _).trans ?_
  unfold Db.modify
  obtain ⟨before, after, hsplit⟩ := List.append_of_mem hr
  have hapart : (r :: (before ++ after)).map MemoryRow.id |>.Nodup := by
    have hk' := hk
    unfold Db.Keyed at hk'
    rw [hsplit, List.map_append, List.map_cons, List.nodup_middle] at hk'
    simpa using hk'
  rw [List.map_cons, List.nodup_cons, List.map_append, List.mem_append, not_or] at hapart
  have hothers : ∀ xs : List (MemoryRow F), r.id ∉ xs.map MemoryRow.id →
      (xs.map MemoryRow.text).filter (fun d : FtsRow => d.id != r.id) = xs.map MemoryRow.text ∧
        (xs.map fun x => if owned r.userId r.id x then upd.set x else x) = xs := by
    intro xs hxs
    have hne : ∀ x ∈ xs, x.id ≠ r.id := fun x hx heq => hxs (List.mem_map.mpr ⟨x, hx, heq⟩)
    constructor
    · refine List.filter_eq_self.mpr fun d hd => ?_
      obtain ⟨x, hx, rfl⟩ := List.mem_map.mp hd
      exact bne_iff_ne.mpr (hne x hx)
    · refine (List.map_congr_left fun x hx => ?_).trans (List.map_id' xs)
      rw [if_neg]
      simp [owned, hne x hx]
  obtain ⟨hbefore, hbefore'⟩ := hothers before hapart.1.1
  obtain ⟨hafter, hafter'⟩ := hothers after hapart.1.2
  have htext : (upd.set r).text = ⟨r.id, content⟩ := by simp [MemoryRow.text, MemoryUpdate.set, hcontent]
  have hself : (r.text.id != r.id) = false := by simp [MemoryRow.text]
  have hown : owned r.userId r.id r = true := by simp [owned]
  rw [hsplit]
  simp only [List.map_append, List.map_cons, List.filter_append, List.filter_cons, hself, hbefore, hafter, hbefore', hafter',
    hown, htext, if_true, Bool.false_eq_true, if_false, List.append_assoc]
  exact List.perm_append_comm.append_left _

theorem deleteMemories_indexed {db : Db F} (hk : db.Keyed) (hi : db.Indexed) (p : MemoryRow F → Bool) :
    (db.deleteMemories p).Indexed := by
  refine (hi.filter _).trans (List.Perm.of_eq ?_)
  rw [List.filter_map]
  refine congrArg _ (List.filter_congr fun r hr => ?_)
  have hgone : ((db.memories.filter p).map MemoryRow.id).contains r.id = p r := by
    rw [Bool.eq_iff_iff, List.contains_iff_mem]
    constructor
    · intro hmem
      obtain ⟨r', hr', hid⟩ := List.mem_map.mp hmem
      obtain ⟨hmem', hp⟩ := List.mem_filter.mp hr'
      rw [← hk.eq_of_id hmem' hr hid]
      exact hp
    · exact fun hp => List.mem_map_of_mem (List.mem_filter.mpr ⟨hr, hp⟩)
  simp only [Function.comp_apply, MemoryRow.text, hgone]

theorem Write.indexed [Field F] [LinearOrder F] {w : Write F} {db db' : Db F} {a : w.Res} (hk : db.Keyed) (hi : db.Indexed)
    (h : w.apply db = .ok (a, db')) : db'.Indexed := by
  by_cases hw : w.restates
  · cases w with
    | insertMemory row =>
      obtain ⟨d, hd, hp⟩ := map_ok h
      cases hp
      rw [insertMemory_ok hd]
      unfold Db.Indexed
      rw [List.map_append]
      exact List.Perm.append_right _ hi
    | updateMemory userId id upd =>
      cases h
      have hsame : (∀ r ∈ db.memories, owned userId id r → (upd.set r).text = r.text) →
          (db.modify (owned userId id) upd.set).Indexed := by
        intro hset
        refine hi.trans (List.Perm.of_eq ?_)
        simp only [Db.modify, List.map_map]
        refine List.map_congr_left fun r hr => ?_
        simp only [Function.comp_apply]
        split
        · exact (hset r hr ‹_›).symm
        · rfl
      unfold Db.updateMemory
      dsimp only
      split
      · rename_i hcontent
        exact hsame fun r _ _ => by simp [MemoryRow.text, MemoryUpdate.set, hcontent]
      · rename_i content hcontent
        split
        · rename_i hany
          obtain ⟨r, hr, ho⟩ := List.any_eq_true.mp hany
          simp only [owned, Bool.and_eq_true, beq_iff_eq] at ho
          obtain ⟨rfl, rfl⟩ := ho
          exact updateMemory_indexed hk hi hr hcontent
        · rename_i hnone
          exact hsame fun r hr ho => absurd (List.any_eq_true.mpr ⟨r, hr, ho⟩) hnone
    | deleteMemory | deleteMany | clearUser =>
      cases h
      exact deleteMemories_indexed hk hi _
    | _ => exact hw.elim
  · unfold Db.Indexed
    rw [(follows hw h).texts, index_same hw h]
    exact hi

theorem indexed_exec [Field F] [LinearOrder F] (bm25 : Bm25 F) {w : World F} {c : Cmd F} (hk : w.db.Keyed)
    (h : w.db.Indexed) :
    (exec bm25 c w).2.db.Indexed := by
  refine exec_keeps bm25 h (fun _ _ _ _ happly => Write.indexed hk h happly) fun llm pairs _ => ?_
  obtain ⟨hf, -, -, -, hfts⟩ := resolving_effects llm w.oracle.llm pairs ⟨w.db, 0, 0⟩
  unfold Db.Indexed
  rw [hfts, hf.texts]
  exact h

/-! ## Foreign keys -/

/-- Both ends of every edge exist. -/
def Db.Joined (db : Db F) : Prop := ∀ e ∈ db.associations, db.hasMemory e.sourceMemoryId ∧ db.hasMemory e.targetMemoryId

theorem Db.Joined.of_subset {db db' : Db F} (h : db.Joined) (hassoc : db'.associations ⊆ db.associations)
    (hmem : ∀ id, db.hasMemory id → db'.hasMemory id) : db'.Joined := fun e he =>
  ⟨hmem _ (h e (hassoc he)).1, hmem _ (h e (hassoc he)).2⟩

theorem hasMemory_of_ids {db db' : Db F} (h : db'.memories.map MemoryRow.id = db.memories.map MemoryRow.id) (id : String) :
    db.hasMemory id ↔ db'.hasMemory id := by
  have hids : ∀ d : Db F, d.hasMemory id ↔ id ∈ d.memories.map MemoryRow.id := by simp [hasMemory_iff]
  rw [hids, hids, h]

theorem joined_modify {db : Db F} (h : db.Joined) (p : MemoryRow F → Bool) {f : MemoryRow F → MemoryRow F}
    (hf : ∀ r, (f r).id = r.id) : (db.modify p f).Joined := by
  refine h.of_subset (List.Subset.refl _) fun id => (hasMemory_of_ids ?_ id).mp
  simp only [Db.modify, List.map_map]
  refine List.map_congr_left fun r _ => ?_
  simp only [Function.comp_apply]
  split
  · exact hf r
  · rfl

theorem joined_upsert {db db' : Db F} {row : AssociationRow F} {f : AssociationRow F → AssociationRow F} (h : db.Joined)
    (hup : db.upsertAssociation row f = .ok db')
    (hf : ∀ e, (f e).sourceMemoryId = e.sourceMemoryId ∧ (f e).targetMemoryId = e.targetMemoryId) : db'.Joined := by
  intro e he
  unfold Db.hasMemory
  rw [(upsertAssociation_memories hup).1]
  rcases upsertAssociation_endpoints hup hf e he with ⟨e₀, he₀, hs, ht⟩ | ⟨rfl, hs, ht⟩
  · rw [← hs, ← ht]
    exact h e₀ he₀
  · exact ⟨hs, ht⟩

theorem joined_queueConflicts [Field F] [LinearOrder F] {userId newId : String} {now : Int}
    {hits : List (String × F)} {db db' : Db F}
    (h : db.Joined) (hq : db.queueConflicts userId newId now hits = .ok db') : db'.Joined := by
  refine queueConflicts_keeps (R := fun d' d => d.Joined → d'.Joined) (fun _ h => h) (fun h h' hj => h' (h hj)) ?_ hq h
  intro hit _ d d' hd hj
  cases hd with
  | pass => exact hj
  | queue _ hq =>
    obtain ⟨hmem, hassoc, -⟩ := queueConflict_memories hq
    exact hj.of_subset (fun e he => hassoc ▸ he) fun id => (hasMemory_of_ids (by rw [hmem]) id).mp
  | reinforce =>
    refine joined_modify hj _ ?_
    exact fun _ => rfl
  | tag h₁ h₂ => exact joined_upsert (joined_upsert hj h₁ fun _ => ⟨rfl, rfl⟩) h₂ fun _ => ⟨rfl, rfl⟩

theorem deleteMemories_joined {db : Db F} (h : db.Joined) (p : MemoryRow F → Bool) : (db.deleteMemories p).Joined := by
  have hstays : ∀ id, db.hasMemory id → ((db.memories.filter p).map MemoryRow.id).contains id = false →
      (db.deleteMemories p).hasMemory id := by
    intro id hid hgone
    obtain ⟨r, hr, rfl⟩ := hasMemory_iff.mp hid
    refine hasMemory_iff.mpr ⟨r, List.mem_filter.mpr ⟨hr, ?_⟩, rfl⟩
    by_contra hp
    have hmem : r.id ∈ (db.memories.filter p).map MemoryRow.id :=
      List.mem_map_of_mem (List.mem_filter.mpr ⟨hr, by simpa using hp⟩)
    rw [← List.contains_iff_mem, hgone] at hmem
    exact nomatch hmem
  intro e he
  obtain ⟨hmem, hkeep⟩ := List.mem_filter.mp he
  simp only [Bool.and_eq_true, Bool.not_eq_true'] at hkeep
  exact ⟨hstays _ (h e hmem).1 hkeep.1, hstays _ (h e hmem).2 hkeep.2⟩

variable [Field F] [LinearOrder F]

theorem Write.joined {w : Write F} {db db' : Db F} {a : w.Res} (hj : db.Joined) (h : w.apply db = .ok (a, db')) :
    db'.Joined := by
  by_cases hw : w.restates
  · cases w with
    | insertMemory row =>
      obtain ⟨d, hd, hp⟩ := map_ok h
      cases hp
      rw [insertMemory_ok hd]
      refine hj.of_subset (List.Subset.refl _) fun id hid => ?_
      obtain ⟨r, hr, hrid⟩ := hasMemory_iff.mp hid
      exact hasMemory_iff.mpr ⟨r, List.mem_append_left _ hr, hrid⟩
    | updateMemory userId id upd =>
      cases h
      obtain ⟨hmem, hassoc, -⟩ := updateMemory_tables db userId id upd
      refine (joined_modify hj (owned userId id) fun r => ?_).of_subset (fun e he => hassoc ▸ he)
        fun x => (hasMemory_of_ids (by rw [hmem]) x).mp
      rfl
    | deleteMemory | deleteMany | clearUser =>
      cases h
      exact deleteMemories_joined hj _
    | _ => exact hw.elim
  · by_cases he : w.writesEdges
    · cases w with
      | upsertEdge a b existing bump now kind =>
        obtain ⟨d, hd, hp⟩ := map_ok h
        cases hp
        exact joined_upsert hj hd fun _ => ⟨rfl, rfl⟩
      | strengthenPairs pairs amount now kind =>
        obtain ⟨d, hd, hp⟩ := map_ok h
        cases hp
        refine foldlM_ok (R := fun d' d => d.Joined → d'.Joined) (fun _ => id) (fun h h' hd => h' (h hd)) ?_ hd hj
        exact fun d e d' hstep hd => joined_upsert hd hstep fun _ => ⟨rfl, rfl⟩
      | queueConflicts userId newId hits now =>
        obtain ⟨d, hd, hp⟩ := map_ok h
        cases hp
        exact joined_queueConflicts hj hd
      | _ => exact he.elim
    · exact hj.of_subset (associations_subset he h) fun id => (hasMemory_of_ids (follows hw h).ids id).mp

theorem joined_exec (bm25 : Bm25 F) {w : World F} {c : Cmd F} (h : w.db.Joined) : (exec bm25 c w).2.db.Joined := by
  refine exec_keeps bm25 h (fun _ _ _ _ happly => Write.joined h happly) fun llm pairs _ => ?_
  obtain ⟨hf, hassoc, -⟩ := resolving_effects llm w.oracle.llm pairs ⟨w.db, 0, 0⟩
  exact h.of_subset (fun e he => hassoc ▸ he) fun id => (hasMemory_of_ids hf.ids id).mp

end CognitiveMemory
