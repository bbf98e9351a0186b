import CognitiveMemory.Store.Machine

/-! What a statement can do to each table: which rows, edges and queue entries it leaves, and
where the new ones come from. -/

namespace CognitiveMemory
variable {F : Type}

theorem lookup_of_mem {α β : Type} [BEq α] [LawfulBEq α] {l : List (α × β)} (hnd : (l.map Prod.fst).Nodup) {e : α × β}
    (he : e ∈ l) :
    l.lookup e.1 = some e.2 := by
  obtain ⟨before, after, rfl⟩ := List.append_of_mem he
  refine List.lookup_eq_some_iff.mpr ⟨before, after, rfl, fun e' he' => ?_⟩
  rw [List.map_append, List.map_cons] at hnd
  have hne := (List.nodup_append.mp hnd).2.2 e'.1 (List.mem_map_of_mem he') e.1 List.mem_cons_self
  exact bne_iff_ne.mpr hne.symm

/-! ## Rows of `memories` -/

/-- `r'` is `r` after statements that leave its text and its provider alone, and keep its
vector or drop it. -/
structure MemoryRow.Follows (r' r : MemoryRow F) : Prop where
  id : r'.id = r.id
  userId : r'.userId = r.userId
  content : r'.content = r.content
  provider : r'.embeddingProvider = r.embeddingProvider
  model : r'.embeddingModel = r.embeddingModel
  embedding : r'.embedding = r.embedding ∨ r'.embedding = none

theorem MemoryRow.Follows.refl (r : MemoryRow F) : r.Follows r := ⟨rfl, rfl, rfl, rfl, rfl, .inl rfl⟩

theorem MemoryRow.Follows.trans {a b c : MemoryRow F} (h : c.Follows b) (h' : b.Follows a) : c.Follows a where
  id := h.id.trans h'.id
  userId := h.userId.trans h'.userId
  content := h.content.trans h'.content
  provider := h.provider.trans h'.provider
  model := h.model.trans h'.model
  embedding := by
    rcases h.embedding with he | he
    · rw [he]
      exact h'.embedding
    · exact .inr he

def Db.Follows (db' db : Db F) : Prop := List.Forall₂ MemoryRow.Follows db'.memories db.memories

namespace Db.Follows

theorem of_memories_eq {db' db : Db F} (h : db'.memories = db.memories) : db'.Follows db := by
  unfold Db.Follows
  rw [h]
  exact List.forall₂_same.mpr fun r _ => .refl r

theorem refl (db : Db F) : db.Follows db := of_memories_eq rfl

theorem trans {a b c : Db F} (h : c.Follows b) (h' : b.Follows a) : c.Follows a := by
  unfold Db.Follows at h h' ⊢
  rw [List.forall₂_iff_get] at h h' ⊢
  exact ⟨h.1.trans h'.1, fun i hi hi' => (h.2 i hi (h.1 ▸ hi)).trans (h'.2 i (h.1 ▸ hi) hi')⟩

theorem modify (db : Db F) (p : MemoryRow F → Bool) {f : MemoryRow F → MemoryRow F} (hf : ∀ r, (f r).Follows r) :
    (db.modify p f).Follows db := by
  refine List.forall₂_map_left_iff.mpr (List.forall₂_same.mpr fun r _ => ?_)
  split
  · exact hf r
  · exact .refl r

theorem foldl {α : Type} {step : Db F → α → Db F} (hstep : ∀ db a, (step db a).Follows db) (xs : List α) (db : Db F) :
    (xs.foldl step db).Follows db := by
  induction xs generalizing db with
  | nil => exact refl db
  | cons x xs ih => exact (ih (step db x)).trans (hstep db x)

theorem mem {db' db : Db F} (h : db'.Follows db) {r' : MemoryRow F} (hr' : r' ∈ db'.memories) :
    ∃ r ∈ db.memories, r'.Follows r := by
  obtain ⟨hlen, hget⟩ := List.forall₂_iff_get.mp h
  obtain ⟨i, hi, rfl⟩ := List.getElem_of_mem hr'
  exact ⟨db.memories[i], List.getElem_mem (hlen ▸ hi), hget i hi (hlen ▸ hi)⟩

theorem map_eq {β : Type} {g : MemoryRow F → β} (hg : ∀ r' r, r'.Follows r → g r' = g r) {db' db : Db F}
    (h : db'.Follows db) : db'.memories.map g = db.memories.map g := by
  rw [← List.forall₂_eq_eq_eq, List.forall₂_map_left_iff, List.forall₂_map_right_iff]
  exact List.Forall₂.imp hg h

theorem ids {db' db : Db F} (h : db'.Follows db) : db'.memories.map MemoryRow.id = db.memories.map MemoryRow.id :=
  map_eq (fun _ _ hr => hr.id) h

end Db.Follows

theorem modifyEach_fst {α : Type} (db : Db F) (p : α → MemoryRow F → Bool) (f : α → MemoryRow F → MemoryRow F)
    (xs : List α) : (db.modifyEach p f xs).1 = xs.foldl (fun d x => d.modify (p x) (f x)) db := by
  have key : ∀ (xs : List α) (acc : Db F × ℕ),
      (xs.foldl (fun (acc : Db F × ℕ) x => (acc.1.modify (p x) (f x), acc.2 + acc.1.matching (p x))) acc).1 =
        xs.foldl (fun d x => d.modify (p x) (f x)) acc.1 := by
    intro xs
    induction xs with
    | nil => exact fun acc => rfl
    | cons x xs ih => exact fun acc => ih _
  exact key xs (db, 0)

/-- The first entry that selects a row updates it, if no later one selects what becomes of it. -/
theorem modifyEach_memories {α : Type} {db : Db F} {p : α → MemoryRow F → Bool} {f : α → MemoryRow F → MemoryRow F}
    {xs : List α} (hapart : xs.Pairwise fun x x' => ∀ r, p x r → p x' (f x r) = false) :
    (db.modifyEach p f xs).1.memories = db.memories.map fun r => ((xs.find? (p · r)).map (f · r)).getD r := by
  rw [modifyEach_fst]
  induction xs generalizing db with
  | nil => simp
  | cons x xs ih =>
    obtain ⟨hx, hxs⟩ := List.pairwise_cons.mp hapart
    rw [List.foldl_cons, ih hxs]
    simp only [Db.modify, List.map_map]
    refine List.map_congr_left fun r _ => ?_
    simp only [Function.comp_apply, List.find?_cons]
    cases hp : p x r with
    | true =>
      have hrest : xs.find? (p · (f x r)) = none := List.find?_eq_none.mpr fun x' hx' => by simp [hx x' hx' r hp]
      simp [hrest]
    | false => simp

theorem follows_modifyEach {α : Type} (db : Db F) (p : α → MemoryRow F → Bool) {f : α → MemoryRow F → MemoryRow F}
    (hf : ∀ x r, (f x r).Follows r) (xs : List α) : (db.modifyEach p f xs).1.Follows db := by
  rw [modifyEach_fst]
  exact .foldl (fun d x => .modify d (p x) (hf x)) xs db

theorem follows_countAtFloor (db : Db F) (row : MemoryRow F × Bool) : (db.countAtFloor row).Follows db := by
  unfold Db.countAtFloor
  split
  · exact .modify db _ fun r => ⟨rfl, rfl, rfl, rfl, rfl, .inl rfl⟩
  · split
    · exact .modify db _ fun r => ⟨rfl, rfl, rfl, rfl, rfl, .inl rfl⟩
    · exact .refl db

theorem follows_tickFloorRow (now : Int) (db : Db F) (row : MemoryRow F × Bool) :
    (db.tickFloorRow now row).Follows db := by
  have hcold : ∀ d : Db F, (d.modify (fun r => r.id == row.1.id) fun r =>
      { r with isCold := true, coldSince := some now }).Follows d :=
    fun d => .modify d _ fun r => ⟨rfl, rfl, rfl, rfl, rfl, .inl rfl⟩
  unfold Db.tickFloorRow
  dsimp only
  by_cases h : row.1.category ≠ "core" ∧ 7 ≤ if row.2 then row.1.daysAtFloor + 1 else 0
  · rw [if_pos h]
    exact (hcold _).trans (follows_countAtFloor db row)
  · rw [if_neg h]
    exact follows_countAtFloor db row

theorem follows_tickExpireRow (db : Db F) (row : MemoryRow F) : (db.tickExpireRow row).Follows db := by
  unfold Db.tickExpireRow
  split
  · exact .refl db
  · exact .modify db _ fun r => ⟨rfl, rfl, rfl, rfl, rfl, .inr rfl⟩

theorem upsertAssociation_memories {db db' : Db F} {row : AssociationRow F} {f : AssociationRow F → AssociationRow F}
    (h : db.upsertAssociation row f = .ok db') : db'.memories = db.memories ∧ db'.conflictQueue = db.conflictQueue ∧
      db'.embeddingCache = db.embeddingCache ∧ db'.memoriesFts = db.memoriesFts := by
  unfold Db.upsertAssociation at h
  split at h
  · cases h
    exact ⟨rfl, rfl, rfl, rfl⟩
  · split at h <;> cases h
    exact ⟨rfl, rfl, rfl, rfl⟩

theorem queueConflict_memories {db db' : Db F} {userId newId existingId : String} {sim : F} {now : Int}
    (h : db.queueConflict userId newId existingId sim now = .ok db') : db'.memories = db.memories ∧
      db'.associations = db.associations ∧ db'.embeddingCache = db.embeddingCache ∧ db'.memoriesFts = db.memoriesFts := by
  unfold Db.queueConflict at h
  split at h
  · cases h
    exact ⟨rfl, rfl, rfl, rfl⟩
  · split at h <;> cases h
    exact ⟨rfl, rfl, rfl, rfl⟩

theorem upsertAssociation_endpoints {db db' : Db F} {row : AssociationRow F}
    {f : AssociationRow F → AssociationRow F} (h : db.upsertAssociation row f = .ok db')
    (hf : ∀ e, (f e).sourceMemoryId = e.sourceMemoryId ∧ (f e).targetMemoryId = e.targetMemoryId) :
    ∀ e' ∈ db'.associations, (∃ e ∈ db.associations, e.sourceMemoryId = e'.sourceMemoryId ∧
      e.targetMemoryId = e'.targetMemoryId) ∨ e' = row ∧ db.hasMemory row.sourceMemoryId ∧ db.hasMemory row.targetMemoryId := by
  unfold Db.upsertAssociation at h
  split at h
  · cases h
    intro e' he'
    obtain ⟨e, he, rfl⟩ := List.mem_map.mp he'
    refine .inl ⟨e, he, ?_⟩
    split
    · exact ⟨(hf e).1.symm, (hf e).2.symm⟩
    · exact ⟨rfl, rfl⟩
  · split at h <;> cases h
    rename_i hmem
    intro e' he'
    rcases List.mem_append.mp he' with he' | he'
    · exact .inl ⟨e', he', rfl, rfl⟩
    · exact .inr ⟨List.mem_singleton.mp he', by simpa using hmem⟩

/-! ## Statements as a whole -/

theorem bind_ok {ε α β : Type} {x : Except ε α} {f : α → Except ε β} {b : β} (h : (x >>= f) = .ok b) :
    ∃ a, x = .ok a ∧ f a = .ok b := by
  cases x with
  | error e => cases h
  | ok a => exact ⟨a, rfl, h⟩

/-- A transaction that is a fold of fallible statements, seen statement by statement. -/
theorem foldlM_ok {α : Type} {step : Db F → α → Except SqlError (Db F)} {R : Db F → Db F → Prop}
    (hrefl : ∀ d, R d d) (htrans : ∀ {a b c}, R b a → R c b → R c a)
    (hstep : ∀ d a d', step d a = .ok d' → R d' d) {xs : List α} {db db' : Db F}
    (h : xs.foldlM step db = .ok db') : R db' db := by
  induction xs generalizing db with
  | nil =>
    cases h
    exact hrefl _
  | cons x xs ih =>
    rw [List.foldlM_cons] at h
    cases hx : step db x with
    | error e => simp [hx, bind, Except.bind] at h
    | ok d =>
      rw [hx] at h
      exact htrans (hstep db x d hx) (ih h)

section
variable [Field F] [LinearOrder F]

theorem strengthenPairs_memories {db db' : Db F} {pairs : List (String × String)} {amount : F} {now : Int}
    {kind : String} (h : db.strengthenPairs pairs amount now kind = .ok db') : db'.memories = db.memories ∧
      db'.conflictQueue = db.conflictQueue ∧ db'.embeddingCache = db.embeddingCache ∧ db'.memoriesFts = db.memoriesFts :=
  foldlM_ok (R := fun d' d => d'.memories = d.memories ∧ d'.conflictQueue = d.conflictQueue ∧
      d'.embeddingCache = d.embeddingCache ∧ d'.memoriesFts = d.memoriesFts)
    (fun _ => ⟨rfl, rfl, rfl, rfl⟩)
    (fun h h' => ⟨h'.1.trans h.1, h'.2.1.trans h.2.1, h'.2.2.1.trans h.2.2.1, h'.2.2.2.trans h.2.2.2⟩)
    (fun _ _ _ h => upsertAssociation_memories h) h

inductive Db.Ingests (userId newId : String) (now : Int) (db : Db F) (hit : String × F) : Db F → Prop
  | pass : Ingests userId newId now db hit db
  | queue {db' : Db F} (hne : hit.1 ≠ newId) (h : db.queueConflict userId newId hit.1 hit.2 now = .ok db') :
      Ingests userId newId now db hit db'
  | reinforce : Ingests userId newId now db hit
      (db.modify (owned userId hit.1) fun r => { r with stability := min 1 (r.stability + 5 / 100) })
  | tag {d db' : Db F} (h : db.synapticTag newId hit.1 (synapticTagWeight hit.2) now = .ok d)
      (h' : d.synapticTag hit.1 newId (synapticTagWeight hit.2) now = .ok db') : Ingests userId newId now db hit db'

theorem queueConflicts_keeps {userId newId : String} {now : Int} {R : Db F → Db F → Prop} (hrefl : ∀ d, R d d)
    (htrans : ∀ {a b c}, R b a → R c b → R c a) {hits : List (String × F)}
    (hstep : ∀ hit ∈ hits, ∀ {d d' : Db F}, d.Ingests userId newId now hit d' → R d' d) {db db' : Db F}
    (h : db.queueConflicts userId newId now hits = .ok db') : R db' db := by
  induction hits generalizing db with
  | nil =>
    cases h
    exact hrefl _
  | cons hit hits ih =>
    have hrest : ∀ {d : Db F}, db.Ingests userId newId now hit d → d.queueConflicts userId newId now hits = .ok db' → R db' db :=
      fun hd h => htrans (hstep hit List.mem_cons_self hd) (ih (fun x hx => hstep x (List.mem_cons_of_mem hit hx)) h)
    rw [Db.queueConflicts] at h
    split at h
    · exact hrest .pass h
    · split at h
      · obtain ⟨d, hd, h⟩ := bind_ok h
        exact hrest (.queue ‹_› hd) h
      · split at h
        · exact hrest .reinforce h
        · split at h
          · obtain ⟨d, hd, h⟩ := bind_ok h
            obtain ⟨d₂, hd₂, h⟩ := bind_ok h
            exact hrest (.tag hd hd₂) h
          · cases h
            exact hrefl _

theorem follows_queueConflicts {userId newId : String} {now : Int} {hits : List (String × F)} {db db' : Db F}
    (h : db.queueConflicts userId newId now hits = .ok db') : db'.Follows db := by
  refine queueConflicts_keeps (R := fun d' d => d'.Follows d) (fun d => .refl d) (fun h h' => h'.trans h) ?_ h
  intro hit _ d d' hd
  cases hd with
  | pass => exact .refl d
  | queue _ hq => exact .of_memories_eq (queueConflict_memories hq).1
  | reinforce => exact .modify d _ fun r => ⟨rfl, rfl, rfl, rfl, rfl, .inl rfl⟩
  | tag h₁ h₂ => exact .of_memories_eq ((upsertAssociation_memories h₂).1.trans (upsertAssociation_memories h₁).1)

theorem map_ok {ε α β : Type} {x : Except ε α} {f : α → β} {b : β} (h : x.map f = .ok b) : ∃ a, x = .ok a ∧ f a = b := by
  cases x with
  | error e => cases h
  | ok a => exact ⟨a, rfl, by simpa [Except.map] using h⟩

omit [Field F] [LinearOrder F] in
theorem insertMemory_ok {db db' : Db F} {row : MemoryRow F} (h : db.insertMemory row = .ok db') :
    db' = { db with memories := db.memories ++ [row], memoriesFts := db.memoriesFts ++ [⟨row.id, row.content⟩] } := by
  unfold Db.insertMemory at h
  split at h <;> cases h
  rfl

theorem apply_insertMemory (db : Db F) (row : MemoryRow F) : (Write.insertMemory row).apply db =
    if db.hasMemory row.id then .error .unique else .ok ((), { db with
      memories := db.memories ++ [row], memoriesFts := db.memoriesFts ++ [⟨row.id, row.content⟩] }) := by
  rw [Write.apply, Db.insertMemory]
  split <;> rfl

omit [Field F] [LinearOrder F] in
theorem updateMemory_tables (db : Db F) (userId id : String) (upd : MemoryUpdate F) :
    (db.updateMemory userId id upd).memories = (db.modify (owned userId id) upd.set).memories ∧
      (db.updateMemory userId id upd).associations = db.associations ∧
      (db.updateMemory userId id upd).conflictQueue = db.conflictQueue ∧
      (db.updateMemory userId id upd).embeddingCache = db.embeddingCache := by
  unfold Db.updateMemory
  dsimp only
  split
  · exact ⟨rfl, rfl, rfl, rfl⟩
  · split <;> exact ⟨rfl, rfl, rfl, rfl⟩

def Write.restates : Write F → Prop
  | .insertMemory _ | .updateMemory .. | .deleteMemory .. | .deleteMany .. | .clearUser _ => True
  | _ => False

theorem Write.follows {w : Write F} {db db' : Db F} {a : w.Res} (hw : ¬ w.restates) (h : w.apply db = .ok (a, db')) :
    db'.Follows db := by
  cases w with
  | insertMemory | updateMemory | deleteMemory | deleteMany | clearUser => exact absurd trivial hw
  | applyDirectBoost | promoteToCore | updateRetentionScores | migrateToHotMany | supersedeCluster =>
    cases h
    refine follows_modifyEach _ _ (fun _ _ => ?_) _
    exact ⟨rfl, rfl, rfl, rfl, rfl, .inl rfl⟩
  | markSuperseded | migrateToCold | migrateToHot | convertToStub =>
    cases h
    exact .modify _ _ fun _ => ⟨rfl, rfl, rfl, rfl, rfl, .inl rfl⟩
  | upsertEdge a b existing bump now kind =>
    obtain ⟨d, hd, hp⟩ := map_ok h
    cases hp
    exact .of_memories_eq (upsertAssociation_memories hd).1
  | strengthenPairs pairs amount now kind =>
    obtain ⟨d, hd, hp⟩ := map_ok h
    cases hp
    exact .of_memories_eq (strengthenPairs_memories hd).1
  | deleteEdge | deleteEdgeBidirectional =>
    cases h
    exact .of_memories_eq rfl
  | cacheInsert row =>
    cases h
    refine .of_memories_eq ?_
    unfold Db.cacheInsert
    split <;> rfl
  | insertBridgeToken row =>
    simp only [apply] at h
    split at h <;> cases h
    exact .of_memories_eq rfl
  | queueConflicts userId newId hits now =>
    obtain ⟨d, hd, hp⟩ := map_ok h
    cases hp
    exact follows_queueConflicts hd
  | tickFloor rows now =>
    cases h
    exact .foldl (follows_tickFloorRow now) rows db
  | tickExpire rows =>
    cases h
    exact .foldl follows_tickExpireRow rows db

theorem Write.rows {w : Write F} {db db' : Db F} {a : w.Res} (h : w.apply db = .ok (a, db')) {r' : MemoryRow F}
    (hr' : r' ∈ db'.memories) : (∃ r ∈ db.memories, r'.Follows r) ∨ w = .insertMemory r' ∨
      ∃ userId id upd, w = .updateMemory userId id upd ∧ ∃ r ∈ db.memories, owned userId id r ∧ r' = upd.set r := by
  by_cases hw : w.restates
  · cases w with
    | insertMemory row =>
      obtain ⟨d, hd, hp⟩ := map_ok h
      cases hp
      rw [insertMemory_ok hd] at hr'
      rcases List.mem_append.mp hr' with hr' | hr'
      · exact .inl ⟨r', hr', .refl r'⟩
      · rw [List.mem_singleton.mp hr']
        exact .inr (.inl rfl)
    | updateMemory userId id upd =>
      cases h
      rw [(updateMemory_tables db userId id upd).1] at hr'
      obtain ⟨r, hr, rfl⟩ := List.mem_map.mp hr'
      by_cases ho : owned userId id r
      · rw [if_pos ho]
        exact .inr (.inr ⟨userId, id, upd, rfl, r, hr, ho, rfl⟩)
      · rw [if_neg ho]
        exact .inl ⟨r, hr, .refl r⟩
    | deleteMemory | deleteMany | clearUser =>
      cases h
      exact .inl ⟨r', (List.mem_filter.mp hr').1, .refl r'⟩
    | _ => cases hw
  · exact .inl ((Write.follows hw h).mem hr')

end

/-! ## The primary key of `memories` -/

def Db.Keyed (db : Db F) : Prop := (db.memories.map MemoryRow.id).Nodup

theorem Db.Keyed.eq_of_id {db : Db F} (hk : db.Keyed) {r r' : MemoryRow F} (hr : r ∈ db.memories) (hr' : r' ∈ db.memories)
    (h : r.id = r'.id) : r = r' := List.inj_on_of_nodup_map hk hr hr' h

theorem hasMemory_iff {db : Db F} {id : String} : db.hasMemory id ↔ ∃ r ∈ db.memories, r.id = id := by
  simp [Db.hasMemory]

theorem insertMemory_fresh {db db' : Db F} {row : MemoryRow F} (h : db.insertMemory row = .ok db') :
    ∀ r ∈ db.memories, r.id ≠ row.id := by
  intro r hr hid
  unfold Db.insertMemory at h
  rw [if_pos (hasMemory_iff.mpr ⟨r, hr, hid⟩)] at h
  cases h

theorem Write.keyed [Field F] [LinearOrder F] {w : Write F} {db db' : Db F} {a : w.Res} (hk : db.Keyed)
    (h : w.apply db = .ok (a, db')) :
    db'.Keyed := by
  by_cases hw : w.restates
  · cases w with
    | insertMemory row =>
      obtain ⟨d, hd, hp⟩ := map_ok h
      cases hp
      rw [insertMemory_ok hd]
      simp only [Db.Keyed, List.map_append, List.map_cons, List.map_nil]
      refine List.nodup_append.mpr ⟨hk, List.nodup_singleton _, fun x hx y hy => ?_⟩
      rw [List.mem_singleton.mp hy]
      obtain ⟨r, hr, rfl⟩ := List.mem_map.mp hx
      exact insertMemory_fresh hd r hr
    | updateMemory userId id upd =>
      cases h
      have hids : (db.modify (owned userId id) upd.set).memories.map MemoryRow.id = db.memories.map MemoryRow.id := by
        simp only [Db.modify, List.map_map]
        refine List.map_congr_left fun r _ => ?_
        simp only [Function.comp_apply]
        split <;> rfl
      unfold Db.Keyed
      rw [(updateMemory_tables db userId id upd).1, hids]
      exact hk
    | deleteMemory | deleteMany | clearUser =>
      cases h
      exact hk.sublist (List.Sublist.map _ List.filter_sublist)
    | _ => exact hw.elim
  · unfold Db.Keyed
    rw [(follows hw h).ids]
    exact hk

/-! ## Edges -/

def Write.joins (w : Write F) (a b : String) : Prop :=
  match w with
  | .upsertEdge s t .. => (s, t) = (a, b)
  | .strengthenPairs pairs .. => (a, b) ∈ bothWays pairs
  | .queueConflicts _ newId hits _ => ∃ h ∈ hits, (newId, h.1) = (a, b) ∨ (h.1, newId) = (a, b)
  | _ => False

def Db.EdgesFrom (db' db : Db F) (new : String → String → Prop) : Prop :=
  ∀ e' ∈ db'.associations,
    (∃ e ∈ db.associations, e.sourceMemoryId = e'.sourceMemoryId ∧ e.targetMemoryId = e'.targetMemoryId) ∨
      new e'.sourceMemoryId e'.targetMemoryId

theorem Db.EdgesFrom.of_subset {db db' : Db F} (h : db'.associations ⊆ db.associations) (new : String → String → Prop) :
    db'.EdgesFrom db new := fun e he => .inl ⟨e, h he, rfl, rfl⟩

theorem Db.EdgesFrom.trans {a b c : Db F} {new new' : String → String → Prop} (h : c.EdgesFrom b new)
    (h' : b.EdgesFrom a new') : c.EdgesFrom a fun s t => new s t ∨ new' s t := by
  intro e he
  rcases h e he with ⟨e₁, he₁, hs, ht⟩ | hn
  · rcases h' e₁ he₁ with ⟨e₂, he₂, hs', ht'⟩ | hn
    · exact .inl ⟨e₂, he₂, hs'.trans hs, ht'.trans ht⟩
    · rw [hs, ht] at hn
      exact .inr (.inr hn)
  · exact .inr (.inl hn)

theorem Db.EdgesFrom.imp {a b : Db F} {new new' : String → String → Prop} (h : b.EdgesFrom a new)
    (hn : ∀ s t, new s t → new' s t) : b.EdgesFrom a new' := fun e he => (h e he).imp_right (hn _ _)

theorem find?_updateEdge (es : List (AssociationRow F)) {s d : String} {f : AssociationRow F → AssociationRow F}
    (hf : ∀ e, (f e).sourceMemoryId = e.sourceMemoryId ∧ (f e).targetMemoryId = e.targetMemoryId) (a b : String) :
    (es.map fun e => if e.joins s d then f e else e).find? (AssociationRow.joins a b) =
      (es.find? (AssociationRow.joins a b)).map fun e => if (s, d) = (a, b) then f e else e := by
  have hjoins : ∀ (e : AssociationRow F) (x y : String),
      e.joins x y = true ↔ e.sourceMemoryId = x ∧ e.targetMemoryId = y := by simp [AssociationRow.joins]
  induction es with
  | nil => rfl
  | cons e es ih =>
    have hkey : (if e.joins s d then f e else e).joins a b = e.joins a b := by
      split
      · simp only [AssociationRow.joins, hf e]
      · rfl
    rw [List.map_cons, List.find?_cons, List.find?_cons, ih, hkey]
    cases hab : e.joins a b with
    | false => rfl
    | true =>
      have hsame : e.joins s d = true ↔ (s, d) = (a, b) := by
        obtain ⟨rfl, rfl⟩ := (hjoins e a b).mp hab
        rw [hjoins, Prod.mk.injEq]
        exact ⟨fun h => ⟨h.1.symm, h.2.symm⟩, fun h => ⟨h.1.symm, h.2.symm⟩⟩
      simp only [hsame, Option.map_some]

theorem edge?_upsert {db db' : Db F} {row : AssociationRow F} {f : AssociationRow F → AssociationRow F}
    (h : db.upsertAssociation row f = .ok db')
    (hf : ∀ e, (f e).sourceMemoryId = e.sourceMemoryId ∧ (f e).targetMemoryId = e.targetMemoryId) (a b : String) :
    db'.edge? a b = if (row.sourceMemoryId, row.targetMemoryId) = (a, b) then
      some (((db.edge? a b).map f).getD row) else db.edge? a b := by
  unfold Db.upsertAssociation at h
  split at h
  · rename_i hsome
    cases h
    refine (find?_updateEdge db.associations hf a b).trans ?_
    obtain ⟨e, he⟩ := Option.isSome_iff_exists.mp hsome
    by_cases hab : (row.sourceMemoryId, row.targetMemoryId) = (a, b)
    · cases hab
      have hfound : db.associations.find? (AssociationRow.joins row.sourceMemoryId row.targetMemoryId) = some e := he
      simp [hfound, he]
    · simp only [hab, if_false, Option.map_id']
      rfl
  · split at h <;> cases h
    rename_i hnone _
    unfold Db.edge? at hnone ⊢
    rw [List.find?_append]
    by_cases hab : (row.sourceMemoryId, row.targetMemoryId) = (a, b)
    · cases hab
      rw [Option.not_isSome_iff_eq_none] at hnone
      simp [hnone]
    · have hne : (row.sourceMemoryId == a && row.targetMemoryId == b) = false := by simpa using hab
      simp [hab, hne]

theorem edgesFrom_upsert {db db' : Db F} {row : AssociationRow F} {f : AssociationRow F → AssociationRow F}
    (h : db.upsertAssociation row f = .ok db')
    (hf : ∀ e, (f e).sourceMemoryId = e.sourceMemoryId ∧ (f e).targetMemoryId = e.targetMemoryId) :
    db'.EdgesFrom db fun s t => (row.sourceMemoryId, row.targetMemoryId) = (s, t) := by
  intro e he
  rcases upsertAssociation_endpoints h hf e he with h' | ⟨rfl, -, -⟩
  · exact .inl h'
  · exact .inr rfl

theorem edgesFrom_strengthen [Field F] [LinearOrder F] {db db' : Db F} {es : List (String × String)} {amount : F}
    {now : Int} {kind : String}
    (h : es.foldlM (Db.strengthenEdge amount now kind) db = .ok db') : db'.EdgesFrom db fun s t => (s, t) ∈ es := by
  induction es generalizing db with
  | nil =>
    cases h
    exact .of_subset (List.Subset.refl _) _
  | cons e es ih =>
    rw [List.foldlM_cons] at h
    obtain ⟨d, hd, h⟩ := bind_ok h
    refine ((ih h).trans (edgesFrom_upsert hd fun _ => ⟨rfl, rfl⟩)).imp fun s t hst => ?_
    rcases hst with hst | hst
    · exact List.mem_cons_of_mem _ hst
    · exact hst ▸ List.mem_cons_self

theorem edgesFrom_queueConflicts [Field F] [LinearOrder F] {userId newId : String} {now : Int}
    {hits : List (String × F)} {db db' : Db F} (h : db.queueConflicts userId newId now hits = .ok db') :
    db'.EdgesFrom db fun s t => ∃ h ∈ hits, (newId, h.1) = (s, t) ∨ (h.1, newId) = (s, t) := by
  refine queueConflicts_keeps (R := fun d' d => d'.EdgesFrom d fun s t => ∃ h ∈ hits, (newId, h.1) = (s, t) ∨
      (h.1, newId) = (s, t))
    (fun d => Db.EdgesFrom.of_subset (List.Subset.refl d.associations) _) ?_ ?_ h
  · exact fun h h' => (Db.EdgesFrom.trans h' h).imp fun _ _ hst => or_self_iff.mp hst
  intro hit hhit d d' hd
  cases hd with
  | pass | reinforce =>
    refine Db.EdgesFrom.of_subset ?_ _
    exact List.Subset.refl d.associations
  | queue _ hq =>
    refine Db.EdgesFrom.of_subset ?_ _
    exact fun e he => (queueConflict_memories hq).2.1 ▸ he
  | tag h₁ h₂ =>
    refine ((edgesFrom_upsert h₂ fun _ => ⟨rfl, rfl⟩).trans (edgesFrom_upsert h₁ fun _ => ⟨rfl, rfl⟩)).imp fun s t hst => ?_
    exact ⟨hit, hhit, hst.symm⟩

structure Db.SameRest (db' db : Db F) : Prop where
  associations : db'.associations = db.associations
  conflictQueue : db'.conflictQueue = db.conflictQueue
  embeddingCache : db'.embeddingCache = db.embeddingCache
  memoriesFts : db'.memoriesFts = db.memoriesFts

theorem Db.SameRest.refl (db : Db F) : db.SameRest db := ⟨rfl, rfl, rfl, rfl⟩

theorem Db.SameRest.trans {a b c : Db F} (h : c.SameRest b) (h' : b.SameRest a) : c.SameRest a :=
  ⟨h.1.trans h'.1, h.2.trans h'.2, h.3.trans h'.3, h.4.trans h'.4⟩

theorem Db.SameRest.foldl {α : Type} {step : Db F → α → Db F} (hstep : ∀ db a, (step db a).SameRest db) (xs : List α)
    (db : Db F) : (xs.foldl step db).SameRest db := by
  induction xs generalizing db with
  | nil => exact refl db
  | cons x xs ih => exact (ih (step db x)).trans (hstep db x)

theorem sameRest_modifyEach {α : Type} (db : Db F) (p : α → MemoryRow F → Bool) (f : α → MemoryRow F → MemoryRow F)
    (xs : List α) : (db.modifyEach p f xs).1.SameRest db := by
  rw [modifyEach_fst]
  refine .foldl (fun _ _ => ?_) xs db
  exact ⟨rfl, rfl, rfl, rfl⟩

theorem sameRest_tickFloorRow (now : Int) (db : Db F) (row : MemoryRow F × Bool) :
    (db.tickFloorRow now row).SameRest db := by
  unfold Db.tickFloorRow Db.countAtFloor
  dsimp only
  split_ifs <;> exact ⟨rfl, rfl, rfl, rfl⟩

theorem sameRest_tickExpireRow (db : Db F) (row : MemoryRow F) : (db.tickExpireRow row).SameRest db := by
  unfold Db.tickExpireRow
  split_ifs <;> exact ⟨rfl, rfl, rfl, rfl⟩

def Write.writesEdges : Write F → Prop
  | .upsertEdge .. | .strengthenPairs .. | .queueConflicts .. => True
  | _ => False

variable [Field F] [LinearOrder F]

theorem Write.associations_subset {w : Write F} {db db' : Db F} {a : w.Res} (hw : ¬ w.writesEdges)
    (h : w.apply db = .ok (a, db')) : db'.associations ⊆ db.associations := by
  have hsame : ∀ {d : Db F}, d.SameRest db → d.associations ⊆ db.associations := fun hd e he => hd.associations ▸ he
  cases w with
  | upsertEdge | strengthenPairs | queueConflicts => exact absurd trivial hw
  | insertMemory row =>
    obtain ⟨d, hd, hp⟩ := map_ok h
    cases hp
    rw [insertMemory_ok hd]
    exact List.Subset.refl _
  | updateMemory userId id upd =>
    cases h
    rw [(updateMemory_tables db userId id upd).2.1]
    exact List.Subset.refl _
  | deleteMemory | deleteMany | clearUser | deleteEdge | deleteEdgeBidirectional =>
    cases h
    exact List.filter_subset_self _
  | applyDirectBoost | promoteToCore | updateRetentionScores | migrateToHotMany | supersedeCluster =>
    cases h
    exact hsame (sameRest_modifyEach _ _ _ _)
  | markSuperseded | migrateToCold | migrateToHot | convertToStub =>
    cases h
    exact List.Subset.refl _
  | cacheInsert row =>
    cases h
    unfold Db.cacheInsert
    split <;> exact List.Subset.refl _
  | insertBridgeToken row =>
    simp only [apply] at h
    split at h <;> cases h
    exact List.Subset.refl _
  | tickFloor rows now =>
    cases h
    exact hsame (.foldl (sameRest_tickFloorRow now) rows db)
  | tickExpire rows =>
    cases h
    exact hsame (.foldl sameRest_tickExpireRow rows db)

theorem Write.edges {w : Write F} {db db' : Db F} {a : w.Res} (h : w.apply db = .ok (a, db')) :
    db'.EdgesFrom db w.joins := by
  by_cases hw : w.writesEdges
  · cases w with
    | upsertEdge a b existing bump now kind =>
      obtain ⟨d, hd, hp⟩ := map_ok h
      cases hp
      exact edgesFrom_upsert hd fun _ => ⟨rfl, rfl⟩
    | strengthenPairs pairs amount now kind =>
      obtain ⟨d, hd, hp⟩ := map_ok h
      cases hp
      exact edgesFrom_strengthen hd
    | queueConflicts userId newId hits now =>
      obtain ⟨d, hd, hp⟩ := map_ok h
      cases hp
      exact edgesFrom_queueConflicts hd
    | _ => exact hw.elim
  · exact .of_subset (associations_subset hw h) _

/-! ## The conflict queue and the cache -/

omit [Field F] [LinearOrder F] in
theorem queued_queueConflict {userId newId existingId : String} {sim : F} {now : Int} {db db' : Db F}
    (h : db.queueConflict userId newId existingId sim now = .ok db') {c : ConflictRow F} (hc : c ∈ db'.conflictQueue) :
    c ∈ db.conflictQueue ∨ c.userId = userId ∧ c.newMemoryId = newId ∧ c.existingMemoryId = existingId := by
  unfold Db.queueConflict at h
  split at h
  · cases h
    exact .inl hc
  · split at h <;> cases h
    rcases List.mem_append.mp hc with hc | hc
    · exact .inl hc
    · rw [List.mem_singleton.mp hc]
      exact .inr ⟨rfl, rfl, rfl⟩

theorem queued_queueConflicts {userId newId : String} {now : Int} {hits : List (String × F)} {db db' : Db F}
    (h : db.queueConflicts userId newId now hits = .ok db') {c : ConflictRow F} (hc : c ∈ db'.conflictQueue) :
    c ∈ db.conflictQueue ∨
      c.userId = userId ∧ c.newMemoryId = newId ∧ newId ≠ c.existingMemoryId ∧ ∃ h ∈ hits, c.existingMemoryId = h.1 := by
  refine queueConflicts_keeps (R := fun d' d => ∀ c ∈ d'.conflictQueue, c ∈ d.conflictQueue ∨
    c.userId = userId ∧ c.newMemoryId = newId ∧ newId ≠ c.existingMemoryId ∧ ∃ h ∈ hits, c.existingMemoryId = h.1)
    (fun d c hc => .inl hc) (fun h h' c hc => (h' c hc).elim (h c) .inr) ?_ h c hc
  intro hit hhit d d' hd c hc
  cases hd with
  | pass | reinforce => exact .inl hc
  | queue hne hq =>
    refine (queued_queueConflict hq hc).imp_right fun ⟨hu, hn, he⟩ => ⟨hu, hn, ?_, hit, hhit, he⟩
    rw [he]
    exact hne.symm
  | tag h₁ h₂ => exact .inl ((upsertAssociation_memories h₁).2.1 ▸ (upsertAssociation_memories h₂).2.1 ▸ hc)

theorem cache_queueConflicts {userId newId : String} {now : Int} {hits : List (String × F)} {db db' : Db F}
    (h : db.queueConflicts userId newId now hits = .ok db') :
    db'.embeddingCache = db.embeddingCache ∧ db'.memoriesFts = db.memoriesFts := by
  refine queueConflicts_keeps (R := fun d' d => d'.embeddingCache = d.embeddingCache ∧ d'.memoriesFts = d.memoriesFts)
    (fun d => ⟨rfl, rfl⟩) (fun h h' => ⟨h'.1.trans h.1, h'.2.trans h.2⟩) ?_ h
  intro hit _ d d' hd
  cases hd with
  | pass | reinforce => exact ⟨rfl, rfl⟩
  | queue _ hq => exact (queueConflict_memories hq).2.2
  | tag h₁ h₂ =>
    obtain ⟨-, -, hcache, hindex⟩ := upsertAssociation_memories h₁
    obtain ⟨-, -, hcache₂, hindex₂⟩ := upsertAssociation_memories h₂
    exact ⟨hcache₂.trans hcache, hindex₂.trans hindex⟩

theorem Write.queued_cached {w : Write F} {db db' : Db F} {a : w.Res} (h : w.apply db = .ok (a, db')) :
    (∀ c ∈ db'.conflictQueue, c ∈ db.conflictQueue ∨ ∃ userId newId hits now, w = .queueConflicts userId newId hits now ∧
      c.userId = userId ∧ c.newMemoryId = newId ∧ ∃ h ∈ hits, c.existingMemoryId = h.1) ∧
    ∀ c ∈ db'.embeddingCache, c ∈ db.embeddingCache ∨ w = .cacheInsert c := by
  have hsub : ∀ {d : Db F}, d.conflictQueue ⊆ db.conflictQueue → d.embeddingCache = db.embeddingCache →
      (∀ c ∈ d.conflictQueue, c ∈ db.conflictQueue ∨ ∃ userId newId hits now, w = .queueConflicts userId newId hits now ∧
        c.userId = userId ∧ c.newMemoryId = newId ∧ ∃ h ∈ hits, c.existingMemoryId = h.1) ∧
      ∀ c ∈ d.embeddingCache, c ∈ db.embeddingCache ∨ w = .cacheInsert c :=
    fun hq hc => ⟨fun c h => .inl (hq h), fun c h => .inl (hc ▸ h)⟩
  have hsame : ∀ {d : Db F}, d.SameRest db → _ := fun {d} hd =>
    hsub (d := d) (fun c hc => hd.conflictQueue ▸ hc) hd.embeddingCache
  cases w with
  | insertMemory row =>
    obtain ⟨d, hd, hp⟩ := map_ok h
    cases hp
    rw [insertMemory_ok hd]
    exact hsub (List.Subset.refl _) rfl
  | updateMemory userId id upd =>
    cases h
    obtain ⟨-, -, h2, h3⟩ := updateMemory_tables db userId id upd
    exact hsub (fun c hc => h2 ▸ hc) h3
  | deleteMemory | deleteMany | clearUser =>
    cases h
    exact hsub (List.filter_subset_self _) rfl
  | deleteEdge | deleteEdgeBidirectional =>
    cases h
    exact hsub (List.Subset.refl _) rfl
  | applyDirectBoost | promoteToCore | updateRetentionScores | migrateToHotMany | supersedeCluster =>
    cases h
    exact hsame (sameRest_modifyEach _ _ _ _)
  | markSuperseded | migrateToCold | migrateToHot | convertToStub =>
    cases h
    exact hsame ⟨rfl, rfl, rfl, rfl⟩
  | upsertEdge a b existing bump now kind =>
    obtain ⟨d, hd, hp⟩ := map_ok h
    cases hp
    obtain ⟨-, h2, h3, -⟩ := upsertAssociation_memories hd
    exact hsub (fun c hc => h2 ▸ hc) h3
  | strengthenPairs pairs amount now kind =>
    obtain ⟨d, hd, hp⟩ := map_ok h
    cases hp
    obtain ⟨-, h2, h3, -⟩ := strengthenPairs_memories hd
    exact hsub (fun c hc => h2 ▸ hc) h3
  | cacheInsert row =>
    cases h
    unfold Db.cacheInsert
    split
    · exact hsub (List.Subset.refl _) rfl
    · refine ⟨fun c hc => .inl hc, fun c hc => ?_⟩
      rcases List.mem_append.mp hc with hc | hc
      · exact .inl hc
      · rw [List.mem_singleton.mp hc]
        exact .inr rfl
  | insertBridgeToken row =>
    simp only [apply] at h
    split at h <;> cases h
    exact hsub (List.Subset.refl _) rfl
  | queueConflicts userId newId hits now =>
    obtain ⟨d, hd, hp⟩ := map_ok h
    cases hp
    refine ⟨fun c hc => ?_, fun c hc => .inl ((cache_queueConflicts hd).1 ▸ hc)⟩
    refine (queued_queueConflicts hd hc).imp_right fun ⟨hu, hn, _, he⟩ => ?_
    exact ⟨userId, newId, hits, now, rfl, hu, hn, he⟩
  | tickFloor rows now =>
    cases h
    exact hsame (.foldl (sameRest_tickFloorRow now) rows db)
  | tickExpire rows =>
    cases h
    exact hsame (.foldl sameRest_tickExpireRow rows db)

/-! ## The conflict resolver -/

omit [LinearOrder F] in
theorem follows_supersede (db : Db F) (n e : MemoryRow F) : (db.supersede n e).Follows db := by
  have hmark : (db.modify (fun r => r.id == e.id) fun r =>
      { r with isSuperseded := true, supersededBy := some n.id, contradictedBy := some n.id }).Follows db :=
    .modify db _ fun r => ⟨rfl, rfl, rfl, rfl, rfl, .inl rfl⟩
  unfold Db.supersede
  dsimp only
  split
  · refine Db.Follows.trans (Db.Follows.modify _ _ fun r => ?_) hmark
    exact ⟨rfl, rfl, rfl, rfl, rfl, .inl rfl⟩
  · exact hmark

theorem follows_liftImportance (db : Db F) (n e : MemoryRow F) : (db.liftImportance n e).Follows db := by
  unfold Db.liftImportance
  split
  · exact .modify db _ fun r => ⟨rfl, rfl, rfl, rfl, rfl, .inl rfl⟩
  · exact .refl db

omit [LinearOrder F] in
theorem sameRest_supersede (db : Db F) (n e : MemoryRow F) : (db.supersede n e).SameRest db := by
  unfold Db.supersede
  dsimp only
  split_ifs <;> exact ⟨rfl, rfl, rfl, rfl⟩

theorem sameRest_liftImportance (db : Db F) (n e : MemoryRow F) : (db.liftImportance n e).SameRest db := by
  unfold Db.liftImportance
  split_ifs <;> exact ⟨rfl, rfl, rfl, rfl⟩

theorem applyLabel_effects (llm : Bool) (db : Db F) (n e : MemoryRow F) (label : ConflictLabel) :
    (db.applyLabel llm n e label).1.Follows db ∧ (db.applyLabel llm n e label).1.SameRest db := by
  cases label with
  | contradiction =>
    simp only [Db.applyLabel]
    split_ifs <;> exact ⟨follows_supersede _ _ _, sameRest_supersede _ _ _⟩
  | update =>
    simp only [Db.applyLabel]
    split_ifs
    · exact ⟨(follows_supersede _ _ _).trans (follows_liftImportance _ _ _),
        (sameRest_supersede _ _ _).trans (sameRest_liftImportance _ _ _)⟩
    all_goals exact ⟨follows_supersede _ _ _, sameRest_supersede _ _ _⟩
  | overlap | none_ => exact ⟨.refl db, .refl db⟩

theorem resolve_effects (llm : Bool) (answers : ℕ → String → Except String String) (acc : Resolving F)
    (p : ConflictPair) :
    (acc.resolve llm answers p).db.Follows acc.db ∧ (acc.resolve llm answers p).db.SameRest acc.db := by
  unfold Resolving.resolve
  split
  · split
    · exact applyLabel_effects ..
    · exact ⟨.refl _, .refl _⟩
  · exact ⟨.refl _, .refl _⟩

/-- The resolving transaction follows rows and drops queue entries. -/
theorem resolving_effects (llm : Bool) (answers : ℕ → String → Except String String) (pairs : List ConflictPair)
    (acc : Resolving F) :
    (pairs.foldl (Resolving.pair llm answers) acc).db.Follows acc.db ∧
      (pairs.foldl (Resolving.pair llm answers) acc).db.associations = acc.db.associations ∧
      (pairs.foldl (Resolving.pair llm answers) acc).db.conflictQueue ⊆ acc.db.conflictQueue ∧
      (pairs.foldl (Resolving.pair llm answers) acc).db.embeddingCache = acc.db.embeddingCache ∧
      (pairs.foldl (Resolving.pair llm answers) acc).db.memoriesFts = acc.db.memoriesFts := by
  induction pairs generalizing acc with
  | nil => exact ⟨.refl _, rfl, List.Subset.refl _, rfl, rfl⟩
  | cons p pairs ih =>
    obtain ⟨h1, h2, h3, h4, h5⟩ := ih (acc.pair llm answers p)
    obtain ⟨hf, hs⟩ := resolve_effects llm answers acc p
    refine ⟨Db.Follows.trans h1 hf, h2.trans hs.associations, fun c hc => ?_, h4.trans hs.embeddingCache,
      h5.trans hs.memoriesFts⟩
    exact hs.conflictQueue ▸ (List.mem_filter.mp (h3 hc)).1

theorem exec_keeps {P : Db F → Prop} (bm25 : Bm25 F) {c : Cmd F} {w : World F} (h : P w.db)
    (hwrite : ∀ (wr : Write F) (a : wr.Res) (db : Db F), c = .write wr → wr.apply w.db = .ok (a, db) → P db)
    (hresolve : ∀ llm pairs, c = .resolveConflicts llm pairs →
      P (pairs.foldl (Resolving.pair llm w.oracle.llm) ⟨w.db, 0, 0⟩).db) : P (exec bm25 c w).2.db := by
  cases c with
  | write wr =>
    simp only [exec]
    split
    · exact h
    · split
      · exact hwrite wr _ _ rfl ‹_›
      · exact h
  | resolveConflicts llm pairs =>
    simp only [exec]
    split
    · exact h
    · exact hresolve llm pairs rfl
  | _ => exact h

theorem exec_inserted (bm25 : Bm25 F) {row : MemoryRow F} {w : World F}
    (h : (exec bm25 (.write (.insertMemory row)) w).1 = .ok ()) :
    row ∈ (exec bm25 (.write (.insertMemory row)) w).2.db.memories := by
  simp only [exec] at h ⊢
  split at h
  · cases h
  · rename_i hfault
    rw [if_neg hfault]
    split at h
    · rename_i a db happly
      obtain ⟨d, hd, hp⟩ := map_ok happly
      cases hp
      show row ∈ db.memories
      rw [insertMemory_ok hd]
      exact List.mem_append_right _ List.mem_cons_self
    · cases h

theorem exec_fault (bm25 : Bm25 F) {c : Cmd F} {w : World F} (h : w.oracle.sqlFault 0 = true) :
    (exec bm25 c w).2.db = w.db := by
  cases c with
  | write wr => simp only [exec, h, if_true, World.answer]
  | resolveConflicts llm pairs => simp only [exec, h, if_true, World.answer]
  | _ => rfl

/-! ## Edits of single rows -/

def Write.edits : Write F → (MemoryRow F → MemoryRow F) → Prop
  | .updateMemory _ _ upd, f => f = upd.set
  | .applyDirectBoost _ boosts now session, f => ∃ b ∈ boosts, f = boostRow b.2 now session
  | .promoteToCore .., f => f = fun r => { r with category := "core", retentionFloor := 6 / 10 }
  | .updateRetentionScores _ updates, f => ∃ u ∈ updates, f = fun r => { r with retentionFloor := u.2 }
  | .markSuperseded _ _ target, f => f = fun r => { r with isSuperseded := true, supersededBy := some target }
  | .migrateToCold _ _ coldSince, f => f = fun r => { r with isCold := true, coldSince := some coldSince }
  | .migrateToHot .., f | .migrateToHotMany .., f => f = restoreRow
  | .convertToStub _ _ stubContent, f => f = fun r => { r with isStub := true, stubContent := some stubContent }
  | .queueConflicts .., f => f = fun r => { r with stability := min 1 (r.stability + 5 / 100) }
  | .tickFloor _ now, f => f = (fun r => { r with daysAtFloor := r.daysAtFloor + 1 }) ∨
      f = (fun r => { r with daysAtFloor := 0 }) ∨ f = fun r => { r with isCold := true, coldSince := some now }
  | .tickExpire rows, f => ∃ row ∈ rows, f = fun r => { r with
      isStub := true
      stubContent := some ("[archived] " ++ String.ofList (row.content.toList.take 200))
      embedding := none }
  | .supersedeCluster _ target _ now, f => f = fun r =>
      { r with isSuperseded := true, supersededBy := some target, isCold := true, coldSince := some now }
  | _, _ => False

inductive Db.Edited (edits : (MemoryRow F → MemoryRow F) → Prop) (db : Db F) : Db F → Prop
  | same {db' : Db F} (h : db'.memories = db.memories) : Edited edits db db'
  | step {d db' : Db F} (h : Edited edits db d) (p : MemoryRow F → Bool) {f : MemoryRow F → MemoryRow F} (hf : edits f)
      (heq : db'.memories = (d.modify p f).memories) : Edited edits db db'

namespace Db.Edited
omit [Field F] [LinearOrder F]
variable {edits : (MemoryRow F → MemoryRow F) → Prop} {db db' db'' : Db F}

theorem refl (db : Db F) : Edited edits db db := .same rfl

theorem modify (p : MemoryRow F → Bool) {f : MemoryRow F → MemoryRow F} (hf : edits f) : Edited edits db (db.modify p f) :=
  .step (.refl db) p hf rfl

theorem trans (h : Edited edits db db') (h' : Edited edits db' db'') : Edited edits db db'' := by
  induction h' with
  | same heq =>
    cases h with
    | same h => exact .same (heq.trans h)
    | step h p hf h₂ => exact .step h p hf (heq.trans h₂)
  | step _ p hf heq ih => exact .step ih p hf heq

theorem foldl {α : Type} {step : Db F → α → Db F} {xs : List α} (hstep : ∀ d, ∀ x ∈ xs, Edited edits d (step d x))
    (db : Db F) :
    Edited edits db (xs.foldl step db) := by
  induction xs generalizing db with
  | nil => exact .refl db
  | cons x xs ih =>
    obtain ⟨hx, hxs⟩ := (List.forall_mem_cons (p := fun x => ∀ d, Edited edits d (step d x))).mp fun x hx d => hstep d x hx
    exact (hx db).trans (ih (fun d y hy => hxs y hy d) (step db x))

theorem modifyEach {α : Type} (p : α → MemoryRow F → Bool) {f : α → MemoryRow F → MemoryRow F} {xs : List α}
    (hf : ∀ x ∈ xs, edits (f x)) : Edited edits db (db.modifyEach p f xs).1 := by
  rw [modifyEach_fst]
  exact foldl (fun d x hx => modify (p x) (hf x hx)) db

theorem map_eq {β : Type} {g : MemoryRow F → β} (h : Edited edits db db') (hg : ∀ f, edits f → ∀ r, g (f r) = g r) :
    db'.memories.map g = db.memories.map g := by
  induction h with
  | same heq => rw [heq]
  | step _ p hf heq ih =>
    rw [heq, ← ih]
    simp only [Db.modify, List.map_map]
    refine List.map_congr_left fun r _ => ?_
    simp only [Function.comp_apply]
    split
    · exact hg _ hf r
    · rfl

end Db.Edited

theorem edited_queueConflicts {userId newId : String} {now : Int} {hits : List (String × F)} {db db' : Db F}
    (h : db.queueConflicts userId newId now hits = .ok db') :
    Db.Edited (Write.queueConflicts userId newId [] now).edits db db' := by
  refine queueConflicts_keeps (R := fun d' d => Db.Edited (Write.queueConflicts userId newId [] now).edits d d')
    (fun d => .refl d) (fun h h' => h.trans h') ?_ h
  intro hit _ d d' hd
  cases hd with
  | pass => exact .refl d
  | queue _ hq => exact .same (queueConflict_memories hq).1
  | reinforce => exact .modify _ rfl
  | tag h₁ h₂ => exact .same ((upsertAssociation_memories h₂).1.trans (upsertAssociation_memories h₁).1)

theorem edited_tickFloorRow (now : Int) (db : Db F) (row : MemoryRow F × Bool) :
    Db.Edited (Write.tickFloor [] now).edits db (db.tickFloorRow now row) := by
  have hcount : Db.Edited (Write.tickFloor [] now).edits db (db.countAtFloor row) := by
    unfold Db.countAtFloor
    split_ifs
    · exact .modify _ (.inl rfl)
    · exact .modify _ (.inr (.inl rfl))
    · exact .refl db
  unfold Db.tickFloorRow
  dsimp only
  by_cases hcold : row.1.category ≠ "core" ∧ 7 ≤ if row.2 then row.1.daysAtFloor + 1 else 0
  · rw [if_pos hcold]
    exact hcount.trans (.modify _ (.inr (.inr rfl)))
  · rw [if_neg hcold]
    exact hcount

def Write.reshapes : Write F → Prop
  | .insertMemory _ | .deleteMemory .. | .deleteMany .. | .clearUser _ => True
  | _ => False

theorem Write.edited {w : Write F} {db db' : Db F} {a : w.Res} (hw : ¬ w.reshapes) (h : w.apply db = .ok (a, db')) :
    Db.Edited w.edits db db' := by
  cases w with
  | insertMemory | deleteMemory | deleteMany | clearUser => exact absurd trivial hw
  | updateMemory userId id upd =>
    cases h
    exact .step (.refl db) _ rfl (updateMemory_tables db userId id upd).1
  | applyDirectBoost | updateRetentionScores =>
    cases h
    exact .modifyEach _ fun x hx => ⟨x, hx, rfl⟩
  | promoteToCore | migrateToHotMany | supersedeCluster =>
    cases h
    exact .modifyEach _ fun _ _ => rfl
  | markSuperseded | migrateToCold | migrateToHot | convertToStub =>
    cases h
    exact .modify _ rfl
  | upsertEdge a b existing bump now kind =>
    obtain ⟨d, hd, hp⟩ := map_ok h
    cases hp
    exact .same (upsertAssociation_memories hd).1
  | strengthenPairs pairs amount now kind =>
    obtain ⟨d, hd, hp⟩ := map_ok h
    cases hp
    exact .same (strengthenPairs_memories hd).1
  | deleteEdge | deleteEdgeBidirectional =>
    cases h
    exact .same rfl
  | cacheInsert row =>
    cases h
    refine .same ?_
    unfold Db.cacheInsert
    split <;> rfl
  | insertBridgeToken row =>
    simp only [apply] at h
    split at h <;> cases h
    exact .same rfl
  | queueConflicts userId newId hits now =>
    obtain ⟨d, hd, hp⟩ := map_ok h
    cases hp
    exact edited_queueConflicts hd
  | tickFloor rows now =>
    cases h
    exact .foldl (fun d row _ => edited_tickFloorRow now d row) db
  | tickExpire rows =>
    cases h
    refine .foldl (fun d row hrow => ?_) db
    unfold Db.tickExpireRow
    split
    · exact .refl d
    · exact .modify _ ⟨row, hrow, rfl⟩

/-! ## Properties of single rows -/

section
variable {P : MemoryRow F → Prop} {db db' : Db F}

omit [Field F] [LinearOrder F] in
theorem Db.forall_modify {p : MemoryRow F → Bool} {f : MemoryRow F → MemoryRow F}
    (hf : ∀ r ∈ db.memories, p r → P r → P (f r))
    (h : ∀ r ∈ db.memories, P r) : ∀ r ∈ (db.modify p f).memories, P r := by
  intro r' hr'
  obtain ⟨r, hr, rfl⟩ := List.mem_map.mp hr'
  by_cases hp : p r
  · rw [if_pos hp]
    exact hf r hr hp (h r hr)
  · rw [if_neg hp]
    exact h r hr

omit [Field F] [LinearOrder F] in
theorem Db.Edited.forall_rows {edits : (MemoryRow F → MemoryRow F) → Prop} (h : Db.Edited edits db db')
    (hf : ∀ f, edits f → ∀ r, P r → P (f r)) (h₀ : ∀ r ∈ db.memories, P r) : ∀ r ∈ db'.memories, P r := by
  induction h with
  | same heq => rwa [heq]
  | step _ p hedit heq ih =>
    rw [heq]
    exact Db.forall_modify (fun r _ _ => hf _ hedit r) ih

/-- What inserted rows have and assignments keep. An update has to keep it in the rows it selects. -/
theorem Write.forall_rows {w : Write F} {a : w.Res} (hinsert : ∀ row, w = .insertMemory row → P row)
    (hupdate : ∀ user id upd, w = .updateMemory user id upd → ∀ r ∈ db.memories, owned user id r → P r → P (upd.set r))
    (hedit : (∀ user id upd, w ≠ .updateMemory user id upd) → ∀ f, w.edits f → ∀ r, P r → P (f r))
    (h : ∀ r ∈ db.memories, P r) (happly : w.apply db = .ok (a, db')) : ∀ r ∈ db'.memories, P r := by
  by_cases hu : ∃ user id upd, w = .updateMemory user id upd
  · obtain ⟨user, id, upd, rfl⟩ := hu
    cases happly
    rw [(updateMemory_tables db user id upd).1]
    exact Db.forall_modify (hupdate user id upd rfl) h
  by_cases hr : w.reshapes
  · cases w with
    | insertMemory row =>
      obtain ⟨d, hd, hp⟩ := map_ok happly
      cases hp
      rw [insertMemory_ok hd]
      intro r hr
      rcases List.mem_append.mp hr with hr | hr
      · exact h r hr
      · rw [List.mem_singleton.mp hr]
        exact hinsert row rfl
    | deleteMemory | deleteMany | clearUser =>
      cases happly
      exact fun r hr => h r (List.mem_filter.mp hr).1
    | _ => exact hr.elim
  · exact (Write.edited hr happly).forall_rows (hedit fun user id upd heq => hu ⟨user, id, upd, heq⟩) h

omit [LinearOrder F] in
theorem supersede_forall_rows (hmark : ∀ r winner, P r → P { r with
      isSuperseded := true, supersededBy := some winner, contradictedBy := some winner })
    (hdemote : ∀ r, r.isSuperseded = true → P r → P { r with category := "semantic", retentionFloor := 0 })
      (h : ∀ r ∈ db.memories, P r)
    (winner loser : MemoryRow F) : ∀ r ∈ (db.supersede winner loser).memories, P r := by
  have hmarked : ∀ r ∈ (db.modify (fun r => r.id == loser.id) fun r => { r with
      isSuperseded := true, supersededBy := some winner.id, contradictedBy := some winner.id }).memories, P r :=
    Db.forall_modify (fun r _ _ => hmark r winner.id) h
  unfold Db.supersede
  dsimp only
  split
  · refine Db.forall_modify (fun r hr hid => hdemote r ?_) hmarked
    obtain ⟨r₀, -, rfl⟩ := List.mem_map.mp hr
    by_cases hloser : (r₀.id == loser.id) = true
    · rw [if_pos hloser]
    · rw [if_neg hloser] at hid
      exact absurd hid hloser
  · exact hmarked

theorem resolving_forall_rows (hmark : ∀ r winner, P r → P { r with
      isSuperseded := true, supersededBy := some winner, contradictedBy := some winner })
    (hdemote : ∀ r, r.isSuperseded = true → P r → P { r with category := "semantic", retentionFloor := 0 })
    (hlift : ∀ n e r, P n → P e → P r → P { r with importance := max n.importance e.importance })
    (llm : Bool) (answers : ℕ → String → Except String String) (pairs : List ConflictPair) {acc : Resolving F}
    (h : ∀ r ∈ acc.db.memories, P r) : ∀ r ∈ (pairs.foldl (Resolving.pair llm answers) acc).db.memories, P r := by
  have hlabel : ∀ (db : Db F), (∀ r ∈ db.memories, P r) → ∀ n e, P n → P e → ∀ label,
      ∀ r ∈ (db.applyLabel llm n e label).1.memories, P r := by
    intro db hdb n e hn he label
    have hlifted : ∀ r ∈ (db.liftImportance n e).memories, P r := by
      unfold Db.liftImportance
      split
      · exact Db.forall_modify (fun r _ _ => hlift n e r hn he) hdb
      · exact hdb
    cases label with
    | contradiction =>
      simp only [Db.applyLabel]
      split_ifs <;> exact supersede_forall_rows hmark hdemote hdb _ _
    | update =>
      simp only [Db.applyLabel]
      split_ifs
      · exact supersede_forall_rows hmark hdemote hlifted n e
      all_goals exact supersede_forall_rows hmark hdemote hdb _ _
    | overlap | none_ => exact hdb
  induction pairs generalizing acc with
  | nil => exact h
  | cons p pairs ih =>
    refine ih ?_
    show ∀ r ∈ (acc.resolve llm answers p).db.memories, P r
    unfold Resolving.resolve
    split
    · rename_i n e hn he
      split
      · exact hlabel _ h n e (h n (List.mem_of_find?_eq_some hn)) (h e (List.mem_of_find?_eq_some he)) _
      · exact h
    · exact h

end

/-! ## Bridge tokens -/

def Write.tokens : Write F → List BridgeTokenRow
  | .insertBridgeToken row => [row]
  | _ => []

section
variable {db db' : Db F}

omit [Field F] [LinearOrder F] in
theorem upsertAssociation_tokens {row : AssociationRow F} {f : AssociationRow F → AssociationRow F}
    (h : db.upsertAssociation row f = .ok db') : db'.bridgeTokens = db.bridgeTokens := by
  unfold Db.upsertAssociation at h
  split at h
  · cases h
    rfl
  · split at h <;> cases h
    rfl

theorem queueConflicts_tokens {userId newId : String} {now : Int} {hits : List (String × F)}
    (h : db.queueConflicts userId newId now hits = .ok db') : db'.bridgeTokens = db.bridgeTokens := by
  refine queueConflicts_keeps (R := fun d' d => d'.bridgeTokens = d.bridgeTokens) (fun _ => rfl) (fun h h' => h'.trans h) ?_ h
  intro hit _ d d' hd
  cases hd with
  | pass | reinforce => rfl
  | queue _ hq =>
    unfold Db.queueConflict at hq
    split_ifs at hq <;> cases hq <;> rfl
  | tag h₁ h₂ => exact (upsertAssociation_tokens h₂).trans (upsertAssociation_tokens h₁)

omit [Field F] [LinearOrder F] in
theorem foldl_tokens {α : Type} {step : Db F → α → Db F} (hstep : ∀ d a, (step d a).bridgeTokens = d.bridgeTokens)
    (xs : List α) (db : Db F) : (xs.foldl step db).bridgeTokens = db.bridgeTokens := by
  induction xs generalizing db with
  | nil => rfl
  | cons x xs ih => exact (ih (step db x)).trans (hstep db x)

theorem Write.apply_tokens {w : Write F} {a : w.Res} (h : w.apply db = .ok (a, db')) :
    db'.bridgeTokens = db.bridgeTokens ++ w.tokens := by
  have hsame : ∀ {d : Db F}, d.bridgeTokens = db.bridgeTokens → d.bridgeTokens = db.bridgeTokens ++ [] := fun hd => by
    rw [hd, List.append_nil]
  cases w with
  | insertMemory row =>
    obtain ⟨d, hd, hp⟩ := map_ok h
    cases hp
    rw [insertMemory_ok hd]
    exact hsame rfl
  | updateMemory userId id upd =>
    cases h
    refine hsame ?_
    unfold Db.updateMemory
    dsimp only
    split
    · rfl
    · split <;> rfl
  | applyDirectBoost | promoteToCore | updateRetentionScores | migrateToHotMany | supersedeCluster =>
    cases h
    refine hsame ?_
    rw [modifyEach_fst]
    refine foldl_tokens (fun _ _ => ?_) _ db
    rfl
  | upsertEdge =>
    obtain ⟨d, hd, hp⟩ := map_ok h
    cases hp
    exact hsame (upsertAssociation_tokens hd)
  | strengthenPairs =>
    obtain ⟨d, hd, hp⟩ := map_ok h
    cases hp
    refine hsame (foldlM_ok (R := fun d' d => d'.bridgeTokens = d.bridgeTokens) (fun _ => rfl) (fun h h' => h'.trans h) ?_ hd)
    exact fun _ _ _ h => upsertAssociation_tokens h
  | cacheInsert row =>
    cases h
    refine hsame ?_
    unfold Db.cacheInsert
    split <;> rfl
  | insertBridgeToken row =>
    simp only [apply] at h
    split at h <;> cases h
    rfl
  | queueConflicts =>
    obtain ⟨d, hd, hp⟩ := map_ok h
    cases hp
    exact hsame (queueConflicts_tokens hd)
  | tickFloor rows now =>
    cases h
    refine hsame (foldl_tokens (fun d row => ?_) rows db)
    unfold Db.tickFloorRow Db.countAtFloor
    dsimp only
    split_ifs <;> rfl
  | tickExpire rows =>
    cases h
    refine hsame (foldl_tokens (fun d row => ?_) rows db)
    unfold Db.tickExpireRow
    split <;> rfl
  | _ =>
    cases h
    exact hsame rfl

theorem applyLabel_tokens (llm : Bool) (db : Db F) (n e : MemoryRow F) (label : ConflictLabel) :
    (db.applyLabel llm n e label).1.bridgeTokens = db.bridgeTokens := by
  have hsupersede : ∀ (d : Db F) (winner loser : MemoryRow F), (d.supersede winner loser).bridgeTokens = d.bridgeTokens := by
    intro d winner loser
    unfold Db.supersede
    dsimp only
    split <;> rfl
  have hlift : (db.liftImportance n e).bridgeTokens = db.bridgeTokens := by
    unfold Db.liftImportance
    split <;> rfl
  cases label with
  | contradiction =>
    simp only [Db.applyLabel]
    split_ifs <;> exact hsupersede _ _ _
  | update =>
    simp only [Db.applyLabel]
    split_ifs
    · exact (hsupersede _ _ _).trans hlift
    all_goals exact hsupersede _ _ _
  | overlap | none_ => rfl

theorem resolving_tokens (llm : Bool) (answers : ℕ → String → Except String String) (pairs : List ConflictPair)
    (acc : Resolving F) :
    (pairs.foldl (Resolving.pair llm answers) acc).db.bridgeTokens = acc.db.bridgeTokens := by
  induction pairs generalizing acc with
  | nil => rfl
  | cons p pairs ih =>
    refine (ih _).trans ?_
    show (acc.resolve llm answers p).db.bridgeTokens = acc.db.bridgeTokens
    unfold Resolving.resolve
    split
    · rename_i n e hn he
      split
      · exact applyLabel_tokens llm acc.db n e _
      · rfl
    · rfl

def Cmd.stored : (c : Cmd F) → c.Res → List BridgeTokenRow
  | .write (.insertBridgeToken row), .ok _ => [row]
  | _, _ => []

theorem exec_tokens (bm25 : Bm25 F) (c : Cmd F) (w : World F) :
    (exec bm25 c w).2.db.bridgeTokens = w.db.bridgeTokens ++ c.stored (exec bm25 c w).1 := by
  have hsame : ∀ {tokens : List BridgeTokenRow}, tokens = w.db.bridgeTokens → tokens = w.db.bridgeTokens ++ [] := fun h => by
    rw [h, List.append_nil]
  cases c with
  | write wr =>
    simp only [exec]
    split
    · cases wr <;> exact hsame rfl
    · split
      · rename_i a db happly
        have htable : db.bridgeTokens = w.db.bridgeTokens ++ wr.tokens := Write.apply_tokens happly
        cases wr <;> exact htable
      · cases wr <;> exact hsame rfl
  | resolveConflicts llm pairs =>
    simp only [exec]
    split
    · exact hsame rfl
    · exact hsame (resolving_tokens llm w.oracle.llm pairs ⟨w.db, 0, 0⟩)
  | _ => exact hsame rfl

end

end CognitiveMemory
