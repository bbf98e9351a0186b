import CognitiveMemory.Daemon.Tenancy
import Mathlib.Data.Fintype.EquivFin

/-! Write confinement: what a request leaves alone of the data of other users. -/

namespace CognitiveMemory
open Prog
variable {F : Type}

/-! ## The data of others -/

def Db.others (db : Db F) (user id : String) : Bool := db.memories.any fun r => r.id == id && r.userId != user

def Db.foreignEdge (db : Db F) (user : String) (e : AssociationRow F) : Bool :=
  db.others user e.sourceMemoryId && db.others user e.targetMemoryId

/-- The memories and queue entries of the others, and the edges between memories of theirs, are
the same in `db'` as in `db`. -/
structure Db.Frame (user : String) (db db' : Db F) : Prop where
  memories : db'.memories.filter (·.userId != user) = db.memories.filter (·.userId != user)
  edges : db'.associations.filter (db.foreignEdge user) = db.associations.filter (db.foreignEdge user)
  queue : db'.conflictQueue.filter (·.userId != user) = db.conflictQueue.filter (·.userId != user)

theorem others_filter (db : Db F) (user id : String) :
    db.others user id = (db.memories.filter (·.userId != user)).any fun r => r.id == id := by
  rw [List.any_filter]
  unfold Db.others
  congr 1
  funext r
  exact Bool.and_comm _ _

theorem others_iff {db : Db F} {user id : String} :
    db.others user id ↔ ∃ r ∈ db.memories, r.id = id ∧ r.userId ≠ user := by
  simp [Db.others]

namespace Db.Frame
variable {user : String} {db db' db'' : Db F}

theorem refl (user : String) (db : Db F) : Frame user db db := ⟨rfl, rfl, rfl⟩

theorem others_eq (h : Frame user db db') : db'.others user = db.others user := by
  funext id
  rw [others_filter, others_filter, h.memories]

theorem foreignEdge_eq (h : Frame user db db') : db'.foreignEdge user = db.foreignEdge user := by
  funext e
  unfold Db.foreignEdge
  rw [h.others_eq]

theorem trans (h : Frame user db db') (h' : Frame user db' db'') : Frame user db db'' where
  memories := h'.memories.trans h.memories
  edges := by
    have he := h'.edges
    rw [h.foreignEdge_eq] at he
    exact he.trans h.edges
  queue := h'.queue.trans h.queue

theorem modify (user : String) (db : Db F) {p : MemoryRow F → Bool} {f : MemoryRow F → MemoryRow F}
    (hp : ∀ r, p r → r.userId = user) (hf : ∀ r, (f r).userId = r.userId) : Frame user db (db.modify p f) := by
  refine ⟨?_, rfl, rfl⟩
  unfold Db.modify
  induction db.memories with
  | nil => rfl
  | cons r rows ih =>
    rw [List.map_cons, List.filter_cons, List.filter_cons, ih]
    by_cases h : p r
    · simp [h, hf, hp r h]
    · simp [h]

theorem foldl {α : Type} {step : Db F → α → Db F} (hstep : ∀ db a, Frame user db (step db a)) (xs : List α) (db : Db F) :
    Frame user db (xs.foldl step db) := by
  induction xs generalizing db with
  | nil => exact refl user db
  | cons x xs ih => exact (hstep db x).trans (ih (step db x))

theorem modifyEach (user : String) (db : Db F) {α : Type} {p : α → MemoryRow F → Bool} {f : α → MemoryRow F → MemoryRow F}
    (hp : ∀ x r, p x r → r.userId = user) (hf : ∀ x r, (f x r).userId = r.userId) (xs : List α) :
    Frame user db (db.modifyEach p f xs).1 := by
  rw [modifyEach_fst]
  exact foldl (fun d x => modify user d (hp x) (hf x)) xs db

end Db.Frame

theorem owned_user {userId id : String} {r : MemoryRow F} (h : owned userId id r) : r.userId = userId := by
  simp only [owned, Bool.and_eq_true, beq_iff_eq] at h
  exact h.1

theorem ownedAmong_user {userId : String} {ids : List String} {r : MemoryRow F} (h : ownedAmong userId ids r) :
    r.userId = userId := by
  simp only [ownedAmong, Bool.and_eq_true, beq_iff_eq] at h
  exact h.1

theorem MintedFor.not_others {spec : EmbeddingSpec F} {w : World F} (hw : w.Sound spec) {user id : String}
    (h : MintedFor w id user) : w.db.others user id = false := by
  by_contra hother
  obtain ⟨r, hr, rfl, hne⟩ := others_iff.mp (by simpa using hother)
  exact hne (MintedFor.unique hw (hw.rows r hr) h)

/-! ## Statements -/

theorem frame_upsert {user : String} {db db' : Db F} {row : AssociationRow F} {f : AssociationRow F → AssociationRow F}
    (hf : ∀ e, (f e).sourceMemoryId = e.sourceMemoryId ∧ (f e).targetMemoryId = e.targetMemoryId)
    (hrow : db.foreignEdge user row = false) (h : db.upsertAssociation row f = .ok db') : Db.Frame user db db' := by
  have hkeep : ∀ e e' : AssociationRow F, e.sourceMemoryId = e'.sourceMemoryId → e.targetMemoryId = e'.targetMemoryId →
      db.foreignEdge user e = db.foreignEdge user e' := fun e e' hs ht => by
    unfold Db.foreignEdge
    rw [hs, ht]
  unfold Db.upsertAssociation at h
  split at h
  · cases h
    refine ⟨rfl, ?_, rfl⟩
    dsimp only
    induction db.associations with
    | nil => rfl
    | cons e es ih =>
      rw [List.map_cons, List.filter_cons, List.filter_cons, ih]
      by_cases hkey : (e.sourceMemoryId == row.sourceMemoryId && e.targetMemoryId == row.targetMemoryId) = true
      · rw [if_pos hkey]
        simp only [Bool.and_eq_true, beq_iff_eq] at hkey
        rw [hkeep (f e) e (hf e).1 (hf e).2, hkeep e row hkey.1 hkey.2, hrow]
        rfl
      · rw [if_neg hkey]
  · split at h <;> cases h
    refine ⟨rfl, ?_, rfl⟩
    rw [List.filter_append]
    simp [hrow]

theorem frame_strengthen [Field F] [LinearOrder F] {user : String} {es : List (String × String)} {amount : F}
    {now : Int} {kind : String} {db db' : Db F} (hes : ∀ p ∈ es, db.others user p.1 = false)
    (h : es.foldlM (Db.strengthenEdge amount now kind) db = .ok db') : Db.Frame user db db' := by
  induction es generalizing db with
  | nil =>
    cases h
    exact .refl user _
  | cons p es ih =>
    rw [List.foldlM_cons] at h
    obtain ⟨d, hd, h⟩ := bind_ok h
    have hp : Db.Frame user db d := by
      refine frame_upsert ?_ ?_ hd
      · exact fun _ => ⟨rfl, rfl⟩
      · simp [Db.foreignEdge, hes p List.mem_cons_self]
    refine hp.trans (ih (fun q hq => ?_) h)
    rw [hp.others_eq]
    exact hes q (List.mem_cons_of_mem _ hq)

theorem filter_filter_eq {α : Type} {l : List α} {p q : α → Bool} (h : ∀ a ∈ l, q a → p a) :
    (l.filter p).filter q = l.filter q := by
  rw [List.filter_filter]
  refine List.filter_congr fun a ha => ?_
  by_cases hq : q a
  · simp [hq, h a ha hq]
  · simp [hq]

theorem frame_deleteEdges {user : String} {db : Db F} {p : AssociationRow F → Bool}
    (hp : ∀ e ∈ db.associations, db.foreignEdge user e → p e = false) : Db.Frame user db (db.deleteEdges p) :=
  ⟨rfl, filter_filter_eq fun e he hf => by simp [hp e he hf], rfl⟩

/-- Deleting rows of the user: the cascades reach ids drawn for the user only. -/
theorem frame_deleteMemories {spec : EmbeddingSpec F} {w : World F} (hw : w.Sound spec) {user : String}
    {p : MemoryRow F → Bool} (hp : ∀ r, p r → r.userId = user) : Db.Frame user w.db (w.db.deleteMemories p) := by
  have hgone : ∀ id, ¬ MintedFor w id user → (!((w.db.memories.filter p).map MemoryRow.id).contains id) = true := by
    intro id hid
    rw [Bool.not_eq_true', ← Bool.not_eq_true]
    intro hc
    obtain ⟨r, hr, rfl⟩ := List.mem_map.mp (List.contains_iff_mem.mp hc)
    obtain ⟨hmem, hpr⟩ := List.mem_filter.mp hr
    exact hid (hp r hpr ▸ hw.rows r hmem)
  refine ⟨?_, ?_, ?_⟩
  · refine filter_filter_eq fun r _ hr => ?_
    by_contra hpr
    simp only [bne_iff_ne, ne_eq] at hr
    exact hr (hp r (by simpa using hpr))
  · have hkept : ∀ id, w.db.others user id → ¬ MintedFor w id user := by
      intro id hother hid
      rw [hid.not_others hw] at hother
      cases hother
    refine filter_filter_eq fun e _ hf => ?_
    obtain ⟨hs, ht⟩ := Bool.and_eq_true_iff.mp hf
    exact Bool.and_eq_true_iff.mpr ⟨hgone _ (hkept _ hs), hgone _ (hkept _ ht)⟩
  · refine filter_filter_eq fun c hc hne => ?_
    simp only [bne_iff_ne, ne_eq] at hne
    obtain ⟨hn, he⟩ := hw.queue c hc
    exact Bool.and_eq_true_iff.mpr ⟨hgone _ fun h => hne (MintedFor.unique hw hn h),
      hgone _ fun h => hne (MintedFor.unique hw he h)⟩

theorem frame_queueConflicts [Field F] [LinearOrder F] {user newId : String} {now : Int} {hits : List (String × F)}
    {db db' : Db F}
    (hnew : db.others user newId = false) (h : db.queueConflicts user newId now hits = .ok db') : Db.Frame user db db' := by
  induction hits generalizing db with
  | nil =>
    cases h
    exact .refl user _
  | cons hit hits ih =>
    obtain ⟨hitId, sim⟩ := hit
    have hrest : ∀ {d : Db F}, Db.Frame user db d → d.queueConflicts user newId now hits = .ok db' → Db.Frame user db db' :=
      fun hd hq => hd.trans (ih (by rw [hd.others_eq]; exact hnew) hq)
    rw [Db.queueConflicts] at h
    split at h
    · exact ih hnew h
    · split at h
      · obtain ⟨d, hd, h⟩ := bind_ok h
        refine hrest ?_ h
        unfold Db.queueConflict at hd
        split at hd
        · cases hd
          exact .refl user _
        · split at hd <;> cases hd
          refine ⟨rfl, rfl, ?_⟩
          rw [List.filter_append]
          simp
      · split at h
        · refine hrest (.modify user db ?_ ?_) h
          · exact fun r hr => owned_user hr
          · exact fun _ => rfl
        · split at h
          · obtain ⟨d, hd, h⟩ := bind_ok h
            obtain ⟨d₂, hd₂, h⟩ := bind_ok h
            have htag : Db.Frame user db d := by
              refine frame_upsert ?_ ?_ hd
              · exact fun _ => ⟨rfl, rfl⟩
              · simp [Db.foreignEdge, hnew]
            have htag₂ : Db.Frame user d d₂ := by
              refine frame_upsert ?_ ?_ hd₂
              · exact fun _ => ⟨rfl, rfl⟩
              · simp [Db.foreignEdge, htag.others_eq, hnew]
            exact hrest (htag.trans htag₂) h
          · cases h
            exact .refl user _

/-- The request of the user's own Link or Unlink reaches an edge between memories of others: a
Link needs the two memories to exist, an Unlink the edge. -/
def Caller.meddles (t : Caller F) (db : Db F) : Prop :=
  ∃ a b, db.others t.user a ∧ db.others t.user b ∧
    (t.links a b ∨ ∃ e ∈ db.associations, e.joins a b ∧ (t.unlinks a b false ∨ t.unlinks a b true ∨ t.unlinks b a true))

theorem meddles_frame {t : Caller F} {db db' : Db F} (h : Db.Frame t.user db db') (hm : t.meddles db') : t.meddles db := by
  obtain ⟨a, b, ha, hb, hedge⟩ := hm
  have hmem : ∀ e ∈ db'.associations, e.joins a b → e ∈ db.associations := fun e he hj => by
    simp only [AssociationRow.joins, Bool.and_eq_true, beq_iff_eq] at hj
    have hforeign : db.foreignEdge t.user e := by
      unfold Db.foreignEdge
      rw [hj.1, hj.2, ← h.others_eq, ha, hb]
      rfl
    have hin : e ∈ db'.associations.filter (db.foreignEdge t.user) := List.mem_filter.mpr ⟨he, hforeign⟩
    rw [h.edges] at hin
    exact (List.mem_filter.mp hin).1
  rw [h.others_eq] at ha hb
  refine ⟨a, b, ha, hb, hedge.imp_right ?_⟩
  rintro ⟨e, he, hj, hu⟩
  exact ⟨e, hmem e he hj, hj, hu⟩

theorem frame_insertMemory {user : String} {db db' : Db F} {row : MemoryRow F} (hrow : row.userId = user)
    (h : db.insertMemory row = .ok db') : Db.Frame user db db' := by
  rw [insertMemory_ok h]
  refine ⟨?_, rfl, rfl⟩
  rw [List.filter_append]
  simp [hrow]

theorem frame_updateMemory (user id : String) (upd : MemoryUpdate F) (db : Db F) :
    Db.Frame user db (db.updateMemory user id upd) := by
  obtain ⟨hmemories, hedges, hqueue, -⟩ := updateMemory_tables db user id upd
  have hmod := Db.Frame.modify user db (p := owned user id) (f := upd.set) (fun r hr => owned_user hr) fun _ => rfl
  refine ⟨?_, by rw [hedges], by rw [hqueue]⟩
  rw [hmemories]
  exact hmod.memories

/-- An edge between strangers' memories comes from Link alone, which is what meddling says. -/
theorem not_foreign_of_links {t : Caller F} {db : Db F} (hm : ¬ t.meddles db) {row : AssociationRow F}
    (hmay : db.others t.user row.sourceMemoryId = false ∨ t.links row.sourceMemoryId row.targetMemoryId) :
    db.foreignEdge t.user row = false := by
  rw [← Bool.not_eq_true]
  intro hforeign
  obtain ⟨ha, hb⟩ := Bool.and_eq_true_iff.mp hforeign
  rcases hmay with hown | hlink
  · rw [hown] at ha
    cases ha
  · exact hm ⟨_, _, ha, hb, .inl hlink⟩

/-- No edge the request unlinks is one between strangers' memories. -/
theorem not_foreign_of_unlinks {t : Caller F} {db : Db F} (hm : ¬ t.meddles db) {e : AssociationRow F}
    (he : e ∈ db.associations)
    {a b : String} (hj : e.joins a b) (hunlinks : t.unlinks a b false ∨ t.unlinks a b true ∨ t.unlinks b a true) :
    ¬ db.foreignEdge t.user e := by
  intro hforeign
  obtain ⟨ha, hb⟩ := Bool.and_eq_true_iff.mp hforeign
  have hkey := hj
  simp only [AssociationRow.joins, Bool.and_eq_true, beq_iff_eq] at hkey
  rw [hkey.1] at ha
  rw [hkey.2] at hb
  exact hm ⟨a, b, ha, hb, .inr ⟨e, he, hj, hunlinks⟩⟩

theorem frame_strengthenPairs [Field F] [LinearOrder F] {spec : EmbeddingSpec F} {w : World F} (hw : w.Sound spec)
    {user : String}
    {pairs : List (String × String)} (hpairs : ∀ p ∈ pairs, MintedFor w p.1 user ∧ MintedFor w p.2 user) {amount : F} {now : Int}
    {kind : String} {db : Db F} (h : w.db.strengthenPairs pairs amount now kind = .ok db) : Db.Frame user w.db db := by
  refine frame_strengthen (fun p hp => ?_) h
  obtain ⟨q, hq, hp⟩ := List.mem_flatMap.mp hp
  obtain ⟨h₁, h₂⟩ := hpairs q hq
  simp only [List.mem_cons, List.not_mem_nil, or_false] at hp
  rcases hp with rfl | rfl
  · exact h₁.not_others hw
  · exact h₂.not_others hw

theorem frame_cacheInsert (user : String) (db : Db F) (row : CacheRow F) : Db.Frame user db (db.cacheInsert row) := by
  unfold Db.cacheInsert
  split
  · exact .refl _ _
  · exact ⟨rfl, rfl, rfl⟩

theorem frame_write [Field F] [LinearOrder F] {spec : EmbeddingSpec F} {t : Caller F} {w : World F}
    (hw : w.Sound spec) (htick : ¬ t.isTick)
    (hm : ¬ t.meddles w.db) {wr : Write F} (hmay : t.mayWrite spec w wr) {a : wr.Res} {db : Db F}
    (h : wr.apply w.db = .ok (a, db)) : Db.Frame t.user w.db db := by
  cases wr with
  | insertMemory row =>
    obtain ⟨d, hd, hp⟩ := map_ok h
    cases hp
    exact frame_insertMemory (hmay.2.1.resolve_left htick) hd
  | updateMemory userId id upd =>
    cases h
    obtain ⟨rfl, -⟩ := hmay
    exact frame_updateMemory t.user id upd w.db
  | deleteMemory userId id =>
    cases h
    cases hmay
    exact frame_deleteMemories hw fun r hr => owned_user hr
  | deleteMany userId ids =>
    cases h
    cases hmay
    exact frame_deleteMemories hw fun r hr => ownedAmong_user hr
  | clearUser userId =>
    cases h
    cases hmay
    exact frame_deleteMemories hw fun r hr => by simpa using hr
  | applyDirectBoost | updateRetentionScores | migrateToHotMany =>
    cases h
    cases hmay
    refine .modifyEach _ _ ?_ ?_ _
    · exact fun _ _ hr => owned_user hr
    · exact fun _ _ => rfl
  | promoteToCore userId ids =>
    cases h
    cases hmay
    refine .modifyEach _ _ ?_ ?_ _
    · exact fun _ _ hr => owned_user (Bool.and_eq_true_iff.mp hr).1
    · exact fun _ _ => rfl
  | markSuperseded userId ids summaryId =>
    cases h
    cases hmay
    exact .modify _ _ (fun _ hr => ownedAmong_user hr) fun _ => rfl
  | migrateToCold | migrateToHot | convertToStub =>
    cases h
    cases hmay
    exact .modify _ _ (fun _ hr => owned_user hr) fun _ => rfl
  | upsertEdge a b existing bump now kind =>
    obtain ⟨d, hd, hp⟩ := map_ok h
    cases hp
    refine frame_upsert ?_ ?_ hd
    · exact fun _ => ⟨rfl, rfl⟩
    · exact not_foreign_of_links hm (hmay.imp_left fun hown => hown.1.not_others hw)
  | strengthenPairs pairs amount now kind =>
    obtain ⟨d, hd, hp⟩ := map_ok h
    cases hp
    exact frame_strengthenPairs hw hmay.2 hd
  | deleteEdge a b =>
    cases h
    refine frame_deleteEdges fun e he hf => Bool.eq_false_iff.mpr fun hj => ?_
    exact not_foreign_of_unlinks hm he hj (.inl hmay) hf
  | deleteEdgeBidirectional a b =>
    cases h
    refine frame_deleteEdges fun e he hf => Bool.eq_false_iff.mpr fun hj => ?_
    rcases Bool.or_eq_true_iff.mp hj with hj | hj
    · exact not_foreign_of_unlinks hm he hj (.inr (.inl hmay)) hf
    · exact not_foreign_of_unlinks hm he hj (.inr (.inr hmay)) hf
  | cacheInsert row =>
    cases h
    exact frame_cacheInsert t.user w.db row
  | insertBridgeToken row =>
    simp only [Write.apply] at h
    split at h <;> cases h
    exact ⟨rfl, rfl, rfl⟩
  | queueConflicts userId newId hits now =>
    obtain ⟨d, hd, hp⟩ := map_ok h
    cases hp
    obtain ⟨rfl, hnew, -⟩ := hmay
    exact frame_queueConflicts (hnew.not_others hw) hd
  | tickFloor | tickExpire | supersedeCluster => exact absurd hmay htick

/-! ## Requests -/

/-- ULIDs nobody drew before. -/
structure World.Fresh (w : World F) (o : Oracle) : Prop where
  distinct : Function.Injective o.ulid
  fresh : ∀ n u, (o.ulid n, u) ∉ w.minted

theorem World.Sound.oracle {spec : EmbeddingSpec F} {w : World F} (hw : w.Sound spec) {o : Oracle} (ho : w.Fresh o) :
    World.Sound spec { w with oracle := o } := ⟨hw.functional, ho.fresh, ho.distinct, hw.rows, hw.queue, hw.cache⟩

variable [Field F] [LinearOrder F]

theorem frame_exec {spec : EmbeddingSpec F} (bm25 : Bm25 F) {t : Caller F} {w : World F} {c : Cmd F} (hw : w.Sound spec)
    (htick : ¬ t.isTick) (hm : ¬ t.meddles w.db) (hmay : t.may spec w c) :
    Db.Frame t.user w.db (exec bm25 c w).2.db := by
  cases c with
  | write wr =>
    simp only [exec]
    split
    · exact .refl _ _
    · split
      · exact frame_write hw htick hm hmay ‹_›
      · exact .refl _ _
  | resolveConflicts llm pairs => exact absurd hmay htick
  | _ => exact .refl _ _

theorem frame_serve [Elementary F] {bm25 : Bm25 F} {t : Caller F} {w : World F} (hw : w.Sound EmbeddingSpec.any)
    (htick : ¬ t.isTick) (hm : ¬ t.meddles w.db) : Db.Frame t.user w.db (t.serve bm25 w).db := by
  have hkeep := (emits_serving any_serves bm25 t _ w ⟨trivial, rfl⟩ hw).run_keeps (J := fun w' => Db.Frame t.user w.db w'.db) hw
    (.refl _ _) fun w' c hw' hJ hall => hJ.trans (frame_exec bm25 hw' htick (fun h => hm (meddles_frame hJ h)) hall)
  exact hkeep.2.2.1

def Db.Stamped (db : Db F) (now : Int) (a b : String) : Prop := ∃ e ∈ db.associations, e.joins a b ∧ e.updatedAt = now

theorem upsertEdge_stamped {db : Db F} {a b : String} (existing : Option F) (bump : F) (now : Int) (kind : String)
    (ha : db.hasMemory a) (hb : db.hasMemory b) :
    ∃ db', db.upsertEdge a b existing bump now kind = .ok db' ∧ db'.memories = db.memories ∧ db'.Stamped now a b ∧
      ∀ x y, db.Stamped now x y → db'.Stamped now x y := by
  unfold Db.upsertEdge Db.upsertAssociation
  dsimp only
  split
  · rename_i hedge
    refine ⟨_, rfl, rfl, ?_, ?_⟩
    · obtain ⟨e, he⟩ := Option.isSome_iff_exists.mp hedge
      have hkey := List.find?_some he
      refine ⟨_, List.mem_map_of_mem (List.mem_of_find?_eq_some he), ?_⟩
      rw [if_pos hkey]
      exact ⟨hkey, rfl⟩
    · rintro x y ⟨e, he, hj, hn⟩
      refine ⟨_, List.mem_map_of_mem he, ?_⟩
      split
      · exact ⟨hj, rfl⟩
      · exact ⟨hj, hn⟩
  · rw [ha, hb]
    refine ⟨_, rfl, rfl, ⟨_, List.mem_append_right _ List.mem_cons_self, ?_, rfl⟩, ?_⟩
    · simp [AssociationRow.joins]
    · rintro x y ⟨e, he, h⟩
      exact ⟨e, List.mem_append_left _ he, h⟩

def World.faultless (w : World F) : Prop := ∀ n, w.oracle.sqlFault n = false

theorem run_createOrStrengthen (bm25 : Bm25 F) {w : World F} {a b : String} (bump : F) (now : Int) (kind : String)
    (hf : w.faultless) (ha : w.db.hasMemory a) (hb : w.db.hasMemory b) :
    ∃ v w', (createOrStrengthen a b bump now kind).run (exec bm25) w = (.ok v, w') ∧ w'.faultless ∧
      w'.db.memories = w.db.memories ∧ w'.db.Stamped now a b ∧ ∀ x y, w.db.Stamped now x y → w'.db.Stamped now x y := by
  obtain ⟨db', hup, hmem, hstamp, hkeep⟩ :=
    upsertEdge_stamped ((w.db.edge? a b).map AssociationRow.weight) bump now kind ha hb
  refine ⟨newWeight ((w.db.edge? a b).map AssociationRow.weight) bump, (w.answer w.db).answer db', ?_, fun n => hf _,
    hmem, hstamp, hkeep⟩
  have hread : (query (.edgeWeight a b) : Repo F _).run (exec bm25) w = (.ok _, w.answer w.db) := run_query (hf 0) rfl
  refine (run_bind_ok _ hread).trans (run_write (hf 1) ?_)
  simp only [Write.apply, World.answer, hup, Except.map]

variable [Elementary F]

/-- The Link of existing memories leaves the edge it names freshly written. -/
theorem serve_link (bm25 : Bm25 F) {t : Caller F} {w : World F} {a b : String} (hf : w.faultless)
    (hlink : t.links a b) (ha : w.db.hasMemory a) (hb : w.db.hasMemory b) :
    (t.serve bm25 w).db.Stamped (w.oracle.clock 0) a b := by
  obtain ⟨args, hreq, hu, hedge⟩ := hlink
  let w₁ : World F := { w with oracle := w.oracle.nextClock }
  have hf₁ : w₁.faultless := hf
  have hserve : t.serve bm25 w = ((sqlx (linkStrength args (w.oracle.clock 0))).run (exec bm25) w₁).2 := by
    have hrequire : (requireUserMatch args.userId t.user : HandlerM F Unit) = Prog.pure () := if_pos hu
    unfold Caller.serve
    rw [hreq]
    simp only [handleRequest, handleMemoryRequest, handleMemoryLink, hrequire, bind_eq, pure_bind', unixNow, call_bind,
      run_command, pure_eq, run_bind]
    split
    · rename_i heq
      rw [show exec bm25 Cmd.clock w = (w.oracle.clock 0, w₁) from rfl] at heq
      rw [heq]
      rfl
    · rename_i heq
      rw [show exec bm25 Cmd.clock w = (w.oracle.clock 0, w₁) from rfl] at heq
      rw [heq]
  rw [hserve, sqlx, run_mapError]
  unfold linkStrength
  by_cases hbi : args.bidirectional
  · rw [if_pos hbi]
    have hboth : w₁.db.hasMemory args.sourceId ∧ w₁.db.hasMemory args.targetId := by
      rcases hedge with hedge | ⟨-, hedge⟩ <;> cases hedge
      · exact ⟨ha, hb⟩
      · exact ⟨hb, ha⟩
    obtain ⟨v, w₂, hrun, hf₂, hmem, hstamp, -⟩ := run_createOrStrengthen bm25 args.strength
      (w.oracle.clock 0) args.kind hf₁ hboth.1 hboth.2
    have hhas : ∀ id, w₂.db.hasMemory id = w₁.db.hasMemory id := fun id => by rw [Db.hasMemory, hmem, Db.hasMemory]
    obtain ⟨v', w₃, hrun', -, -, hstamp', hkeep⟩ := run_createOrStrengthen bm25 args.strength
      (w.oracle.clock 0) args.kind hf₂ (hhas _ ▸ hboth.2) (hhas _ ▸ hboth.1)
    have hdone : (linkBidirectional args.sourceId args.targetId args.strength (w.oracle.clock 0) args.kind).run
        (exec bm25) w₁ = (.ok v, w₃) := (run_bind_ok _ hrun).trans ((run_bind_ok _ hrun').trans rfl)
    rw [hdone]
    rcases hedge with hedge | ⟨-, hedge⟩ <;> cases hedge
    · exact hkeep _ _ hstamp
    · exact hstamp'
  · rw [if_neg hbi]
    obtain ⟨rfl, rfl⟩ : args.sourceId = a ∧ args.targetId = b := by simpa [hbi] using hedge
    obtain ⟨v, w₂, hrun, -, -, hstamp, -⟩ := run_createOrStrengthen bm25 args.strength
      (w.oracle.clock 0) args.kind hf₁ ha hb
    rw [hrun]
    exact hstamp

theorem serve_unlink {bm25 : Bm25 F} {t : Caller F} {w : World F} {a b : String} {bidirectional : Bool}
    (hf : w.faultless) (hunlink : t.unlinks a b bidirectional) :
    (t.serve bm25 w).db.associations = w.db.associations.filter fun e =>
      !(e.joins a b || bidirectional && e.joins b a) := by
  obtain ⟨args, hreq, hu, rfl, rfl, rfl⟩ := hunlink
  have hrequire : (requireUserMatch args.userId t.user : HandlerM F Unit) = Prog.pure () := if_pos hu
  have hdelete : ∀ (c : Write F) (n : c.Res) (db : Db F), c.apply w.db = .ok (n, db) →
      ((sqlx (write c)).run (exec bm25) w) = (.ok n, w.answer db) := fun c n db h => by
    rw [sqlx, run_mapError, run_write (hf 0) h]
    rfl
  unfold Caller.serve
  rw [hreq]
  simp only [handleRequest, handleMemoryRequest, handleMemoryUnlink]
  by_cases hbi : args.bidirectional
  · rw [if_pos hbi, hbi]
    have hdone := hdelete (.deleteEdgeBidirectional args.sourceId args.targetId) _ _ rfl
    simp only [affecting, hrequire, bind_eq, pure_bind', run_bind_ok _ hdone]
    rfl
  · rw [if_neg hbi, Bool.eq_false_iff.mpr hbi]
    have hdone := hdelete (.deleteEdge args.sourceId args.targetId) _ _ rfl
    simp only [affectingOne, hrequire, bind_eq, pure_bind', run_bind_ok _ hdone, Bool.false_and, Bool.or_false]
    rfl

/-- A request other than the tick leaves the data of the others as it is, whatever it is
answered, exactly when it is no Link or Unlink of theirs. -/
theorem frame_iff {bm25 : Bm25 F} {w : World F} (h : Reachable bm25 anyCaller anyStep w) {t : Caller F}
    (htick : ¬ t.isTick) :
    (∀ o : Oracle, w.Fresh o → Db.Frame t.user w.db (t.serve bm25 { w with oracle := o }).db) ↔ ¬ t.meddles w.db := by
  have hw : w.Sound EmbeddingSpec.any := h.sound any_serves
  constructor
  · rintro hframe ⟨a, b, ha, hb, hedge⟩
    have hforeign : ∀ e : AssociationRow F, e.joins a b → w.db.foreignEdge t.user e := fun e hj => by
      simp only [AssociationRow.joins, Bool.and_eq_true, beq_iff_eq] at hj
      rw [Db.foreignEdge, hj.1, hj.2, ha, hb]
      rfl
    have hhas : ∀ id, w.db.others t.user id → w.db.hasMemory id := fun id hid => by
      obtain ⟨r, hr, hrid, -⟩ := others_iff.mp hid
      exact hasMemory_iff.mpr ⟨r, hr, hrid⟩
    obtain ⟨now, hnow⟩ := Infinite.exists_notMem_finset (w.db.associations.map AssociationRow.updatedAt).toFinset
    let o : Oracle := { w.oracle with clock := fun _ => now, sqlFault := fun _ => false }
    have hedges := (hframe o ⟨hw.distinct, hw.fresh⟩).edges
    have hf : World.faultless { w with oracle := o } := fun _ => rfl
    rcases hedge with hlink | ⟨e, he, hj, hunlink⟩
    · -- no edge of the old table carries the clock's reading
      obtain ⟨e, he, hj, hstamp⟩ := serve_link bm25 hf hlink (hhas a ha) (hhas b hb)
      have hold := List.mem_filter.mpr ⟨he, hforeign e hj⟩
      rw [hedges] at hold
      have hstamp' : e.updatedAt = now := hstamp
      refine hnow (List.mem_toFinset.mpr ?_)
      rw [← hstamp']
      exact List.mem_map_of_mem (List.mem_filter.mp hold).1
    · have hgone : e ∉ (t.serve bm25 { w with oracle := o }).db.associations := by
        rcases hunlink with hunlink | hunlink | hunlink <;>
        · rw [serve_unlink hf hunlink]
          simp [hj]
      have hkept := List.mem_filter.mpr ⟨he, hforeign e hj⟩
      rw [← hedges] at hkept
      exact hgone (List.mem_filter.mp hkept).1
  · exact fun hm o ho => frame_serve (hw.oracle ho) htick hm

def bobsPair : World ℚ := (batch "bob" ["milk", "tea"]).serve Bm25.none World.quiet

def unlink (user a b : String) : Caller ℚ where
  app := .flat
  user := user
  request := .memory (.unlink ⟨user, a, b, false⟩)

theorem bobsPair_reachable : Reachable Bm25.none anyCaller anyStep bobsPair :=
    quiet_start.reachable.serve trivial fun _ _ => trivial

theorem unlink_not_tick (user a b : String) : ¬ (unlink user a b).isTick := by
  rintro ⟨sync, h⟩
  cases h

theorem frame_unlink :
    (∀ o : Oracle, bobsPair.Fresh o → Db.Frame "alice" bobsPair.db
      ((unlink "alice" "mem_" "mem_a").serve Bm25.none { bobsPair with oracle := o }).db) ↔
      ¬ (unlink "alice" "mem_" "mem_a").meddles bobsPair.db :=
  frame_iff bobsPair_reachable (unlink_not_tick _ _ _)

/-- Alice unlinks Bob's memories. -/
theorem unlink_breaks_frame : ¬ ∀ w : World ℚ, Reachable Bm25.none anyCaller anyStep w → ∀ t : Caller ℚ, ¬ t.isTick →
    Db.Frame t.user w.db (t.serve Bm25.none w).db := by
  intro h
  have hframe := h bobsPair bobsPair_reachable (unlink "alice" "mem_" "mem_a") (unlink_not_tick _ _ _)
  have hbroken : ((unlink "alice" "mem_" "mem_a").serve Bm25.none bobsPair).db.associations.filter
      (bobsPair.db.foreignEdge "alice") ≠ bobsPair.db.associations.filter (bobsPair.db.foreignEdge "alice") := by
    decide +kernel
  exact hbroken hframe.edges

end CognitiveMemory
