import CognitiveMemory.Daemon.Handlers
import CognitiveMemory.Search.Ranking
import CognitiveMemory.Store.Integrity
import Mathlib.Tactic.Linarith

/-! What storing a memory does to the memories it resembles: the bands of `queue_conflicts_for`, and what
its transaction leaves of a memory in each. -/

namespace CognitiveMemory
open Prog
variable {F : Type}

/-! ## Bands -/

inductive Band
  | conflict
  | reinforce
  | tag
  | apart
  deriving DecidableEq

variable [Field F] [LinearOrder F]

def bandOf (sim : F) : Band :=
  if 85 / 100 ≤ sim then .conflict
  else if 75 / 100 ≤ sim then .reinforce
  else if 4 / 10 ≤ sim then .tag
  else .apart

/-- What the store holds of a new memory and another one: whether the pair is queued, the row of the
other, and the weights of the edges between them. -/
structure Trace (F : Type) where
  queued : Bool
  row : Option (MemoryRow F)
  forth : Option F
  back : Option F
  deriving DecidableEq

def Db.trace (db : Db F) (userId newId id : String) : Trace F where
  queued := db.conflictQueue.any fun c => c.userId == userId && c.newMemoryId == newId && c.existingMemoryId == id
  row := db.memories.find? (·.id == id)
  forth := (db.edge? newId id).map AssociationRow.weight
  back := (db.edge? id newId).map AssociationRow.weight

def reinforced (m : MemoryRow F) : MemoryRow F := { m with stability := min 1 (m.stability + 5 / 100) }

/-- What the transaction does with a hit, and the numbers it stores where it stores any. -/
structure Verdict (F : Type) where
  band : Band
  sim : F
  weight : F

def Verdict.leaves (v : Verdict F) (m : MemoryRow F) : Trace F :=
  match v.band with
  | .conflict => ⟨true, some m, none, none⟩
  | .reinforce => ⟨false, some (reinforced m), none, none⟩
  | .tag => ⟨false, some m, some v.weight, some v.weight⟩
  | .apart => ⟨false, some m, none, none⟩

/-! ## The transaction -/

/-- What the transaction does for one hit. -/
def Db.settle (userId newId : String) (now : Int) (db : Db F) (hit : String × Verdict F) : Except SqlError (Db F) :=
  match hit.2.band with
  | .conflict => db.queueConflict userId newId hit.1 hit.2.sim now
  | .reinforce => .ok (db.modify (owned userId hit.1) reinforced)
  | .tag => do
    let db ← db.synapticTag newId hit.1 hit.2.weight now
    db.synapticTag hit.1 newId hit.2.weight now
  | .apart => .ok db

def verdict (sim : F) : Verdict F := ⟨bandOf sim, sim, synapticTagWeight sim⟩

def Db.ingest (userId newId : String) (now : Int) (db : Db F) (hit : String × F) : Except SqlError (Db F) :=
  db.settle userId newId now (hit.1, verdict hit.2)

section
variable {userId newId : String} {now : Int} {db db' : Db F}

theorem bandOf_apart [IsStrictOrderedRing F] {sim : F} (h : sim < 4 / 10) : bandOf sim = .apart := by
  have h₁ : sim < 75 / 100 := h.trans (by norm_num)
  have h₂ : sim < 85 / 100 := h.trans (by norm_num)
  rw [bandOf, if_neg (not_le.mpr h₂), if_neg (not_le.mpr h₁), if_neg (not_le.mpr h)]

theorem foldlM_apart [IsStrictOrderedRing F] {hits : List (String × F)} (h : ∀ hit ∈ hits, hit.2 < 4 / 10) :
    hits.foldlM (Db.ingest userId newId now) db = .ok db := by
  induction hits with
  | nil => rfl
  | cons hit hits ih =>
    obtain ⟨hlow, hrest⟩ := List.forall_mem_cons.mp h
    have hleft : db.ingest userId newId now hit = .ok db := by
      rw [Db.ingest, verdict, bandOf_apart hlow]
      rfl
    rw [List.foldlM_cons, hleft]
    exact ih hrest

theorem queueConflicts_eq [IsStrictOrderedRing F] {hits : List (String × F)} (h : hits.Pairwise fun a b => b.2 ≤ a.2) :
    db.queueConflicts userId newId now hits = (hits.filter (·.1 != newId)).foldlM (Db.ingest userId newId now) db := by
  induction hits generalizing db with
  | nil => rfl
  | cons hit hits ih =>
    obtain ⟨hitId, sim⟩ := hit
    obtain ⟨hle, hrest⟩ := List.pairwise_cons.mp h
    rw [Db.queueConflicts]
    by_cases hnew : hitId = newId
    · rw [if_pos hnew, List.filter_cons_of_neg (by simpa using hnew)]
      exact ih hrest
    rw [if_neg hnew, List.filter_cons_of_pos (by simpa using hnew), List.foldlM_cons, Db.ingest, verdict, Db.settle, bandOf]
    dsimp only
    split
    · exact bind_congr fun d => ih hrest
    · split
      · exact ih hrest
      · split
        · simp only [bind_assoc, ih hrest]
        · rename_i hlow
          refine (foldlM_apart fun x hx => ?_).symm
          exact (hle x (List.mem_of_mem_filter hx)).trans_lt (not_le.mp hlow)

/-! ## One memory -/

omit [Field F] [LinearOrder F] in
theorem find?_modify {p : MemoryRow F → Bool} {f : MemoryRow F → MemoryRow F} (hf : ∀ r, (f r).id = r.id) (id : String) :
    (db.modify p f).memories.find? (·.id == id) =
      (db.memories.find? (·.id == id)).map fun r => if p r then f r else r := by
  have hkey : ((fun r : MemoryRow F => r.id == id) ∘ fun r => if p r then f r else r) = fun r => r.id == id := by
    funext r
    simp only [Function.comp_apply]
    split
    · rw [hf]
    · rfl
  rw [Db.modify, List.find?_map, hkey]

omit [Field F] [LinearOrder F] in
theorem edge?_synapticTag {src tgt : String} {weight : F} (h : db.synapticTag src tgt weight now = .ok db') (a b : String) :
    (db'.edge? a b).map AssociationRow.weight =
      if (src, tgt) = (a, b) then some weight else (db.edge? a b).map AssociationRow.weight := by
  rw [edge?_upsert h (fun _ => ⟨rfl, rfl⟩) a b]
  split
  · cases db.edge? a b <;> rfl
  · rfl

theorem settle_other {hit : String × Verdict F} {id : String} (hid : hit.1 ≠ id) (hnew : newId ≠ id)
    (h : db.settle userId newId now hit = .ok db') : db'.trace userId newId id = db.trace userId newId id := by
  unfold Db.settle at h
  cases hband : hit.2.band with
  | conflict =>
    simp only [hband] at h
    obtain ⟨hmem, hassoc, -⟩ := queueConflict_memories h
    unfold Db.queueConflict at h
    split at h
    · cases h
      rfl
    · split at h <;> cases h
      simp [Db.trace, Db.edge?, hid]
  | reinforce =>
    simp only [hband] at h
    cases h
    have hrow : (db.modify (owned userId hit.1) reinforced).memories.find? (·.id == id) = db.memories.find? (·.id == id) := by
      rw [find?_modify (f := reinforced) (fun _ => rfl)]
      cases hfound : db.memories.find? (·.id == id) with
      | none => rfl
      | some r =>
        have hr : r.id = id := by simpa using List.find?_some hfound
        -- the row reinforced is the hit's, under another id
        have hother : owned userId hit.1 r = false := by
          simp only [owned, hr, Bool.and_eq_false_iff, beq_eq_false_iff_ne]
          exact .inr hid.symm
        simp [hother]
    unfold Db.trace
    rw [hrow]
    rfl
  | tag =>
    simp only [hband] at h
    obtain ⟨d, h₁, h₂⟩ := bind_ok h
    have hrest₁ := upsertAssociation_memories h₁
    have hrest₂ := upsertAssociation_memories h₂
    -- both edges of the tag have the hit as an end
    have hpair : ∀ {a b : String}, (newId, hit.1) ≠ (a, b) → (hit.1, newId) ≠ (a, b) →
        (db'.edge? a b).map AssociationRow.weight = (db.edge? a b).map AssociationRow.weight := by
      intro a b hne₁ hne₂
      rw [edge?_synapticTag h₂, if_neg hne₂, edge?_synapticTag h₁, if_neg hne₁]
    unfold Db.trace
    rw [hpair (a := newId) (b := id) (by simp [hid]) (by simp [hnew]),
        hpair (a := id) (b := newId) (by simp [hnew]) (by simp [hid]),
      hrest₂.1, hrest₁.1, hrest₂.2.1, hrest₁.2.1]
  | apart =>
    simp only [hband] at h
    cases h
    rfl

/-- Of a memory the new one has met for the first time, the hit leaves the trace of its band. -/
theorem settle_self {v : Verdict F} {m : MemoryRow F} (huser : m.userId = userId) (hnew : newId ≠ m.id)
    (hclean : db.trace userId newId m.id = ⟨false, some m, none, none⟩) (h : db.settle userId newId now (m.id, v) = .ok db') :
    db'.trace userId newId m.id = v.leaves m := by
  obtain ⟨hqueued, hrow, hforth, hback⟩ : (db.conflictQueue.any fun c =>
      c.userId == userId && c.newMemoryId == newId && c.existingMemoryId == m.id) = false ∧
      db.memories.find? (·.id == m.id) = some m ∧ (db.edge? newId m.id).map AssociationRow.weight = none ∧
        (db.edge? m.id newId).map AssociationRow.weight = none := by
    simpa [Db.trace] using hclean
  unfold Db.settle at h
  unfold Verdict.leaves
  cases hband : v.band with
  | conflict =>
    simp only [hband] at h
    unfold Db.queueConflict at h
    rw [hqueued, if_neg (by simp)] at h
    split at h <;> cases h
    simp [Db.trace, Db.edge?, hrow] at hforth hback ⊢
    exact ⟨hforth, hback⟩
  | reinforce =>
    simp only [hband] at h
    cases h
    unfold Db.trace
    rw [find?_modify (f := reinforced) (fun _ => rfl), hrow, Option.map_some, if_pos (by simp [owned, huser])]
    exact Trace.mk.injEq .. ▸ ⟨hqueued, rfl, hforth, hback⟩
  | tag =>
    simp only [hband] at h
    obtain ⟨d, h₁, h₂⟩ := bind_ok h
    have hrest₁ := upsertAssociation_memories h₁
    have hrest₂ := upsertAssociation_memories h₂
    have hone : (m.id, newId) ≠ (newId, m.id) := fun heq => hnew (congrArg Prod.snd heq)
    unfold Db.trace
    rw [edge?_synapticTag h₂, if_neg hone, edge?_synapticTag h₁, if_pos rfl, edge?_synapticTag h₂, if_pos rfl, hrest₂.1,
      hrest₁.1, hrest₂.2.1, hrest₁.2.1, hqueued, hrow]
  | apart =>
    simp only [hband] at h
    cases h
    exact hclean

theorem reinforced_eq_iff [IsStrictOrderedRing F] {m : MemoryRow F} : reinforced m = m ↔ m.stability = 1 := by
  have hstability : reinforced m = m ↔ min 1 (m.stability + 5 / 100) = m.stability := by
    constructor
    · exact fun h => congrArg MemoryRow.stability h
    · intro h
      rw [reinforced, h]
  rw [hstability]
  constructor
  · intro h
    rcases min_choice 1 (m.stability + 5 / 100) with hmin | hmin
    · linarith
    · linarith
  · intro h
    rw [h, min_eq_left (by linarith)]

theorem bandOf_eq_iff [IsStrictOrderedRing F] {x : F} :
    (bandOf x = .conflict ↔ 85 / 100 ≤ x) ∧ (bandOf x = .reinforce ↔ 75 / 100 ≤ x ∧ x < 85 / 100) ∧
    (bandOf x = .tag ↔ 4 / 10 ≤ x ∧ x < 75 / 100) ∧ (bandOf x = .apart ↔ x < 4 / 10) := by
  have h₁ : (4 / 10 : F) < 75 / 100 := by norm_num
  have h₂ : (75 / 100 : F) < 85 / 100 := by norm_num
  unfold bandOf
  split_ifs with ha hb hc
  · simp [ha, not_lt.mpr ha, not_lt.mpr (h₂.le.trans ha), not_lt.mpr ((h₁.trans h₂).le.trans ha)]
  · simp [ha, hb, not_le.mp ha, not_lt.mpr hb, not_lt.mpr (h₁.le.trans hb)]
  · simp [ha, hb, hc, not_le.mp hb, not_lt.mpr hc]
  · simp [ha, hb, hc, not_le.mp hc]

/-! ## A new memory -/

/-- Both memories of every queued pair exist. -/
def Db.QueueJoined (db : Db F) : Prop :=
  ∀ c ∈ db.conflictQueue, db.hasMemory c.newMemoryId ∧ db.hasMemory c.existingMemoryId

structure Db.Unmentioned (db : Db F) (id : String) : Prop where
  queue : ∀ c ∈ db.conflictQueue, c.newMemoryId ≠ id
  edges : ∀ e ∈ db.associations, e.sourceMemoryId ≠ id ∧ e.targetMemoryId ≠ id

omit [Field F] [LinearOrder F] in
theorem trace_of_unmentioned (hk : db.Keyed) (h : db.Unmentioned newId) {m : MemoryRow F} (hm : m ∈ db.memories) :
    db.trace userId newId m.id = ⟨false, some m, none, none⟩ := by
  have hqueued : (db.conflictQueue.any fun c => c.userId == userId && c.newMemoryId == newId && c.existingMemoryId ==
      m.id) = false := by
    rw [List.any_eq_false]
    intro c hc hmatch
    simp only [Bool.and_eq_true, beq_iff_eq] at hmatch
    exact h.queue c hc hmatch.1.2
  have hedge : ∀ a b : String, a = newId ∨ b = newId → db.edge? a b = none := by
    intro a b hab
    rw [Db.edge?, List.find?_eq_none]
    intro e he hjoins
    simp only [Bool.and_eq_true, beq_iff_eq] at hjoins
    rcases hab with rfl | rfl
    · exact (h.edges e he).1 hjoins.1
    · exact (h.edges e he).2 hjoins.2
  have hrow : db.memories.find? (·.id == m.id) = some m := by
    have hsome : (db.memories.find? (·.id == m.id)).isSome := List.find?_isSome.mpr ⟨m, hm, beq_self_eq_true _⟩
    obtain ⟨r, hr⟩ := Option.isSome_iff_exists.mp hsome
    have hid : r.id = m.id := by simpa using List.find?_some hr
    rw [hr, hk.eq_of_id (List.mem_of_find?_eq_some hr) hm hid]
  rw [Db.trace, hqueued, hrow, hedge _ _ (.inl rfl), hedge _ _ (.inr rfl)]
  rfl

theorem trace_of_insert {db₀ : Db F} (hk : db₀.Keyed) (hj : db₀.Joined) (hq : db₀.QueueJoined) {row : MemoryRow F}
    (hinsert : db₀.insertMemory row = .ok db) {m : MemoryRow F} (hm : m ∈ db.memories) :
    db.Keyed ∧ db.trace userId row.id m.id = ⟨false, some m, none, none⟩ := by
  have hkeyed : db.Keyed := Write.keyed (w := .insertMemory row) hk (by rw [Write.apply, hinsert]; rfl)
  have hnew : ∀ id, db₀.hasMemory id → id ≠ row.id := by
    intro id hthere
    obtain ⟨r, hr, rfl⟩ := hasMemory_iff.mp hthere
    exact insertMemory_fresh hinsert r hr
  refine ⟨hkeyed, trace_of_unmentioned hkeyed ⟨?_, ?_⟩ hm⟩
  · rw [insertMemory_ok hinsert]
    exact fun c hc => hnew _ (hq c hc).1
  · rw [insertMemory_ok hinsert]
    exact fun e he => ⟨hnew _ (hj e he).1, hnew _ (hj e he).2⟩

/-! ## The transaction succeeds -/

omit [Field F] [LinearOrder F] in
theorem exists_upsert {e : AssociationRow F} {f : AssociationRow F → AssociationRow F} (hs : db.hasMemory e.sourceMemoryId)
    (ht : db.hasMemory e.targetMemoryId) : ∃ db', db.upsertAssociation e f = .ok db' := by
  unfold Db.upsertAssociation
  split
  · exact ⟨_, rfl⟩
  · rw [hs, ht]
    exact ⟨_, rfl⟩

theorem exists_settle (hnew : db.hasMemory newId) {hit : String × Verdict F} (hhit : db.hasMemory hit.1) :
    ∃ db', db.settle userId newId now hit = .ok db' ∧ ∀ id, db.hasMemory id → db'.hasMemory id := by
  unfold Db.settle
  cases hit.2.band with
  | conflict =>
    have hqueue : ∃ db', db.queueConflict userId newId hit.1 hit.2.sim now = .ok db' := by
      unfold Db.queueConflict
      split
      · exact ⟨_, rfl⟩
      · rw [hnew, hhit]
        exact ⟨_, rfl⟩
    obtain ⟨db', hdb'⟩ := hqueue
    refine ⟨db', hdb', fun id hid => ?_⟩
    exact (hasMemory_of_ids (by rw [(queueConflict_memories hdb').1]) id).mp hid
  | reinforce =>
    refine ⟨_, rfl, fun id hid => (hasMemory_of_ids ?_ id).mp hid⟩
    rw [Db.modify, List.map_map]
    refine List.map_congr_left fun r _ => ?_
    simp only [Function.comp_apply]
    split <;> rfl
  | tag =>
    have htag : ∀ {d : Db F} {src tgt : String}, d.hasMemory src → d.hasMemory tgt →
        ∃ d', d.synapticTag src tgt hit.2.weight now = .ok d' ∧ d'.memories = d.memories := by
      intro d src tgt hs ht
      obtain ⟨d', hd'⟩ := exists_upsert (e := ⟨src, tgt, hit.2.weight, "synaptic", now, none⟩) hs ht
      exact ⟨d', hd', (upsertAssociation_memories hd').1⟩
    obtain ⟨d, hd, hmem⟩ := htag hnew hhit
    have hthere : ∀ id, db.hasMemory id → d.hasMemory id := fun id => (hasMemory_of_ids (by rw [hmem]) id).mp
    obtain ⟨d₂, hd₂, hmem₂⟩ := htag (hthere _ hhit) (hthere _ hnew)
    refine ⟨d₂, ?_, fun id hid => (hasMemory_of_ids (by rw [hmem₂]) id).mp (hthere id hid)⟩
    show (db.synapticTag newId hit.1 _ now >>= fun d => d.synapticTag hit.1 newId _ now) = _
    rw [hd]
    exact hd₂
  | apart => exact ⟨db, rfl, fun _ h => h⟩

theorem exists_foldlM_settle {hits : List (String × Verdict F)} (hnew : db.hasMemory newId)
    (hhits : ∀ hit ∈ hits, db.hasMemory hit.1) :
    ∃ db', hits.foldlM (Db.settle userId newId now) db = .ok db' := by
  induction hits generalizing db with
  | nil => exact ⟨db, rfl⟩
  | cons hit hits ih =>
    obtain ⟨hhit, hrest⟩ := List.forall_mem_cons.mp hhits
    obtain ⟨d, hd, hthere⟩ : ∃ d, db.settle userId newId now hit = .ok d ∧ ∀ id, db.hasMemory id → d.hasMemory id :=
      exists_settle hnew hhit
    obtain ⟨db', hdb'⟩ := ih (hthere _ hnew) fun x hx => hthere _ (hrest x hx)
    rw [List.foldlM_cons, hd]
    exact ⟨db', hdb'⟩

variable {app : AppState F}

variable [IsStrictOrderedRing F] [Elementary F]

theorem exists_queueConflicts {user newId : String} (hnew : db.hasMemory newId) {newVec : List F} {now : Int} :
    ∃ d, db.queueConflicts user newId now (((db.denseHits app.lifecycle user newVec (ingestOptions app now)).take 5).map fun h =>
      (h.memoryId, h.score)) = .ok d := by
  let hits := (db.denseHits app.lifecycle user newVec (ingestOptions app now)).take 5
  have hsorted : (hits.map fun h => (h.memoryId, h.score)).Pairwise fun a b => b.2 ≤ a.2 :=
    List.pairwise_map.mpr ((sortDesc_sorted SearchResult.score _).sublist (List.take_sublist _ _))
  rw [queueConflicts_eq hsorted]
  have hverdicts : ∀ pairs : List (String × F), pairs.foldlM (Db.ingest user newId now) db =
      (pairs.map fun hit => (hit.1, verdict hit.2)).foldlM (Db.settle user newId now) db := by
    intro pairs
    rw [List.foldlM_map]
    rfl
  rw [hverdicts]
  refine exists_foldlM_settle hnew fun hit hhit => ?_
  obtain ⟨pair, hpair, rfl⟩ := List.mem_map.mp hhit
  obtain ⟨r, hr, rfl⟩ := List.mem_map.mp (List.mem_of_mem_filter hpair)
  obtain ⟨m, ⟨hm, -⟩, rfl⟩ := mem_denseHits (List.mem_of_mem_take hr)
  exact hasMemory_iff.mpr ⟨m, hm, rfl⟩

variable {bm25 : Bm25 F}

/-- Undisturbed, on a store whose vectors have one dimension, the search and the transaction succeed. -/
theorem exists_run_queueConflictsFor {w : World F} (hcalm : ∀ n, w.oracle.sqlFault n = false) {user newId : String}
    (hnew : w.db.hasMemory newId) {newVec : List F} (hvec : newVec ≠ []) {now : Int}
    (hdims : ∀ c, w.db.Candidate user (ingestOptions app now) c → c.hasDim newVec.length) :
    ((search app.lifecycle user newVec (ingestOptions app now)).run (exec bm25) w).1 =
        .ok ((w.db.denseHits app.lifecycle user newVec (ingestOptions app now)).take 5) ∧
      ∃ w', (queueConflictsFor app user newId newVec now).run (exec bm25) w = (.ok (), w') := by
  have hw : w.Reads w.db True := ⟨rfl, fun _ => hcalm⟩
  have hlimit : (ingestOptions app now).limit ≠ 0 := by simp [ingestOptions]
  have hsearch : (search app.lifecycle user newVec (ingestOptions app now)).wp (exec bm25)
      (fun found w' => found = (w.db.denseHits app.lifecycle user newVec (ingestOptions app now)).take 5 ∧ w'.Reads w.db True)
      (fun _ => ¬ True) w := wp_search_dense hw rfl rfl hvec hlimit fun _ => hdims
  constructor
  · obtain ⟨found, hrun, rfl, -⟩ := wp_total hsearch fun _ => not_not.mpr trivial
    exact hrun
  · have hwp : (queueConflictsFor app user newId newVec now).wp (exec bm25) (fun _ _ => True) (fun _ => False) w := by
      refine wp.seq (hsearch.mapError fun _ he => absurd trivial he) ?_
      rintro found w₁ ⟨rfl, hw₁⟩
      let pairs := ((w.db.denseHits app.lifecycle user newVec (ingestOptions app now)).take 5).map fun h => (h.memoryId, h.score)
      obtain ⟨d, hd⟩ : ∃ d, w₁.db.queueConflicts user newId now pairs = .ok d := by
        rw [hw₁.db]
        exact exists_queueConflicts hnew
      have happly : (Write.queueConflicts user newId pairs now).apply w₁.db = .ok ((), d) := by
        rw [Write.apply, hd]
        rfl
      refine wp.mapError (E := fun _ => False) (wp_run.mpr ⟨fun _ _ _ => trivial, fun e w₂ hrun => ?_⟩) fun _ he => he
      have hrun : (write (.queueConflicts user newId pairs now)).run (exec bm25) w₁ = (.error e, w₂) := hrun
      rw [run_write (hw₁.calm trivial 0) happly] at hrun
      cases congrArg Prod.fst hrun
    obtain ⟨_, hrun, -⟩ := wp_total hwp fun _ => id
    exact ⟨_, Prod.ext hrun rfl⟩

end

end CognitiveMemory
