import CognitiveMemory.Daemon.Tick
import CognitiveMemory.Store.Effects

/-! What a request may issue, whoever else is at work: writes scoped to its user, edges and
queue entries between ids drawn for its user, rows whose vector fits their text. -/

namespace CognitiveMemory
open Prog

/-- A request at work: the daemon's configuration, the connection's user, the request. -/
structure Caller (F : Type) where
  app : AppState F
  user : String
  request : Request F

/-- Which vectors belong to a text under a provider and a model, and which cache rows may
stand in for them. -/
structure EmbeddingSpec (F : Type) where
  good : String → String → String → List F → Prop
  cached : CacheRow F → Prop

structure EmbeddingSpec.Serves {F : Type} (spec : EmbeddingSpec F) (app : AppState F) : Prop where
  embed : ∀ text v, app.embeddings.embed text = .ok v → spec.good app.embeddings.name app.embeddings.model text v
  cache : ∀ text v, spec.cached ⟨app.embeddings.name, app.embeddings.model, app.sha256 text, v⟩ ↔
    spec.good app.embeddings.name app.embeddings.model text v

def EmbeddingSpec.any {F : Type} : EmbeddingSpec F := ⟨fun _ _ _ _ => True, fun _ => True⟩

theorem EmbeddingSpec.any_serves {F : Type} (app : AppState F) : EmbeddingSpec.any.Serves app :=
  ⟨fun _ _ _ => trivial, fun _ _ => .rfl⟩

variable {F : Type}

/-- The id was drawn for this user. -/
def MintedFor (w : World F) (id user : String) : Prop := ∃ raw, id = "mem_" ++ raw ∧ (raw, user) ∈ w.minted

/-- A stored vector belongs to the row's text under the recorded provider. -/
def MemoryRow.Coherent (spec : EmbeddingSpec F) (r : MemoryRow F) : Prop :=
  ∀ v, r.embedding = some v → ∃ provider model, r.embeddingProvider = some provider ∧
    r.embeddingModel = some model ∧ spec.good provider model (canonicalise r.content) v

theorem MemoryRow.Coherent.follows {spec : EmbeddingSpec F} {r r' : MemoryRow F} (h : r.Coherent spec) (hf : r'.Follows r) :
    r'.Coherent spec := by
  intro v hv
  rcases hf.embedding with he | he
  · rw [hf.provider, hf.model, hf.content]
    exact h v (he ▸ hv)
  · rw [he] at hv
    cases hv

/-- ULIDs are unique; rows and queue entries carry ids drawn for their user. -/
structure World.Sound (spec : EmbeddingSpec F) (w : World F) : Prop where
  functional : ∀ raw u v, (raw, u) ∈ w.minted → (raw, v) ∈ w.minted → u = v
  fresh : ∀ n u, (w.oracle.ulid n, u) ∉ w.minted
  distinct : Function.Injective w.oracle.ulid
  rows : ∀ r ∈ w.db.memories, MintedFor w r.id r.userId
  queue : ∀ c ∈ w.db.conflictQueue, MintedFor w c.newMemoryId c.userId ∧ MintedFor w c.existingMemoryId c.userId
  cache : ∀ c ∈ w.db.embeddingCache, spec.cached c

theorem MintedFor.mono {w w' : World F} {id u : String} (h : MintedFor w id u) (hm : w.minted ⊆ w'.minted) :
    MintedFor w' id u := by
  obtain ⟨raw, rfl, hr⟩ := h
  exact ⟨raw, rfl, hm hr⟩

theorem MintedFor.unique {spec : EmbeddingSpec F} {w : World F} (hw : w.Sound spec) {id u v : String}
    (h : MintedFor w id u) (h' : MintedFor w id v) : u = v := by
  obtain ⟨raw, rfl, hr⟩ := h
  obtain ⟨raw', heq, hr'⟩ := h'
  rw [String.append_right_inj] at heq
  subst heq
  exact hw.functional raw u v hr hr'

namespace Caller

def isTick (t : Caller F) : Prop := ∃ sync, t.request = .lifecycle (.tick sync)

def links (t : Caller F) (a b : String) : Prop :=
  ∃ args, t.request = .memory (.link args) ∧ args.userId = t.user ∧
    ((args.sourceId, args.targetId) = (a, b) ∨ args.bidirectional ∧ (args.targetId, args.sourceId) = (a, b))

def unlinks (t : Caller F) (a b : String) (bidirectional : Bool) : Prop :=
  ∃ args, t.request = .memory (.unlink args) ∧ args.userId = t.user ∧
    args.sourceId = a ∧ args.targetId = b ∧ args.bidirectional = bidirectional

def isUpdate (t : Caller F) : Prop := ∃ args, t.request = .memory (.update args)

variable [Field F] [LinearOrder F]

def mayWrite (t : Caller F) (spec : EmbeddingSpec F) (w : World F) : Write F → Prop
  | .insertMemory row => MintedFor w row.id row.userId ∧ (t.isTick ∨ row.userId = t.user) ∧ row.Coherent spec
  | .updateMemory u _ upd => u = t.user ∧ (upd.content = none ∨ t.isUpdate)
  | .deleteMemory u _ | .deleteMany u _ | .applyDirectBoost u .. | .promoteToCore u _
  | .updateRetentionScores u _ | .markSuperseded u .. | .migrateToCold u .. | .migrateToHot u _
  | .migrateToHotMany u _ | .convertToStub u .. | .clearUser u => u = t.user
  | .upsertEdge a b .. => MintedFor w a t.user ∧ MintedFor w b t.user ∨ t.links a b
  | .strengthenPairs pairs amount .. => amount = 1 / 10 ∧ ∀ p ∈ pairs, MintedFor w p.1 t.user ∧ MintedFor w p.2 t.user
  | .deleteEdge a b => t.unlinks a b false
  | .deleteEdgeBidirectional a b => t.unlinks a b true
  | .cacheInsert row => spec.cached row
  | .insertBridgeToken _ => True
  | .queueConflicts u newId hits _ => u = t.user ∧ MintedFor w newId u ∧ ∀ h ∈ hits, MintedFor w h.1 u
  | .tickFloor .. | .tickExpire _ | .supersedeCluster .. => t.isTick

def may (t : Caller F) (spec : EmbeddingSpec F) (w : World F) : Cmd F → Prop
  | .write wr => t.mayWrite spec w wr
  | .resolveConflicts .. => t.isTick
  | _ => True

end Caller

/-! ## The contract -/

theorem Sound.answer {spec : EmbeddingSpec F} {w : World F} (hw : w.Sound spec) {db : Db F}
    (hrows : ∀ r ∈ db.memories, MintedFor w r.id r.userId)
    (hqueue : ∀ c ∈ db.conflictQueue, MintedFor w c.newMemoryId c.userId ∧ MintedFor w c.existingMemoryId c.userId)
    (hcache : ∀ c ∈ db.embeddingCache, spec.cached c) : (w.answer db).Sound spec :=
  ⟨hw.functional, hw.fresh, hw.distinct, hrows, hqueue, hcache⟩

theorem Sound.same {spec : EmbeddingSpec F} {w : World F} (hw : w.Sound spec) : (w.answer w.db).Sound spec :=
  Sound.answer hw hw.rows hw.queue hw.cache

theorem Sound.follows {spec : EmbeddingSpec F} {w : World F} (hw : w.Sound spec) {db : Db F} (h : db.Follows w.db) :
    ∀ r ∈ db.memories, MintedFor w r.id r.userId := by
  intro r' hr'
  obtain ⟨r, hr, hf⟩ := h.mem hr'
  rw [hf.id, hf.userId]
  exact hw.rows r hr

variable [Field F] [LinearOrder F]

theorem sound_write {spec : EmbeddingSpec F} {t : Caller F} {w : World F} (hw : w.Sound spec) {wr : Write F}
    (hmay : t.mayWrite spec w wr) {a : wr.Res} {db : Db F} (h : wr.apply w.db = .ok (a, db)) :
    (w.answer db).Sound spec := by
  obtain ⟨hq, hc⟩ := Write.queued_cached h
  refine Sound.answer hw (fun r' hr' => ?_) (fun c hcm => ?_) (fun c hcm => ?_)
  · rcases Write.rows h hr' with ⟨r, hr, hf⟩ | rfl | ⟨u, id, upd, rfl, r, hr, -, rfl⟩
    · rw [hf.id, hf.userId]
      exact hw.rows r hr
    · exact hmay.1
    · exact hw.rows r hr
  · rcases hq c hcm with hcm | ⟨u, newId, hits, now, rfl, rfl, rfl, hit, hhit, heq⟩
    · exact hw.queue c hcm
    · rw [heq]
      exact ⟨hmay.2.1, hmay.2.2 hit hhit⟩
  · rcases hc c hcm with hcm | rfl
    · exact hw.cache c hcm
    · exact hmay

theorem sound_exec {spec : EmbeddingSpec F} (bm25 : Bm25 F) {t : Caller F} {w : World F} {c : Cmd F}
    (hw : w.Sound spec) (hmay : t.may spec w c) :
    (exec bm25 c w).2.Sound spec ∧ w.minted ⊆ (exec bm25 c w).2.minted := by
  cases c with
  | ulid owner =>
    have hsub : w.minted ⊆ (w.oracle.ulid 0, owner) :: w.minted := List.subset_cons_self _ _
    refine ⟨⟨?_, ?_, ?_, fun r hr => (hw.rows r hr).mono hsub, ?_, hw.cache⟩, hsub⟩
    · intro raw u v hu hv
      rcases List.mem_cons.mp hu with hu | hu <;> rcases List.mem_cons.mp hv with hv | hv
      · cases hu
        cases hv
        rfl
      · cases hu
        exact absurd hv (hw.fresh 0 v)
      · cases hv
        exact absurd hu (hw.fresh 0 u)
      · exact hw.functional raw u v hu hv
    · intro n u hn
      rcases List.mem_cons.mp hn with hn | hn
      · exact absurd (hw.distinct (Prod.ext_iff.mp hn).1) (Nat.succ_ne_zero n)
      · exact hw.fresh (n + 1) u hn
    · exact fun a b hab => Nat.succ_injective (hw.distinct hab)
    · exact fun c hc => ⟨(hw.queue c hc).1.mono hsub, (hw.queue c hc).2.mono hsub⟩
  | write wr =>
    simp only [exec]
    split
    · exact ⟨Sound.same hw, List.Subset.refl _⟩
    · split
      · rename_i a db h
        exact ⟨sound_write hw hmay h, List.Subset.refl _⟩
      · exact ⟨Sound.same hw, List.Subset.refl _⟩
  | resolveConflicts llm pairs =>
    simp only [exec]
    split
    · exact ⟨Sound.same hw, List.Subset.refl _⟩
    · obtain ⟨hf, -, hq, hc, -⟩ := resolving_effects llm w.oracle.llm pairs ⟨w.db, 0, 0⟩
      have hdb := Sound.answer hw (Sound.follows hw hf) (fun c hcm => hw.queue c (hq hcm)) (fun c hcm => hw.cache c (hc ▸ hcm))
      exact ⟨⟨hdb.functional, hdb.fresh, hdb.distinct, hdb.rows, hdb.queue, hdb.cache⟩, List.Subset.refl _⟩
  | _ => exact ⟨⟨hw.functional, hw.fresh, hw.distinct, hw.rows, hw.queue, hw.cache⟩, List.Subset.refl _⟩

/-- The contract of all requests: ids drawn stay drawn. -/
def contract (spec : EmbeddingSpec F) (bm25 : Bm25 F) : Contract (exec bm25) (Caller F) where
  inv := World.Sound spec
  rel w w' := w.minted ⊆ w'.minted
  allows t w c := t.may spec w c
  rel_refl _ := List.Subset.refl _
  rel_trans := List.Subset.trans
  preserve := sound_exec bm25

end CognitiveMemory
