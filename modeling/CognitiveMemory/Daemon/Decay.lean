import CognitiveMemory.Daemon.Pooled

/-! Decay of association edges. Every operation that strengthens an edge dates it, except the
synaptic tag of an ingest, and graph expansion decays an edge from its date. -/

namespace CognitiveMemory
open Prog
variable {F : Type}

/-! ## When an edge was strengthened -/

section
variable [Field F] [LinearOrder F]

/-- The pairs the transaction after a store tags. -/
def tags (newId : String) : List (String × F) → List (String × String)
  | [] => []
  | (hitId, sim) :: hits =>
    if hitId = newId then tags newId hits
    else if 85 / 100 ≤ sim then tags newId hits
    else if 75 / 100 ≤ sim then tags newId hits
    else if 4 / 10 ≤ sim then (newId, hitId) :: tags newId hits
    else []

/-- The time of an executed command that created or strengthened this edge: Link and StoreBatch,
co-retrieval, synaptic tagging. -/
def strengthenedBy (a b : String) : Event (Cmd F) Cmd.Res → Option Int
  | ⟨_, .write (.upsertEdge s d _ _ now _), .ok _⟩ => if (s, d) = (a, b) then some now else none
  | ⟨_, .write (.strengthenPairs pairs _ now _), .ok _⟩ => if (a, b) ∈ bothWays pairs then some now else none
  | ⟨_, .write (.queueConflicts _ newId hits now), .ok _⟩ => if (a, b) ∈ bothWays (tags newId hits) then some now else none
  | _ => none

def lastStrengthened (log : List (Event (Cmd F) Cmd.Res)) (a b : String) : Option Int := log.findSome? (strengthenedBy a b)

/-- Every edge carries the time of the latest operation that created or strengthened it. -/
def Dated (log : List (Event (Cmd F) Cmd.Res)) (db : Db F) : Prop :=
  ∀ e ∈ db.associations, ∃ last, lastStrengthened log e.sourceMemoryId e.targetMemoryId = some last ∧
    e.lastCoRetrieval = some last

/-- No similarity of an ingest lies in the band of the synaptic tag. -/
def Untagged (_ : Requests F) (_ : ℕ) (_ : Caller F) : Cmd F → Prop
  | .write (.queueConflicts _ newId hits _) => ∀ h ∈ hits, h.1 ≠ newId → h.2 < 4 / 10 ∨ 75 / 100 ≤ h.2
  | _ => True

instance (p : Requests F) (i : ℕ) (t : Caller F) (c : Cmd F) : Decidable (Untagged p i t c) := by
  unfold Untagged
  induction c using Cmd.casesOn with
  | write wr => induction wr using Write.casesOn <;> infer_instance
  | _ => infer_instance

theorem tags_eq_nil {newId : String} {hits : List (String × F)}
    (h : ∀ h ∈ hits, h.1 ≠ newId → h.2 < 4 / 10 ∨ 75 / 100 ≤ h.2) : tags newId hits = [] := by
  induction hits with
  | nil => rfl
  | cons hit hits ih =>
    obtain ⟨hhit, hrest⟩ := List.forall_mem_cons.mp h
    unfold tags
    split_ifs with hne hqueue hhigh htag
    · exact ih hrest
    · exact ih hrest
    · exact ih hrest
    · exact absurd (hhit hne) (by simp [htag, hhigh])
    · rfl

end

/-! ## What the four upserts write -/

def Db.Redated (db' db : Db F) (now : Int) (touched : String → String → Prop) : Prop :=
  ∀ e ∈ db'.associations, touched e.sourceMemoryId e.targetMemoryId ∧ e.lastCoRetrieval = some now ∨
    ¬ touched e.sourceMemoryId e.targetMemoryId ∧ e ∈ db.associations

theorem Db.Redated.trans {a b c : Db F} {now : Int} {touched touched' : String → String → Prop} (h : c.Redated b now touched)
    (h' : b.Redated a now touched') : c.Redated a now fun s t => touched s t ∨ touched' s t := by
  intro e he
  rcases h e he with ⟨ht, hlast⟩ | ⟨hn, hb⟩
  · exact .inl ⟨.inl ht, hlast⟩
  · rcases h' e hb with ⟨ht, hlast⟩ | ⟨hn', ha⟩
    · exact .inl ⟨.inr ht, hlast⟩
    · exact .inr ⟨not_or.mpr ⟨hn, hn'⟩, ha⟩

theorem Db.Redated.congr {db' db : Db F} {now : Int} {touched touched' : String → String → Prop}
    (h : db'.Redated db now touched) (hiff : ∀ s t, touched s t ↔ touched' s t) : db'.Redated db now touched' := by
  intro e he
  rw [← hiff]
  exact h e he

theorem redated_upsert {db db' : Db F} {row : AssociationRow F} {f : AssociationRow F → AssociationRow F} {now : Int}
    (h : db.upsertAssociation row f = .ok db') (hrow : row.lastCoRetrieval = some now)
    (hf : ∀ e, (f e).sourceMemoryId = e.sourceMemoryId ∧ (f e).targetMemoryId = e.targetMemoryId ∧
      (f e).lastCoRetrieval = some now) :
    db'.Redated db now fun s t => (row.sourceMemoryId, row.targetMemoryId) = (s, t) := by
  unfold Db.upsertAssociation at h
  split at h
  · cases h
    intro e' he'
    obtain ⟨e, he, rfl⟩ := List.mem_map.mp he'
    split
    · rename_i hkey
      simp only [Bool.and_eq_true, beq_iff_eq] at hkey
      obtain ⟨hs, ht, hlast⟩ := hf e
      exact .inl ⟨by rw [hs, ht, hkey.1, hkey.2], hlast⟩
    · rename_i hkey
      refine .inr ⟨fun heq => hkey ?_, he⟩
      simp only [Prod.mk.injEq] at heq
      simp [heq.1, heq.2]
  · rename_i hnone
    split at h <;> cases h
    intro e he
    rcases List.mem_append.mp he with he | he
    · refine .inr ⟨fun heq => hnone ?_, he⟩
      simp only [Prod.mk.injEq] at heq
      exact List.find?_isSome.mpr ⟨e, he, by simp [heq.1, heq.2]⟩
    · rw [List.mem_singleton.mp he]
      exact .inl ⟨rfl, hrow⟩

variable [Field F] [LinearOrder F]

theorem redated_strengthen {db db' : Db F} {es : List (String × String)} {amount : F} {now : Int} {kind : String}
    (h : es.foldlM (Db.strengthenEdge amount now kind) db = .ok db') : db'.Redated db now fun s t => (s, t) ∈ es := by
  induction es generalizing db with
  | nil =>
    cases h
    exact fun e he => .inr ⟨List.not_mem_nil, he⟩
  | cons e es ih =>
    rw [List.foldlM_cons] at h
    obtain ⟨d, hd, h⟩ := bind_ok h
    have hone := redated_upsert hd rfl fun _ => ⟨rfl, rfl, rfl⟩
    refine ((ih h).trans hone).congr fun s t => ?_
    rw [List.mem_cons, or_comm, eq_comm]

theorem associations_untagged {userId newId : String} {now : Int} {hits : List (String × F)} {db db' : Db F}
    (ht : tags newId hits = []) (h : db.queueConflicts userId newId now hits = .ok db') :
    db'.associations = db.associations := by
  induction hits generalizing db with
  | nil =>
    cases h
    rfl
  | cons hit hits ih =>
    obtain ⟨hitId, sim⟩ := hit
    unfold tags at ht
    rw [Db.queueConflicts] at h
    split at h
    · rw [if_pos ‹_›] at ht
      exact ih ht h
    rw [if_neg ‹_›] at ht
    split at h
    · rw [if_pos ‹_›] at ht
      obtain ⟨d, hd, h⟩ := bind_ok h
      exact (ih ht h).trans (queueConflict_memories hd).2.1
    rw [if_neg ‹_›] at ht
    split at h
    · rw [if_pos ‹_›] at ht
      rw [ih ht h]
      rfl
    rw [if_neg ‹_›] at ht
    split at h
    · rw [if_pos ‹_›] at ht
      cases ht
    · cases h
      rfl

/-! ## Runs -/

theorem Dated.same {log : List (Event (Cmd F) Cmd.Res)} {db db' : Db F} (h : Dated log db)
    (hsub : db'.associations ⊆ db.associations) {e : Event (Cmd F) Cmd.Res} (he : ∀ a b, strengthenedBy a b e = none) :
    Dated (e :: log) db' := by
  intro edge hedge
  simpa only [lastStrengthened, List.findSome?_cons, he] using h edge (hsub hedge)

theorem Dated.redated {log : List (Event (Cmd F) Cmd.Res)} {db db' : Db F} {now : Int} {touched : String → String → Prop}
    (h : Dated log db) (hr : db'.Redated db now touched) {e : Event (Cmd F) Cmd.Res}
    (he : ∀ a b, touched a b → strengthenedBy a b e = some now) (hn : ∀ a b, ¬ touched a b → strengthenedBy a b e = none) :
    Dated (e :: log) db' := by
  intro edge hedge
  unfold lastStrengthened
  rw [List.findSome?_cons]
  rcases hr edge hedge with ⟨ht, hlast⟩ | ⟨ht, hold⟩
  · rw [he _ _ ht]
    exact ⟨now, rfl, hlast⟩
  · rw [hn _ _ ht]
    exact h edge hold

theorem dated_write {log : List (Event (Cmd F) Cmd.Res)} {db db' : Db F} {wr : Write F} {a : wr.Res} (i : ℕ)
    (h : Dated log db) (hg : ∀ u newId hits now, wr = .queueConflicts u newId hits now → tags newId hits = [])
    (happly : wr.apply db = .ok (a, db')) : Dated (⟨i, .write wr, .ok a⟩ :: log) db' := by
  by_cases hw : wr.writesEdges
  · cases wr with
    | upsertEdge s d existing bump now kind =>
      obtain ⟨d', hd, hp⟩ := map_ok happly
      cases hp
      refine h.redated (redated_upsert hd rfl fun _ => ⟨rfl, rfl, rfl⟩) (fun a b hab => ?_) fun a b hab => ?_
      · exact if_pos hab
      · exact if_neg hab
    | strengthenPairs pairs amount now kind =>
      obtain ⟨d', hd, hp⟩ := map_ok happly
      cases hp
      refine h.redated (redated_strengthen hd) (fun a b hab => ?_) fun a b hab => ?_
      · exact if_pos hab
      · exact if_neg hab
    | queueConflicts u newId hits now =>
      obtain ⟨d', hd, hp⟩ := map_ok happly
      cases hp
      have hnone := hg u newId hits now rfl
      refine h.same (fun e he => associations_untagged hnone hd ▸ he) fun a b => ?_
      simp [strengthenedBy, hnone, bothWays]
    | _ => exact hw.elim
  · refine h.same (Write.associations_subset hw happly) fun a b => ?_
    cases wr with
    | upsertEdge | strengthenPairs | queueConflicts => exact absurd trivial hw
    | _ => rfl

theorem dated_exec (bm25 : Bm25 F) {p : Requests F} {i : ℕ} {t : Caller F} {c : Cmd F} (h : Dated p.log p.state.db)
    (hg : Untagged p i t c) : Dated (⟨i, c, (exec bm25 c p.state).1⟩ :: p.log) (exec bm25 c p.state).2.db := by
  cases c with
  | write wr =>
    have herror : ∀ e : SqlError, Dated (⟨i, .write wr, .error e⟩ :: p.log) p.state.db := by
      intro e
      refine h.same (List.Subset.refl _) fun a b => ?_
      cases wr <;> rfl
    simp only [exec]
    split
    · exact herror .io
    · split
      · refine dated_write i h (fun u newId hits now heq => tags_eq_nil ?_) ‹_›
        subst heq
        exact hg
      · exact herror _
  | resolveConflicts llm pairs =>
    refine h.same (fun e he => ?_) fun a b => rfl
    simp only [exec] at he
    split at he
    · exact he
    · exact (resolving_effects llm p.state.oracle.llm pairs ⟨p.state.db, 0, 0⟩).2.1 ▸ he
  | _ => exact h.same (List.Subset.refl _) fun a b => rfl

section

variable [Elementary F]

/-- Graph expansion weighs every link it reads by Equation 10. -/
def Db.Decays (db : Db F) : Prop :=
  ∀ (userId : String) (sourceIds : List String) (minWeight : F), ∀ lm ∈ db.linkedMany userId sourceIds minWeight,
    ∃ last, ∀ (cfg : LifecycleConfig F) (now : Int),
      liveWeight cfg now lm = decayAssociationWeight lm.linkStrength last now cfg.associationDecayConstantDays

theorem Dated.decays {log : List (Event (Cmd F) Cmd.Res)} {db : Db F} (h : Dated log db) : db.Decays := by
  intro userId sourceIds minWeight lm hlm
  obtain ⟨-, -, -, -, e, he, hlast⟩ := mem_linkedMany hlm
  obtain ⟨last, -, hdate⟩ := h e he
  refine ⟨last, fun cfg now => ?_⟩
  unfold liveWeight
  rw [← hlast, hdate]

/-- As long as no ingest tags, every edge is dated by the latest operation on it and decays from
there, whatever requests run and however they interleave. -/
theorem dated_of_untagged {bm25 : Bm25 F} {w : World F} (h : w.Start) {ts : List (Caller F)} {schedule : List ℕ}
    (hg : (accepted w ts).Meets (exec bm25) Untagged schedule) :
    Dated ((accepted w ts).play (exec bm25) schedule).log ((accepted w ts).play (exec bm25) schedule).state.db ∧
      ((accepted w ts).play (exec bm25) schedule).state.db.Decays := by
  have hdated : Dated ((accepted w ts).play (exec bm25) schedule).log
      ((accepted w ts).play (exec bm25) schedule).state.db := by
    refine Pool.play_keeps (J := fun p => Dated p.log p.state.db) (fun p i t c hp hn hg => ?_) hg fun e he => ?_
    · obtain ⟨k, -, hturn⟩ := Pool.turn_some (x := exec bm25) hn
      rw [hturn]
      exact dated_exec bm25 hp hg
    · have hnone : w.db.associations = [] := by rw [h.db]; rfl
      rw [accepted, Pool.start, hnone] at he
      cases he
  exact ⟨hdated, hdated.decays⟩

end

/-! ### Tea and milk -/

def AppState.pairing : AppState ℚ where
  embeddings := ⟨"pair", "pair-1", fun text => .ok (if text = "tea" then [1, 0] else [3 / 5, 4 / 5])⟩
  llm := false
  lifecycle := .default
  sha256 text := [UInt8.ofNat text.length]

def store (content : String) : Caller ℚ where
  app := .pairing
  user := "alice"
  request := .memory (.store ⟨"alice", content, "semantic", "fact", "{}", none⟩)

/-- A Store alone tags nothing. -/
theorem dated_after_store :
    Dated ((accepted World.quiet [store "tea", batch "alice" ["milk", "rice"]]).play (exec Bm25.none)
        (List.replicate 8 0 ++ List.replicate 13 1)).log
        ((accepted World.quiet [store "tea", batch "alice" ["milk", "rice"]]).play (exec Bm25.none)
          (List.replicate 8 0 ++ List.replicate 13 1)).state.db ∧
      ((accepted World.quiet [store "tea", batch "alice" ["milk", "rice"]]).play (exec Bm25.none)
        (List.replicate 8 0 ++ List.replicate 13 1)).state.db.Decays :=
  dated_of_untagged quiet_start (by decide +kernel)

/-- The second of two Stores tags the first: two edges without a date. -/
theorem tag_undated : ¬ ∀ (w : World ℚ) (ts : List (Caller ℚ)) (schedule : List ℕ), w.Start →
    Dated ((accepted w ts).play (exec Bm25.none) schedule).log ((accepted w ts).play (exec Bm25.none) schedule).state.db ∧
      ((accepted w ts).play (exec Bm25.none) schedule).state.db.Decays := by
  intro h
  obtain ⟨hdated, -⟩ := h World.quiet [store "tea", store "milk"] [0, 0, 0, 0, 0, 0, 0, 0, 1, 1, 1, 1, 1, 1, 1, 1] quiet_start
  have hedge : ∃ e ∈ ((accepted World.quiet [store "tea", store "milk"]).play (exec Bm25.none)
      [0, 0, 0, 0, 0, 0, 0, 0, 1, 1, 1, 1, 1, 1, 1, 1]).state.db.associations, e.lastCoRetrieval = none := by
    decide +kernel
  obtain ⟨e, he, hnone⟩ := hedge
  obtain ⟨last, -, hlast⟩ := hdated e he
  rw [hnone] at hlast
  cases hlast

end CognitiveMemory
