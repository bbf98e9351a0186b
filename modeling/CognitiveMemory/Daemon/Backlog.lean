import CognitiveMemory.Daemon.Notebook

/-! The queue of conflicts as a backlog: what Stores may add to it, and what Ticks take off. -/

namespace CognitiveMemory
open Prog
variable {F : Type}

/-! ## Statements -/

def Cmd.unqueued (c : Cmd F) : Prop := ∀ wr, c = .write wr → ¬ wr.queues

theorem unqueued_write {wr : Write F} (h : ¬ wr.queues) : (.write wr : Cmd F).unqueued := fun _ heq => by
  cases heq
  exact h

theorem Cmd.still.unqueued {c : Cmd F} (h : c.still) : c.unqueued := by
  rintro wr rfl
  exact h.elim

theorem Cmd.quiet.unqueued {c : Cmd F} (h : c.quiet) : c.unqueued := by
  rintro wr rfl
  cases wr <;> first | exact h.elim | exact not_false

theorem queue_exec [Field F] [LinearOrder F] (bm25 : Bm25 F) {c : Cmd F} (hc : c.unqueued) (w : World F) :
    (exec bm25 c w).2.db.conflictQueue.Sublist w.db.conflictQueue := by
  refine exec_keeps (P := fun db => db.conflictQueue.Sublist w.db.conflictQueue) bm25 (.refl _) ?_ fun llm pairs _ =>
    resolving_queue llm _ pairs _
  exact fun wr a db hwr happly => (Write.sheds happly).conflictQueue (hc wr hwr)

theorem length_queueConflict {db db' : Db F} {userId newId existingId : String} {sim : F} {now : Int}
    (h : db.queueConflict userId newId existingId sim now = .ok db') : db'.conflictQueue.length ≤ db.conflictQueue.length + 1 := by
  unfold Db.queueConflict at h
  split at h
  · cases h
    exact Nat.le_succ _
  · split at h <;> cases h
    exact (List.length_append ..).le

variable [Field F] [LinearOrder F]

theorem length_ingests {userId newId : String} {now : Int} {hit : String × F} {db db' : Db F}
    (h : db.Ingests userId newId now hit db') : db'.conflictQueue.length ≤ db.conflictQueue.length + 1 := by
  cases h with
  | pass => exact Nat.le_succ _
  | queue _ hqueue => exact length_queueConflict hqueue
  | reinforce => exact Nat.le_succ _
  | tag h h' =>
    obtain ⟨-, hqueue, -⟩ := upsertAssociation_memories h
    obtain ⟨-, hqueue', -⟩ := upsertAssociation_memories h'
    rw [hqueue', hqueue]
    exact Nat.le_succ _

theorem length_queueConflicts {userId newId : String} {now : Int} (hits : List (String × F)) {db db' : Db F}
    (h : db.queueConflicts userId newId now hits = .ok db') :
    db'.conflictQueue.length ≤ db.conflictQueue.length + hits.length := by
  induction hits generalizing db with
  | nil =>
    cases h
    exact le_rfl
  | cons hit hits ih =>
    have hrest : ∀ {d : Db F}, db.Ingests userId newId now hit d → d.queueConflicts userId newId now hits = .ok db' →
        db'.conflictQueue.length ≤ db.conflictQueue.length + (hits.length + 1) := fun hd h => by
      have hone := length_ingests hd
      have hmore := ih h
      omega
    rw [Db.queueConflicts] at h
    split at h
    · exact hrest .pass h
    split at h
    · obtain ⟨d, hd, h⟩ := bind_ok h
      exact hrest (.queue ‹_› hd) h
    split at h
    · exact hrest .reinforce h
    split at h
    · obtain ⟨d, hd, h⟩ := bind_ok h
      obtain ⟨d₂, hd₂, h⟩ := bind_ok h
      exact hrest (.tag hd hd₂) h
    · cases h
      exact Nat.le_add_right _ _

omit [Field F] [LinearOrder F] in
/-- Without the 50 that come first in any order of it the queue is shorter by 50, or empty. -/
theorem length_without {queue sorted : List (ConflictRow F)} (hperm : sorted.Perm queue) (limit : ℕ) :
    (queue.filter fun c => !((sorted.take limit).map ConflictRow.id).contains c.id).length ≤ queue.length - limit := by
  rw [← hperm.length_eq, ← (hperm.filter _).length_eq]
  have htaken : (sorted.take limit).filter (fun c => !((sorted.take limit).map ConflictRow.id).contains c.id) = [] := by
    refine List.filter_eq_nil_iff.mpr fun c hc => ?_
    have hmem : c.id ∈ (sorted.take limit).map ConflictRow.id := List.mem_map_of_mem hc
    rw [List.contains_iff_mem.mpr hmem]
    exact Bool.false_ne_true
  calc (sorted.filter fun c => !((sorted.take limit).map ConflictRow.id).contains c.id).length
      = ((sorted.take limit ++ sorted.drop limit).filter fun c => !((sorted.take limit).map ConflictRow.id).contains c.id).length := by
        rw [List.take_append_drop]
    _ = ((sorted.drop limit).filter fun c => !((sorted.take limit).map ConflictRow.id).contains c.id).length := by
        rw [List.filter_append, htaken, List.nil_append]
    _ ≤ (sorted.drop limit).length := List.length_filter_le _ _
    _ = sorted.length - limit := List.length_drop

omit [Field F] in
theorem length_selected (bm25 : Bm25 F) {db : Db F} {pairs : List ConflictPair}
    (h : Query.eval bm25 db (.conflictPairs 50) = .ok pairs) :
    (db.conflictQueue.filter fun c => !(pairs.map ConflictPair.id).contains c.id).length ≤ db.conflictQueue.length - 50 := by
  have hperm : (sortDesc ConflictRow.similarity db.conflictQueue).Perm db.conflictQueue := List.perm_insertionSort _ _
  have hids : pairs.map ConflictPair.id = ((sortDesc ConflictRow.similarity db.conflictQueue).take 50).map ConflictRow.id := by
    cases h
    exact List.map_map
  rw [hids]
  exact length_without hperm 50

theorem queue_resolved (bm25 : Bm25 F) {llm : Bool} {w : World F} {pairs : List ConflictPair} {n : ℕ}
    (h : (exec bm25 (.resolveConflicts llm pairs) w).1 = .ok n) : (exec bm25 (.resolveConflicts llm pairs) w).2.db.conflictQueue =
      w.db.conflictQueue.filter fun c => !(pairs.map ConflictPair.id).contains c.id := by
  simp only [exec] at h ⊢
  split
  · rename_i hfault
    rw [if_pos hfault] at h
    cases h
  · exact queue_fold llm w.oracle.llm

/-! ## Requests -/

def World.Backlog (n : ℕ) (w : World F) : Prop := w.db.conflictQueue.length ≤ n

section
variable {bm25 : Bm25 F} {w : World F} {n : ℕ}

theorem ends_unqueued {ε α : Type} {p : Prog (Cmd F) Cmd.Res ε α} (hp : p.Only Cmd.unqueued) (h : w.Backlog n) :
    p.ends (exec bm25) (fun _ w' => w'.Backlog n) w :=
  hp.ends (J := World.Backlog n) (fun _ s hc hs => (queue_exec bm25 hc s).length_le.trans hs) h

variable {app : AppState F}

variable [Elementary F]

theorem wp_length {cfg : LifecycleConfig F} {userId : String} {queryVec : List F} {o : SearchOptions F} :
    (search cfg userId queryVec o).wp (exec bm25) (fun hits _ => hits.length ≤ o.limit) (fun _ => True) w := by
  unfold search
  split
  · trivial
  split
  · exact Nat.zero_le _
  · refine wp.seq wp_any fun _ _ _ => wp.seq wp_any fun _ _ _ => wp.seq wp_any fun _ _ _ => wp.seq wp_any fun final _ _ => ?_
    exact List.length_take_le _ _

theorem ends_queueing {userId newId : String} {newVec : List F} {now : Int} (h : w.Backlog n) :
    (queueConflictsFor app userId newId newVec now).ends (exec bm25) (fun _ w' => w'.Backlog (n + 5)) w := by
  have hsearch : (search app.lifecycle userId newVec (ingestOptions app now)).ends (exec bm25)
      (fun answer w' => w'.Backlog n ∧ ∀ hits, answer = .ok hits → hits.length ≤ 5) w := by
    refine ends_run.mpr ⟨?_, fun hits hhits => wp_ok wp_length hhits⟩
    exact ends_run.mp (ends_unqueued (only_search.imp fun _ hc => hc.still.unqueued) h)
  refine .seq (P := fun answer w' => w'.Backlog n ∧ ∀ hits, answer = .ok hits → hits.length ≤ 5)
    (.mapError (hsearch.imp fun answer w' ⟨hn, hlen⟩ => ⟨hn, fun hits hhits => ?_⟩)) (fun hits w₁ h₁ => ?_)
    fun e w₁ h₁ => Nat.le_add_right_of_le h₁.1
  · cases answer with
    | error e => cases hhits
    | ok hits' => exact hlen hits (congrArg Except.ok (Except.ok.inj hhits))
  · obtain ⟨hn, hlen⟩ := h₁
    let entries : Write F := .queueConflicts userId newId (hits.map fun h => (h.memoryId, h.score)) now
    refine .mapError ((ends_write (c := entries)).imp fun answer w₂ h₂ => ?_)
    cases answer with
    | error e =>
      show w₂.db.conflictQueue.length ≤ n + 5
      rw [h₂.1]
      exact Nat.le_add_right_of_le hn
    | ok a =>
      obtain ⟨d, hd, hp⟩ := map_ok h₂.2
      cases hp
      have hmore := length_queueConflicts _ hd
      rw [List.length_map] at hmore
      exact hmore.trans (Nat.add_le_add hn (hlen hits rfl))

theorem ends_storing {args : StoreMemoryArgs F} {user : String} (h : w.Backlog n) :
    (handleMemoryStore app args user).ends (exec bm25) (fun _ w' => w'.Backlog (n + 5)) w := by
  have hless : ∀ {w' : World F}, w'.Backlog n → w'.Backlog (n + 5) := fun hn => Nat.le_add_right_of_le hn
  refine ends_require (fun _ => hless h) ?_
  refine .seq (ends_unqueued (only_embed.imp fun _ hc => hc.unqueued) h) (fun vector w₁ h₁ => ?_) fun e w₁ h₁ => hless h₁
  refine .seq (ends_unqueued (only_freshMemoryId (Cmd.still.unqueued trivial)) h₁) (fun id w₂ h₂ => ?_) fun e w₂ h₂ => hless h₂
  refine .seq (ends_unqueued (only_clock (Cmd.still.unqueued trivial)) h₂) (fun now w₃ h₃ => ?_) fun e w₃ h₃ => hless h₃
  refine .seq (ends_unqueued (only_mapError (only_write (unqueued_write not_false))) h₃) (fun _ w₄ h₄ => ?_) fun e w₄ h₄ => hless h₄
  exact .seq (ends_queueing h₄) (fun _ w₅ h₅ => h₅) fun e w₅ h₅ => h₅

def Relieved (n : ℕ) (answer : Except HandlerError (ResponseData F)) (w' : World F) : Prop :=
  match answer with
  | .ok _ => w'.Backlog (n - 50)
  | .error _ => w'.Backlog n

omit [Elementary F] in
theorem ends_resolving (h : w.Backlog n) : (resolveConflicts app).ends (exec bm25) (fun answer w' => match answer with
    | .ok _ => w'.Backlog (n - 50)
    | .error _ => w'.Backlog n) w := by
  refine .seq (ends_ask (q := .conflictPairs 50)) (fun pairs w₁ h₁ => ?_) fun e w₁ h₁ => ?_
  · obtain ⟨hdb, hpairs⟩ := h₁
    have hselected : (w₁.db.conflictQueue.filter fun c => !(pairs.map ConflictPair.id).contains c.id).length ≤ n - 50 := by
      rw [hdb]
      exact (length_selected bm25 (hpairs pairs rfl)).trans (Nat.sub_le_sub_right h 50)
    split
    · rename_i hnone
      have hall : (w₁.db.conflictQueue.filter fun c => !(([] : List ConflictPair).map ConflictPair.id).contains c.id) =
          w₁.db.conflictQueue := List.filter_eq_self.mpr fun _ _ => rfl
      rw [List.isEmpty_iff.mp hnone, hall] at hselected
      exact hselected
    · refine .mapError ?_
      show (Prog.ofExcept _).ends (exec bm25) _ (exec bm25 (.resolveConflicts app.llm pairs) w₁).2
      refine ends_ofExcept.mpr ?_
      cases hanswer : (exec bm25 (.resolveConflicts app.llm pairs) w₁).1 with
      | error e =>
        have hsub := queue_exec bm25 (c := .resolveConflicts app.llm pairs) (fun _ heq => by cases heq) w₁
        rw [hdb] at hsub
        exact hsub.length_le.trans h
      | ok resolved =>
        show List.length _ ≤ n - 50
        rw [queue_resolved bm25 hanswer]
        exact hselected
  · show w₁.db.conflictQueue.length ≤ n
    rw [h₁.1]
    exact h

theorem ends_ticking (h : w.Backlog n) : (handleTick app).ends (exec bm25) (Relieved n) w := by
  have hless : ∀ {w' : World F}, w'.Backlog (n - 50) → w'.Backlog n := fun hn => hn.trans (Nat.sub_le n 50)
  have hfree : ∀ c : Cmd F, c.sweeps → c.unqueued := by
    rintro c hc wr rfl
    cases wr <;> first | exact hc.elim | exact not_false
  refine .seq (ends_unqueued (only_clock (hfree _ trivial)) h) (fun now w₁ h₁ => ?_) fun e w₁ h₁ => h₁
  refine .seq (ends_unqueued (only_mapError (only_query (hfree _ trivial))) h₁) (fun hot w₂ h₂ => ?_) fun e w₂ h₂ => h₂
  refine .seq (ends_unqueued (only_mapError (only_write (hfree _ trivial))) h₂) (fun _ w₃ h₃ => ?_) fun e w₃ h₃ => h₃
  refine .seq (ends_unqueued (only_mapError (only_query (hfree _ trivial))) h₃) (fun stale w₄ h₄ => ?_) fun e w₄ h₄ => h₄
  refine .seq (ends_unqueued (only_mapError (only_write (hfree _ trivial))) h₄) (fun _ w₅ h₅ => ?_) fun e w₅ h₅ => h₅
  refine .seq (ends_resolving h₅) (fun resolved w₆ h₆ => ?_) fun e w₆ h₆ => h₆
  have hlater : (consolidateAtTick app now).Only (Cmd.unqueued (F := F)) := by
    refine only_consolidateAtTick (fun c hc => hc.unqueued) (fun wr hwr => unqueued_write ?_) app now
    cases wr <;> first | exact hwr.elim | exact not_false
  exact .seq (ends_unqueued hlater h₆) (fun _ w₇ h₇ => h₇) fun e w₇ h₇ => hless h₇

/-! ## Runs -/

/-- What an exchange may leave of a backlog. -/
def Exchange.leaves (l : Exchange F) (n : ℕ) : ℕ :=
  match l.1.request, l.2 with
  | .memory (.store _), _ => n + 5
  | .lifecycle (.tick _), .ok _ => n - 50
  | _, _ => n

omit [LinearOrder F] [Elementary F] in
theorem writes_queueConflicts {req : Request F} {w : Write F} (h : req.writes w) (hw : w.queues) :
    ∃ args, req = .memory (.store args) := by
  cases w with
  | queueConflicts =>
    cases req with
    | diagnostics req => cases req <;> exact h.elim
    | memory req =>
      cases req with
      | store args => exact ⟨args, rfl⟩
      | delete | deleteMany | batchUpdate => cases h
      | _ => exact h.elim
    | lifecycle req =>
      cases req with
      | tick | findFading | findStable => exact h.elim
      | _ => cases h
    | unknownBucket => exact h.elim
  | _ => exact hw.elim

theorem unqueued_request {t : Caller F} (h : ∀ args, t.request ≠ .memory (.store args)) :
    (handleRequest t.app t.request t.user).Only Cmd.unqueued := by
  refine (only_issued t.app t.request t.user).imp fun c hc => ?_
  rintro wr rfl hqueues
  obtain ⟨args, hargs⟩ := writes_queueConflicts hc hqueues
  exact h args hargs

theorem ends_exchange {t : Caller F} (h : w.Backlog n) : (handleRequest t.app t.request t.user).ends (exec bm25)
    (fun answer w' => w'.Backlog (Exchange.leaves (t, answer) n)) w := by
  obtain ⟨app, user, req⟩ := t
  by_cases hstore : ∃ args, req = .memory (.store args)
  · obtain ⟨args, rfl⟩ := hstore
    exact ends_storing h
  by_cases htick : ∃ sync, req = .lifecycle (.tick sync)
  · obtain ⟨sync, rfl⟩ := htick
    exact (ends_ticking h).imp fun answer w' h' => by cases answer <;> exact h'
  · have honly : (handleRequest app req user).Only Cmd.unqueued :=
        unqueued_request (t := ⟨app, user, req⟩) fun args heq => hstore ⟨args, heq⟩
    refine (ends_unqueued honly h).imp fun answer w' h' => ?_
    unfold Exchange.leaves
    split
    · rename_i hreq
      exact (hstore ⟨_, hreq⟩).elim
    · rename_i hreq _
      exact (htick ⟨_, hreq⟩).elim
    · exact h'

theorem backlog_step {l : Exchange F} {w' : World F} (hrun : serving bm25 l w w') (h : w.Backlog n) :
    w'.Backlog (Exchange.leaves l n) := by
  have hends : (handleRequest l.1.app l.1.request l.1.user).ends (exec bm25)
      (fun answer w' => w'.Backlog (Exchange.leaves (l.1, answer) n)) w := ends_exchange h
  rw [ends_run, show (handleRequest l.1.app l.1.request l.1.user).run (exec bm25) w = (l.2, w') from hrun] at hends
  exact hends

/-- Requests served one after the other leave a backlog of at most what they add up to: five for each
Store, fifty off for each Tick that is answered. -/
theorem backlog_bounded {w' : World F} {exchanges : List (Exchange F)} (hrun : (serving bm25).Run w exchanges w') :
    w'.db.conflictQueue.length ≤ exchanges.foldl (fun n l => Exchange.leaves l n) w.db.conflictQueue.length := by
  suffices hall : ∀ n, w.Backlog n → w'.Backlog (exchanges.foldl (fun n l => Exchange.leaves l n) n) from hall _ le_rfl
  induction hrun with
  | nil => exact fun _ h => h
  | cons hstep _ ih => exact fun n h => ih _ (backlog_step hstep h)

end

def syncTick : Caller ℚ := ⟨.flat, "alice", .lifecycle (.tick true)⟩

theorem milk_off_the_backlog : (syncTick.serve Bm25.none teaThenMilk).db.conflictQueue.length ≤ 0 := by
  have hmilk : ((handleRequest (saves "alice" "milk").app (saves "alice" "milk").request "alice").run (exec Bm25.none) teaStored).1 =
      .ok (.memoryStored "mem_a") := by decide +kernel
  have htick : ((handleRequest syncTick.app syncTick.request syncTick.user).run (exec Bm25.none) teaThenMilk).1 =
      .ok (.tick 0) := by decide +kernel
  have hstored : serving Bm25.none (saves "alice" "milk", .ok (.memoryStored "mem_a")) teaStored teaThenMilk := Prod.ext hmilk rfl
  have hticked : serving Bm25.none (syncTick, .ok (.tick 0)) teaThenMilk (syncTick.serve Bm25.none teaThenMilk) := Prod.ext htick rfl
  exact backlog_bounded (.cons hstored (.cons hticked (.nil _)))

end CognitiveMemory
