import CognitiveMemory.Daemon.Among
import CognitiveMemory.Daemon.Atomicity
import CognitiveMemory.Daemon.Consolidation
import CognitiveMemory.Daemon.Records

/-! A user whose memories are cleared: nothing of theirs comes back while other requests go on, unless
they store again, or a Tick that has read the memories before still works on them. -/

namespace CognitiveMemory
open Prog
variable {F : Type}

/-! ## Whose rows requests insert -/

def Cmd.insertsFor (user : String) : Cmd F → Prop
  | .write (.insertMemory row) => row.userId = user
  | _ => True

theorem Cmd.thrifty.insertsFor {c : Cmd F} (h : c.thrifty) (user : String) : c.insertsFor user := by
  cases c with
  | write wr =>
    cases wr with
    | insertMemory row => cases h
    | _ => trivial
  | _ => trivial

def Cmd.avoids (user : String) : Cmd F → Prop
  | .write (.insertMemory row) => row.userId ≠ user
  | _ => True

theorem Cmd.insertsFor.avoids {c : Cmd F} {owner user : String} (h : c.insertsFor owner) (hne : owner ≠ user) :
    c.avoids user := by
  cases c with
  | write wr =>
    cases wr with
    | insertMemory row => exact fun heq => hne (h.symm.trans heq)
    | _ => trivial
  | _ => trivial

theorem Cmd.thrifty.avoids {c : Cmd F} (h : c.thrifty) (user : String) : c.avoids user := by
  cases c with
  | write wr =>
    cases wr with
    | insertMemory row => cases h
    | _ => trivial
  | _ => trivial

section

variable [Field F] [LinearOrder F]

theorem only_store_own [Elementary F] (app : AppState F) (args : StoreMemoryArgs F) (user : String) :
    (handleMemoryStore app args user).Only (Cmd.insertsFor user) := by
  unfold handleMemoryStore requireUserMatch
  split
  case isFalse => trivial
  rename_i huser
  refine only_bind (p := Prog.pure ()) trivial fun _ => ?_
  refine only_bind (only_embed.imp fun _ hc => hc.thrifty.insertsFor user) fun vector => ?_
  refine only_bind (only_freshMemoryId trivial) fun id => only_bind (only_clock trivial) fun now => ?_
  refine only_bind (only_mapError (only_write ((storedRow_fields app args id vector now).userId.trans huser))) fun _ => only_bind ?_ fun _ => trivial
  refine only_bind (only_mapError (only_search.imp fun _ hc => hc.quiet.thrifty.insertsFor user)) fun hits => ?_
  exact only_mapError (only_write trivial)

omit [LinearOrder F] in
theorem only_storeEntries_own (app : AppState F) (user : String) (now : Int) (entries : List BatchMemoryEntry) :
    (storeEntries app user now entries).Only (Cmd.insertsFor user) := by
  induction entries with
  | nil => trivial
  | cons entry entries ih =>
    refine only_bind (only_embed.imp fun _ hc => hc.thrifty.insertsFor user) fun vector => ?_
    refine only_bind (only_freshMemoryId trivial) fun id => only_bind (only_mapError (only_write rfl)) fun _ => ?_
    exact only_bind ih fun _ => trivial

omit [LinearOrder F] in
theorem only_storeBatch_own (app : AppState F) (args : StoreBatchArgs F) (user : String) :
    (handleMemoryStoreBatch app args user).Only (Cmd.insertsFor user) := by
  unfold handleMemoryStoreBatch requireUserMatch
  split
  case isFalse => trivial
  rename_i huser
  subst huser
  refine only_bind (p := Prog.pure ()) trivial fun _ => ?_
  split
  · trivial
  refine only_bind (only_clock trivial) fun now => only_bind (only_storeEntries_own app _ now _) fun ids => ?_
  exact only_bind (only_linkAll (fun _ _ => only_createOrStrengthen trivial fun _ => trivial) _) fun _ => trivial

theorem only_compressCluster_own (app : AppState F) (user : String) (group : List (MemoryRow F)) (now : Int) :
    (compressCluster app user group now).Only (Cmd.insertsFor user) := by
  refine only_bind ⟨trivial, fun _ => trivial⟩ fun answer => only_bind (only_mapError (only_ofExcept _)) fun text => ?_
  refine only_bind (only_embed.imp fun _ hc => hc.thrifty.insertsFor user) fun vector => ?_
  refine only_bind (only_freshMemoryId trivial) fun id => only_bind (only_mapError (only_write rfl)) fun _ => ?_
  exact only_bind (only_mapError (only_write trivial)) fun _ => trivial

variable [Elementary F]

theorem thrifty_request {t : Caller F} (hstores : ¬ t.stores) (htick : ¬ t.isTick) :
    (handleRequest t.app t.request t.user).Only Cmd.thrifty := by
  refine (only_issued t.app t.request t.user).imp fun c hc => thrifty_of_writes (fun row hrow => ?_) hc
  cases hreq : t.request with
  | diagnostics req =>
    rw [hreq] at hrow
    cases req <;> exact hrow.elim
  | memory req =>
    rw [hreq] at hrow
    cases req with
    | store args => exact hstores (.inl ⟨args, hreq⟩)
    | storeBatch args => exact hstores (.inr ⟨args, hreq⟩)
    | delete | deleteMany | batchUpdate => cases hrow
    | _ => exact hrow.elim
  | lifecycle req =>
    rw [hreq] at hrow
    cases req with
    | tick sync => exact htick ⟨sync, hreq⟩
    | findFading | findStable => exact hrow.elim
    | _ => cases hrow
  | unknownBucket =>
    rw [hreq] at hrow
    exact hrow.elim

/-- A Tick apart, requests insert memories of their own user alone. -/
theorem only_insertsFor {t : Caller F} (htick : ¬ t.isTick) :
    (handleRequest t.app t.request t.user).Only (Cmd.insertsFor t.user) := by
  by_cases hstores : t.stores
  · obtain ⟨app, user, req⟩ := t
    obtain ⟨args, rfl⟩ | ⟨args, rfl⟩ := hstores
    · exact only_store_own app args user
    · exact only_storeBatch_own app args user
  · exact (thrifty_request hstores htick).imp fun _ hc => hc.insertsFor _

end

/-! ## Nothing of a user -/

def World.Vacant (w : World F) (user : String) : Prop := ∀ r ∈ w.db.memories, r.userId ≠ user

/-- No memory is of the user, and what else refers to memories refers to those of others. -/
structure Db.Rid (db : Db F) (user : String) : Prop where
  memories : ∀ r ∈ db.memories, r.userId ≠ user
  index : ∀ d ∈ db.memoriesFts, ∃ r ∈ db.memories, r.id = d.id ∧ r.userId ≠ user
  edges : ∀ e ∈ db.associations, ∃ a ∈ db.memories, ∃ b ∈ db.memories,
    a.id = e.sourceMemoryId ∧ b.id = e.targetMemoryId ∧ a.userId ≠ user ∧ b.userId ≠ user
  queue : ∀ c ∈ db.conflictQueue, ∃ new ∈ db.memories, ∃ old ∈ db.memories,
    new.id = c.newMemoryId ∧ old.id = c.existingMemoryId ∧ new.userId ≠ user ∧ old.userId ≠ user

def vacating (user : String) : Rely (World F) where
  rel w w' := w.db.Intact → w'.db.Intact ∧ (w.Vacant user → w'.Vacant user)
  refl _ h := ⟨h, fun hv => hv⟩
  trans h h' hi := ⟨(h' (h hi).1).1, fun hv => (h' (h hi).1).2 ((h hi).2 hv)⟩

section
variable {bm25 : Bm25 F} {w : World F} {user : String}

theorem rid_of_vacant (h : w.db.Intact) (hv : w.Vacant user) : w.db.Rid user := by
  have hexists {id : String} (hid : w.db.hasMemory id) : ∃ r ∈ w.db.memories, r.id = id ∧ r.userId ≠ user := by
    obtain ⟨r, hr, hrid⟩ := hasMemory_iff.mp hid
    exact ⟨r, hr, hrid, hv r hr⟩
  refine ⟨hv, fun d hd => ?_, fun e he => ?_, fun c hc => ?_⟩
  · obtain ⟨r, hr, rfl⟩ := List.mem_map.mp (h.index.mem_iff.mp hd)
    exact ⟨r, hr, rfl, hv r hr⟩
  · obtain ⟨a, ha, haid, hau⟩ := hexists (h.joined e he).1
    obtain ⟨b, hb, hbid, hbu⟩ := hexists (h.joined e he).2
    exact ⟨a, ha, b, hb, haid, hbid, hau, hbu⟩
  · obtain ⟨-, hnew, hold⟩ := h.queued c hc
    obtain ⟨a, ha, haid, hau⟩ := hexists hnew
    obtain ⟨b, hb, hbid, hbu⟩ := hexists hold
    exact ⟨a, ha, b, hb, haid, hbid, hau, hbu⟩

variable [Field F] [LinearOrder F]

theorem vacant_exec {c : Cmd F} (hc : c.avoids user) (hv : w.Vacant user) : (exec bm25 c w).2.Vacant user := by
  refine exec_keeps (P := fun db => ∀ r ∈ db.memories, r.userId ≠ user) bm25 hv ?_ ?_
  · rintro wr a db rfl happly
    refine Write.forall_rows ?_ ?_ ?_ hv happly
    · rintro row rfl
      exact hc
    · exact fun _ _ _ _ _ _ _ hr => hr
    · intro _ f hf r hr
      rwa [(becomes_edit hf r).userId]
  · rintro llm pairs -
    exact resolving_forall_rows (fun _ _ hr => hr) (fun _ _ hr => hr) (fun _ _ _ _ _ hr => hr) llm w.oracle.llm pairs hv

theorem vacating_exec {c : Cmd F} (hc : c.avoids user) : (vacating user).rel w (exec bm25 c w).2 :=
  fun hi => ⟨intact_exec bm25 hi, vacant_exec hc⟩

def World.Cleared (w : World F) (user : String) : Prop := w.db.Intact ∧ w.Vacant user

omit [Field F] [LinearOrder F] in
theorem World.Cleared.after {w' : World F} (hr : (vacating user).rel w w') (h : w.Cleared user) : w'.Cleared user :=
  ⟨(hr h.1).1, (hr h.1).2 h.2⟩

theorem abides_sparing {ε α : Type} {p : Prog (Cmd F) Cmd.Res ε α} (hp : p.Only (Cmd.avoids user)) :
    p.Abides (exec bm25) (vacating user) w := hp.abides fun _ _ hc => vacating_exec hc

theorem abides_then {ε α β : Type} {p : Prog (Cmd F) Cmd.Res ε α} {f : α → Prog (Cmd F) Cmd.Res ε β}
    (hp : p.Only (Cmd.avoids user)) (hw : w.Cleared user)
    (hf : ∀ a (w' : World F), w'.Cleared user → (f a).Abides (exec bm25) (vacating user) w') :
    (p >>= f).Abides (exec bm25) (vacating user) w := by
  refine .seq (P := fun _ w' => w'.Cleared user) (abides_sparing hp) ?_ hf
  exact hp.amid (fun _ _ hr h => h.after hr) (fun _ _ hc h => h.after (vacating_exec hc)) hw

/-! ## The Tick -/

variable {app : AppState F} {now : Int}

variable [Elementary F]

theorem consolidateCategories_nil (owner : String) (categories : List String) (created : ℕ) :
    (consolidateCategories app owner now [] categories created).Only (Cmd.avoids user) := by
  induction categories generalizing created with
  | nil => trivial
  | cons category categories ih => exact only_bind (p := Prog.pure created) trivial fun created' => ih created'

/-- The rows of a user who is gone are not found; those of others make summaries of others. -/
theorem abides_consolidateUsers (hw : w.Cleared user) (users : List String) (created : ℕ) :
    (consolidateUsers app now users created).Abides (exec bm25) (vacating user) w := by
  induction users generalizing w created with
  | nil => trivial
  | cons owner users ih =>
    rw [consolidateUsers]
    split
    · trivial
    have hread : (sqlx (query (.hotEmbedded owner)) : HandlerM F (List (MemoryRow F))).Amid (exec bm25) (vacating user)
        (fun answer w' => w'.Cleared user ∧ ∀ rows, answer = .ok rows → owner = user → rows = []) w := by
      refine (amid_query (q := .hotEmbedded owner) (J := fun w' => w'.Cleared user) (P := fun rows => owner = user → rows = [])
        (fun _ _ hr h => h.after hr) (fun _ _ hdb h => ⟨hdb ▸ h.1, fun r hr => h.2 r (hdb ▸ hr)⟩) (fun w' rows h heval howner => ?_) hw).imp
        fun _ _ h => ⟨h.1, h.2.2⟩
      cases heval
      refine List.filter_eq_nil_iff.mpr fun r hr hkeep => ?_
      simp only [Bool.and_eq_true, beq_iff_eq] at hkeep
      exact h.2 r hr (hkeep.1.1.trans howner)
    refine .seq (abides_sparing (only_mapError (only_query trivial))) hread fun rows w₁ h₁ => ?_
    refine abides_then (only_call trivial) h₁.1 fun categories w₂ h₂ => ?_
    refine abides_then ?_ h₂ fun created' w₃ h₃ => ih h₃ created'
    by_cases howner : owner = user
    · rw [h₁.2 rows rfl howner]
      exact consolidateCategories_nil owner _ _
    · exact closed_consolidateCategories (only_closed (Cmd.avoids user))
        (fun group => (only_compressCluster_own app owner group now).imp fun _ hc => hc.avoids howner) _ _ _

theorem abides_tick (hw : w.Cleared user) : (handleTick app).Abides (exec bm25) (vacating user) w := by
  refine abides_then (only_clock trivial) hw fun now w₁ h₁ => ?_
  refine abides_then (only_mapError (only_query trivial)) h₁ fun hot w₂ h₂ => ?_
  refine abides_then (only_mapError (only_write trivial)) h₂ fun _ w₃ h₃ => ?_
  refine abides_then (only_mapError (only_query trivial)) h₃ fun stale w₄ h₄ => ?_
  refine abides_then (only_mapError (only_write trivial)) h₄ fun _ w₅ h₅ => ?_
  refine abides_then ?_ h₅ fun _ w₆ h₆ => ?_
  · refine only_bind (only_mapError (only_query trivial)) fun pairs => ?_
    split
    · trivial
    · exact only_mapError ⟨trivial, fun _ => only_ofExcept _⟩
  · refine .seq ?_ (amid_any _ _) fun _ _ _ => trivial
    unfold consolidateAtTick
    split
    · trivial
    · exact abides_then (only_mapError (only_query trivial)) h₆ fun users w₇ h₇ => abides_consolidateUsers h₇ users 0

/-- A Tick apart, requests insert nothing for a user they are not to store for. -/
theorem only_avoids (t : Caller F) : (handleRequest t.app t.request t.user).Only fun c =>
    ¬ t.isTick → (t.stores → t.user ≠ user) → c.avoids user := by
  by_cases htick : t.isTick
  · exact (only_issued t.app t.request t.user).imp fun _ _ hnot => absurd htick hnot
  by_cases hstore : t.stores
  · exact (only_insertsFor htick).imp fun _ hc _ hstores => hc.avoids (hstores hstore)
  · exact (thrifty_request hstore htick).imp fun _ hc _ _ => hc.avoids user

/-- Requests that begin once the user is gone, and are none of theirs that store. -/
theorem abides_request {t : Caller F} (hw : w.Cleared user) (hstores : t.stores → t.user ≠ user) :
    (handleRequest t.app t.request t.user).Abides (exec bm25) (vacating user) w := by
  by_cases htick : t.isTick
  · obtain ⟨app, connected, req⟩ := t
    obtain ⟨sync, rfl⟩ := htick
    exact abides_tick hw
  exact abides_sparing ((only_avoids t).imp fun _ hc => hc htick hstores)

/-! ## Runs -/

omit [Elementary F] in
theorem vacant_clearUser {w : World F} (hfault : w.oracle.sqlFault 0 = false) :
    (exec bm25 (.write (.clearUser user)) w).2.Vacant user := by
  have hdb : (exec bm25 (.write (.clearUser user)) w).2.db = w.db.deleteMemories (·.userId == user) := by
    simp only [exec, hfault]
    rfl
  intro r hr heq
  rw [hdb] at hr
  have hkept := (List.mem_filter.mp hr).2
  simp [heq] at hkept

omit [LinearOrder F] [Elementary F] in
theorem thrifty_of_clears {req : Request F} (hreq : req.issues (.write (.clearUser user))) {c : Cmd F}
    (hc : req.issues c) : c.thrifty := by
  refine thrifty_of_writes (fun row hrow => ?_) hc
  cases req with
  | diagnostics req => cases req <;> exact hreq.elim
  | memory req => cases req <;> first | exact hreq.elim | cases hreq
  | lifecycle req =>
    cases req with
    | clear => cases hrow
    | tick | findFading | findStable => exact hreq.elim
    | _ => cases hreq
  | unknownBucket => exact hreq.elim

/-- From the DELETE of a Clear on the user is gone for good, when the Ticks at work have not begun or
have ended by then, and so have the user's requests that store. -/
theorem cleared_for_good {w : World F} (h : Reachable bm25 anyCaller anyStep w) (ts : List (Caller F))
    (is js : List ℕ) {i : ℕ}
    {t : Caller F} {user : String} (hclear : ((accepted w ts).play (exec bm25) is).next? i = some (t, .write (.clearUser user)))
    (hfault : ((accepted w ts).play (exec bm25) is).state.oracle.sqlFault 0 = false)
    (hothers : ∀ (j : ℕ) (s : Caller F) (q : HandlerM F (ResponseData F)),
      ((accepted w ts).play (exec bm25) is).tasks[j]? = some (s, q) → (∃ answer, q = Prog.ofExcept answer) ∨
        (s.isTick → q = handleRequest s.app s.request s.user) ∧ (s.stores → s.user ≠ user)) :
    (((((accepted w ts).play (exec bm25) is).turn (exec bm25) i).play (exec bm25) js).state.db).Rid user := by
  let p := (accepted w ts).play (exec bm25) is
  obtain ⟨k, htask, hturn⟩ := Pool.turn_some (x := exec bm25) hclear
  have hcleared : (p.turn (exec bm25) i).state.Cleared user := by
    rw [show p.turn (exec bm25) i = _ from hturn]
    exact ⟨intact_exec bm25 (intact_accepted h ts is), vacant_clearUser hfault⟩
  have hsparing : ∀ tp ∈ (p.turn (exec bm25) i).tasks, tp.2.Abides (exec bm25) (vacating user) (p.turn (exec bm25) i).state := by
    intro tp htp
    rw [show (p.turn (exec bm25) i).tasks = _ from congrArg Pool.tasks hturn] at htp
    obtain ⟨j, hj⟩ := List.mem_iff_getElem?.mp htp
    by_cases hij : i = j
    · subst hij
      rw [List.getElem?_set_self (List.getElem?_eq_some_iff.mp htask).1] at hj
      cases hj
      have hissues := only_accepted (P := fun t c => t.request.issues c)
        (fun s _ => only_issued s.app s.request s.user) is _ (List.mem_of_getElem? htask)
      exact abides_sparing ((hissues.2 _).imp fun _ hc => (thrifty_of_clears hissues.1 hc).avoids user)
    · rw [List.getElem?_set_ne hij] at hj
      obtain ⟨answer, hended⟩ | ⟨hunbegun, hstores⟩ := hothers j tp.1 tp.2 hj
      · rw [hended]
        cases answer <;> trivial
      · by_cases htick : tp.1.isTick
        · rw [hunbegun htick]
          exact abides_request hcleared hstores
        · refine abides_sparing (only_accepted (P := fun s c => ¬ s.isTick → (s.stores → s.user ≠ user) → c.avoids user)
            (fun s _ => ?_) is tp (List.mem_of_getElem? hj) |>.imp fun _ hc => hc htick hstores)
          exact only_avoids s
  have hrel := Pool.play_abides hsparing js
  exact rid_of_vacant (hrel hcleared.1).1 ((hrel hcleared.1).2 hcleared.2)

end
def clears (user : String) : Caller ℚ := ⟨.flat, user, .lifecycle (.clear user true)⟩

def sweep : Caller ℚ := ⟨{ AppState.flat with llm := true }, "alice", .lifecycle (.tick true)⟩

/-- Alice is gone while Bob stores and a Tick goes round. -/
theorem alice_is_gone : ((((accepted teaStored [clears "alice", sweep, saves "bob" "milk"]).turn (exec Bm25.none) 0).play
    (exec Bm25.none) [2, 1, 2, 1, 2, 1, 2, 1, 2, 2, 2, 2]).state.db).Rid "alice" := by
  have hreach : Reachable Bm25.none anyCaller anyStep teaStored := quiet_start.reachable.serve trivial fun _ _ => trivial
  refine cleared_for_good hreach [clears "alice", sweep, saves "bob" "milk"] [] _ (i := 0) (t := clears "alice") rfl rfl ?_
  rintro (_ | _ | _ | j) s q hj
  · cases hj
    exact .inr ⟨by simp [Caller.isTick, clears], by simp [Caller.stores, clears]⟩
  · cases hj
    exact .inr ⟨fun _ => rfl, by simp [Caller.stores, sweep]⟩
  · cases hj
    exact .inr ⟨by simp [Caller.isTick, saves], fun _ => by decide⟩
  · cases hj

/-- A Tick that has read Alice's memories keeps a summary of them. -/
theorem summary_outlives_clear : ¬ ∀ (w : World ℚ) (ts : List (Caller ℚ)) (is js : List ℕ) (i : ℕ) (t : Caller ℚ)
    (user : String),
    Reachable Bm25.none anyCaller anyStep w →
    ((accepted w ts).play (exec Bm25.none) is).next? i = some (t, .write (.clearUser user)) →
    ((accepted w ts).play (exec Bm25.none) is).state.oracle.sqlFault 0 = false →
    (((((accepted w ts).play (exec Bm25.none) is).turn (exec Bm25.none) i).play (exec Bm25.none) js).state.db).Rid user := by
  intro h
  have hnext : ((accepted faded [sweep, clears "alice"]).play (exec Bm25.none) (List.replicate 8 0)).next? 1 =
      some (clears "alice", .write (.clearUser "alice")) := by
    unfold Pool.next?
    rw [Pool.play_waiting (by decide)]
    rfl
  have hrid := h faded [sweep, clears "alice"] (List.replicate 8 0) (List.replicate 20 0) 1 (clears "alice") "alice"
    faded_reachable hnext (by decide +kernel)
  have hleft : ((((accepted faded [sweep, clears "alice"]).play (exec Bm25.none) (List.replicate 8 0)).turn (exec Bm25.none) 1).play
      (exec Bm25.none) (List.replicate 20 0)).state.db.memories.any (·.userId == "alice") = true := by decide +kernel
  obtain ⟨r, hr, huser⟩ := List.any_eq_true.mp hleft
  exact hrid.memories r hr (beq_iff_eq.mp huser)

end CognitiveMemory
