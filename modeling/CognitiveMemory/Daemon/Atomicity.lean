import CognitiveMemory.Daemon.Pooled

/-! What a Store or StoreBatch that fails, or is stopped, leaves behind. -/

namespace CognitiveMemory
open Prog
variable {F : Type}

/-! ## The embedding cache -/

def Db.withCache (db : Db F) (cache : List (CacheRow F)) : Db F := { db with embeddingCache := cache }

theorem Db.cacheInsert_eq (db : Db F) (row : CacheRow F) : ∃ cache, db.cacheInsert row = db.withCache cache := by
  unfold Db.cacheInsert
  split
  · exact ⟨_, rfl⟩
  · exact ⟨_, rfl⟩

section
variable {db : Db F} (cache : List (CacheRow F))

theorem foldl_withCache {α : Type} {step : Db F → α → Db F} (hstep : ∀ db a, step (db.withCache cache) a =
    (step db a).withCache cache)
    (xs : List α) : xs.foldl step (db.withCache cache) = (xs.foldl step db).withCache cache :=
  List.foldl_hom (·.withCache cache) fun db a => hstep db a

theorem modifyEach_withCache {α : Type} (p : α → MemoryRow F → Bool) (f : α → MemoryRow F → MemoryRow F) (xs : List α) :
    (db.withCache cache).modifyEach p f xs = ((db.modifyEach p f xs).1.withCache cache, (db.modifyEach p f xs).2) := by
  have hfold : ∀ (xs : List α) (acc : Db F × ℕ),
      xs.foldl (fun (acc : Db F × ℕ) x => (acc.1.modify (p x) (f x), acc.2 + acc.1.matching (p x)))
        (acc.1.withCache cache, acc.2) =
        ((xs.foldl (fun (acc : Db F × ℕ) x => (acc.1.modify (p x) (f x), acc.2 + acc.1.matching (p x))) acc).1.withCache cache,
          (xs.foldl (fun (acc : Db F × ℕ) x => (acc.1.modify (p x) (f x), acc.2 + acc.1.matching (p x))) acc).2) := by
    intro xs
    induction xs with
    | nil => exact fun acc => rfl
    | cons x xs ih => exact fun acc => ih (acc.1.modify (p x) (f x), acc.2 + acc.1.matching (p x))
  exact hfold xs (db, 0)

theorem foldlM_withCache {α : Type} {step : Db F → α → Except SqlError (Db F)}
    (hstep : ∀ db a, step (db.withCache cache) a = (step db a).map (·.withCache cache)) (xs : List α) :
    xs.foldlM step (db.withCache cache) = (xs.foldlM step db).map (·.withCache cache) := by
  induction xs generalizing db with
  | nil => rfl
  | cons x xs ih =>
    rw [List.foldlM_cons, List.foldlM_cons, hstep]
    cases step db x with
    | error e => rfl
    | ok d => exact ih

theorem upsertAssociation_withCache (row : AssociationRow F) (f : AssociationRow F → AssociationRow F) :
    (db.withCache cache).upsertAssociation row f = (db.upsertAssociation row f).map (·.withCache cache) := by
  unfold Db.upsertAssociation
  show (if (db.edge? _ _).isSome then _ else if db.hasMemory _ && db.hasMemory _ then _ else _) = _
  split
  · rfl
  · split <;> rfl

variable [Field F] [LinearOrder F]

theorem queueConflicts_withCache (userId newId : String) (now : Int) (hits : List (String × F)) :
    (db.withCache cache).queueConflicts userId newId now hits =
      (db.queueConflicts userId newId now hits).map (·.withCache cache) := by
  induction hits generalizing db with
  | nil => rfl
  | cons hit hits ih =>
    have hbind : ∀ {x : Except SqlError (Db F)} {f g : Db F → Except SqlError (Db F)},
        (∀ d, g (d.withCache cache) = (f d).map (·.withCache cache)) →
          (x.map (·.withCache cache) >>= g) = (x >>= f).map (·.withCache cache) := by
      intro x f g h
      cases x with
      | error e => rfl
      | ok d => exact h d
    have htag : ∀ (d : Db F) (a b : String) (weight : F), (d.withCache cache).synapticTag a b weight now =
        (d.synapticTag a b weight now).map (·.withCache cache) := fun d a b weight => upsertAssociation_withCache cache _ _
    have hqueue : ∀ (d : Db F) (sim : F), (d.withCache cache).queueConflict userId newId hit.1 sim now =
        (d.queueConflict userId newId hit.1 sim now).map (·.withCache cache) := by
      intro d sim
      unfold Db.queueConflict
      show (if d.conflictQueue.any _ then _ else if d.hasMemory _ && d.hasMemory _ then _ else _) = _
      split
      · rfl
      · split <;> rfl
    rw [Db.queueConflicts, Db.queueConflicts]
    split
    · exact ih
    · split
      · rw [hqueue]
        exact hbind fun d => ih
      · split
        · exact @ih (db.modify _ _)
        · split
          · rw [htag]
            refine hbind fun d => ?_
            rw [htag]
            exact hbind fun d => ih
          · rfl

/-- A statement other than the INSERT of a vector has the same effect whatever is cached. -/
theorem apply_withCache {wr : Write F} (hw : ∀ row, wr ≠ .cacheInsert row) :
    wr.apply (db.withCache cache) = (wr.apply db).map fun p => (p.1, p.2.withCache cache) := by
  have hmap : ∀ {β : Type} (b : β) (x : Except SqlError (Db F)),
      (x.map (·.withCache cache)).map (b, ·) = (x.map (b, ·)).map fun p => (p.1, p.2.withCache cache) := by
    intro β b x
    cases x <;> rfl
  cases wr with
  | cacheInsert row => exact absurd rfl (hw row)
  | insertMemory row =>
    simp only [Write.apply, Db.insertMemory]
    show Except.map _ (if db.hasMemory row.id then _ else _) = _
    split <;> rfl
  | updateMemory userId id upd =>
    simp only [Write.apply, Db.updateMemory]
    cases upd.content with
    | none => rfl
    | some content =>
      show Except.ok (_, if db.memories.any _ then _ else _) = _
      dsimp only
      split <;> rfl
  | applyDirectBoost | promoteToCore | updateRetentionScores | migrateToHotMany | supersedeCluster =>
    simp only [Write.apply, modifyEach_withCache]
    rfl
  | upsertEdge a b existing bump now kind =>
    simp only [Write.apply, Db.upsertEdge, upsertAssociation_withCache]
    exact hmap _ _
  | strengthenPairs pairs amount now kind =>
    simp only [Write.apply, Db.strengthenPairs]
    rw [foldlM_withCache cache fun db e => upsertAssociation_withCache cache _ _]
    exact hmap _ _
  | insertBridgeToken row =>
    simp only [Write.apply]
    show (if db.bridgeTokens.any _ then _ else _) = _
    split <;> rfl
  | queueConflicts userId newId hits now =>
    simp only [Write.apply, queueConflicts_withCache]
    exact hmap _ _
  | tickFloor rows now =>
    simp only [Write.apply]
    rw [foldl_withCache cache fun db row => ?_]
    · rfl
    · unfold Db.tickFloorRow Db.countAtFloor
      dsimp only
      split_ifs <;> rfl
  | tickExpire rows =>
    simp only [Write.apply]
    rw [foldl_withCache cache fun db row => ?_]
    · rfl
    · unfold Db.tickExpireRow
      split <;> rfl
  | _ => rfl

omit [LinearOrder F] in
theorem supersede_withCache (winner loser : MemoryRow F) :
    (db.withCache cache).supersede winner loser = (db.supersede winner loser).withCache cache := by
  unfold Db.supersede
  dsimp only
  split <;> rfl

theorem applyLabel_withCache (llm : Bool) (n e : MemoryRow F) (label : ConflictLabel) :
    (db.withCache cache).applyLabel llm n e label =
      ((db.applyLabel llm n e label).1.withCache cache, (db.applyLabel llm n e label).2) := by
  have hlift : (db.withCache cache).liftImportance n e = (db.liftImportance n e).withCache cache := by
    unfold Db.liftImportance
    split <;> rfl
  cases label with
  | contradiction | update =>
    simp only [Db.applyLabel, hlift, supersede_withCache]
    split_ifs <;> rfl
  | overlap | none_ => rfl

def Resolving.withCache (acc : Resolving F) : Resolving F := { acc with db := acc.db.withCache cache }

theorem resolve_withCache (llm : Bool) (answers : ℕ → String → Except String String) (acc : Resolving F)
    (pair : ConflictPair) :
    (acc.withCache cache).pair llm answers pair = (acc.pair llm answers pair).withCache cache := by
  have hresolve : (acc.withCache cache).resolve llm answers pair = (acc.resolve llm answers pair).withCache cache := by
    unfold Resolving.resolve
    have hrows : (acc.withCache cache).db.memories = acc.db.memories := rfl
    rw [hrows]
    cases acc.db.memories.find? (owned pair.userId pair.newMemoryId) with
    | none => rfl
    | some n =>
      cases acc.db.memories.find? (owned pair.userId pair.existingMemoryId) with
      | none => rfl
      | some e =>
        dsimp only
        split
        · have hjudge : (acc.withCache cache).judge llm answers n e = acc.judge llm answers n e := rfl
          have hdb : (acc.withCache cache).db = acc.db.withCache cache := rfl
          rw [hjudge, hdb, applyLabel_withCache]
          rfl
        · rfl
  unfold Resolving.pair
  rw [hresolve]
  rfl

theorem exec_withCache (bm25 : Bm25 F) (c : Cmd F) (w : World F) :
    ∃ cache', (exec bm25 c { w with db := w.db.withCache cache }).2.db = (exec bm25 c w).2.db.withCache cache' := by
  cases c with
  | write wr =>
    by_cases hcache : ∃ row, wr = .cacheInsert row
    · obtain ⟨row, rfl⟩ := hcache
      have hsome : ∀ d : Db F, ∃ cache', (exec bm25 (.write (.cacheInsert row)) { w with db := d }).2.db =
          d.withCache cache' := by
        intro d
        simp only [exec, Write.apply]
        split
        · exact ⟨_, rfl⟩
        · exact d.cacheInsert_eq row
      obtain ⟨_, h₁⟩ := hsome (w.db.withCache cache)
      obtain ⟨_, h₂⟩ := hsome w.db
      rw [h₁, h₂]
      exact ⟨_, rfl⟩
    · refine ⟨cache, ?_⟩
      simp only [exec, apply_withCache cache fun row heq => hcache ⟨row, heq⟩]
      split
      · rfl
      · cases wr.apply w.db <;> rfl
  | resolveConflicts llm pairs =>
    refine ⟨cache, ?_⟩
    have hfold : pairs.foldl (Resolving.pair llm w.oracle.llm) (Resolving.withCache cache ⟨w.db, 0, 0⟩) = _ :=
      List.foldl_hom (Resolving.withCache cache) fun acc pair => resolve_withCache cache llm w.oracle.llm acc pair
    simp only [exec]
    split
    · rfl
    · exact congrArg Resolving.db hfold
  | _ => exact ⟨cache, rfl⟩

end

/-! ## Store requests -/

def Cmd.idle : Cmd F → Prop
  | .write (.cacheInsert _) => True
  | .write _ | .resolveConflicts .. => False
  | _ => True

theorem exec_idle [Field F] [LinearOrder F] (bm25 : Bm25 F) {c : Cmd F} (hc : c.idle) (w : World F) :
    ∃ cache, (exec bm25 c w).2.db = w.db.withCache cache := by
  cases c with
  | write wr =>
    cases wr with
    | cacheInsert row =>
      simp only [exec, Write.apply]
      split
      · exact ⟨_, rfl⟩
      · exact w.db.cacheInsert_eq row
    | _ => exact hc.elim
  | resolveConflicts => exact hc.elim
  | _ => exact ⟨_, rfl⟩

theorem Cmd.quiet.idle {c : Cmd F} (h : c.quiet) : c.idle := by
  cases c with
  | write wr => cases wr <;> trivial
  | resolveConflicts => exact h.elim
  | _ => trivial

/-- The program changes no table until it inserts a memory. It fails if the INSERT does, and is
done with it if `last` holds, and only then. -/
inductive Storing (last : Prop) {α : Type} : HandlerM F α → Prop
  | pure (a : α) : Storing last (.pure a)
  | fail (e : HandlerError) : Storing last (.fail e)
  | idle {c : Cmd F} {k : c.Res → HandlerM F α} (hc : c.idle) (hk : ∀ r, Storing last (k r)) : Storing last (.cmd c k)
  | insert {row : MemoryRow F} {k : Except SqlError Unit → HandlerM F α} (herr : ∀ e, ∃ e', k (.error e) = .fail e')
      (hok : (∃ a, k (.ok ()) = .pure a) ↔ last) : Storing last (.cmd (.write (.insertMemory row)) k)

theorem Storing.seq {last : Prop} {α β : Type} {p : HandlerM F α} {f : α → HandlerM F β} (hp : p.Only Cmd.idle)
    (hf : ∀ a, Storing last (f a)) : Storing last (p >>= f) := by
  rw [bind_eq]
  induction p with
  | pure a => exact hf a
  | fail e => exact .fail e
  | cmd c k ih => exact .idle hp.1 fun r => ih r (hp.2 r)

theorem storing_insert {last : Prop} {α : Type} {row : MemoryRow F} {f : Unit → HandlerM F α}
    (hf : (∃ a, f () = .pure a) ↔ last) : Storing last (sqlx (write (.insertMemory row)) >>= f) :=
  .insert (fun e => ⟨.storage e, rfl⟩) hf

section

variable [Field F] [LinearOrder F]

theorem storing_store [Elementary F] {app : AppState F} {args : StoreMemoryArgs F} {user : String} :
    Storing False (handleMemoryStore app args user) := by
  refine .seq only_require fun _ => .seq (only_embed.imp fun _ => Cmd.quiet.idle) fun vector => ?_
  refine .seq (only_freshMemoryId trivial) fun id => .seq (only_clock trivial) fun now => storing_insert ?_
  refine ⟨?_, False.elim⟩
  rintro ⟨a, ha⟩
  -- The search for conflicts comes next: it reads the candidates, or refuses an empty vector.
  unfold queueConflictsFor search at ha
  split at ha
  · cases ha
  · split at ha
    · rename_i hlimit
      exact absurd (show 5 = 0 from hlimit) (by decide)
    · cases ha

omit [LinearOrder F] in
theorem storing_batch {app : AppState F} {args : StoreBatchArgs F} {user : String} :
    Storing (args.memories.length = 1) (handleMemoryStoreBatch app args user) := by
  refine .seq only_require fun _ => ?_
  cases hentries : args.memories with
  | nil => exact .pure _
  | cons entry entries =>
    refine .seq (only_clock trivial) fun now => ?_
    show Storing _ ((storeEntries app args.userId now (entry :: entries)).bind _)
    rw [storeEntries, bind_eq, bind_assoc']
    refine .seq (only_embed.imp fun _ => Cmd.quiet.idle) fun vector => ?_
    rw [bind_eq, bind_assoc']
    refine .seq (only_freshMemoryId trivial) fun id => ?_
    rw [bind_eq, bind_assoc']
    refine storing_insert ?_
    cases entries with
    | nil => exact ⟨fun _ => rfl, fun _ => ⟨_, rfl⟩⟩
    | cons entry' entries =>
      constructor
      · rintro ⟨a, ha⟩
        -- The next text is embedded.
        cases ha
      · intro hlen
        cases hlen

/-! ## Runs -/

/-- Store and StoreBatch. -/
def Caller.stores (t : Caller F) : Prop :=
  (∃ args, t.request = .memory (.store args)) ∨ ∃ args, t.request = .memory (.storeBatch args)

def Caller.single (t : Caller F) : Bool :=
  match t.request with
  | .memory (.storeBatch args) => args.memories.length == 1
  | _ => false

theorem storing_request [Elementary F] {t : Caller F} (h : t.stores) :
    Storing (t.single = true) (handleRequest t.app t.request t.user) := by
  unfold Caller.single
  rcases h with ⟨args, hreq⟩ | ⟨args, hreq⟩
  · rw [hreq]
    show Storing (false = true) (handleMemoryStore t.app args t.user)
    simpa using storing_store
  · rw [hreq]
    show Storing ((args.memories.length == 1) = true) (handleMemoryStoreBatch t.app args t.user)
    simpa using storing_batch

def without (bm25 : Bm25 F) (i : ℕ) : Requests F → List ℕ → Db F → Db F
  | _, [], db => db
  | p, j :: js, db => without bm25 i (p.turn (exec bm25) j) js <|
    match p.next? j with
    | some (_, c) => if j = i then db else (exec bm25 c { p.state with db := db }).2.db
    | none => db

/-- The memories, the edges and the conflict queue are the same. -/
structure Db.SameTables (db db' : Db F) : Prop where
  memories : db.memories = db'.memories
  associations : db.associations = db'.associations
  conflictQueue : db.conflictQueue = db'.conflictQueue

def Replied (p : Requests F) (i : ℕ) : Prop := ∃ t a, p.tasks[i]? = some (t, .pure a)

/-- Whenever the request has not been answered, be it that it is still running, stopped, or failed,
the tables are as if it had never run. -/
def LeavesNoTrace (bm25 : Bm25 F) (i : ℕ) (p : Requests F) (schedule : List ℕ) (db : Db F) : Prop :=
  ∀ is js, schedule = is ++ js → ¬ Replied (p.play (exec bm25) is) i →
    (p.play (exec bm25) is).state.db.SameTables (without bm25 i p is db)

/-- An INSERT of task `i` fails, or is all a batch of one entry writes. -/
def Unstored (i : ℕ) (p : Requests F) (j : ℕ) (t : Caller F) : Cmd F → Prop
  | .write (.insertMemory row) => j = i → t.single = true ∨ p.state.oracle.sqlFault 0 = true ∨ p.state.db.hasMemory row.id = true
  | _ => True

variable {bm25 : Bm25 F} {w : World F} {i j : ℕ} {t : Caller F} {p : Requests F} {db : Db F}

theorem exec_insert (bm25 : Bm25 F) (row : MemoryRow F) (w : World F) :
    (∃ e, (exec bm25 (.write (.insertMemory row)) w).1 = .error e ∧ (exec bm25 (.write (.insertMemory row)) w).2.db = w.db) ∨
      (exec bm25 (.write (.insertMemory row)) w).1 = .ok () ∧ w.oracle.sqlFault 0 = false ∧ w.db.hasMemory row.id = false ∧
        (exec bm25 (.write (.insertMemory row)) w).2.db.memories = w.db.memories ++ [row] := by
  cases hfault : w.oracle.sqlFault 0 with
  | true => exact .inl ⟨.io, by simp [exec, hfault], by simp [exec, hfault, World.answer]⟩
  | false =>
    cases hthere : w.db.hasMemory row.id with
    | true =>
      have happly : (Write.insertMemory row).apply w.db = .error .unique := by
        rw [apply_insertMemory, if_pos hthere]
      exact .inl ⟨.unique, by simp [exec, hfault, happly], by simp [exec, hfault, happly, World.answer]⟩
    | false =>
      have happly : (Write.insertMemory row).apply w.db = .ok ((), { w.db with
          memories := w.db.memories ++ [row], memoriesFts := w.db.memoriesFts ++ [⟨row.id, row.content⟩] }) := by
        rw [apply_insertMemory, if_neg (by simp [hthere])]
      exact .inr ⟨by simp [exec, hfault, happly], rfl, rfl, by simp [exec, hfault, happly, World.answer]⟩

def Unwritten (i : ℕ) (p : Requests F) (db : Db F) : Prop :=
  Replied p i ∨ ∃ t prog, p.tasks[i]? = some (t, prog) ∧ Storing (t.single = true) prog ∧ ∃ cache, db = p.state.db.withCache cache

omit [Field F] [LinearOrder F] in
theorem Unwritten.sameTables (h : Unwritten i p db) (hreply : ¬ Replied p i) : p.state.db.SameTables db := by
  rcases h with h | ⟨_, _, _, _, cache, rfl⟩
  · exact absurd h hreply
  · exact ⟨rfl, rfl, rfl⟩

theorem Unwritten.other (h : Unwritten i p db) {c : Cmd F} (hn : p.next? j = some (t, c)) (hij : j ≠ i) :
    Unwritten i (p.turn (exec bm25) j) (exec bm25 c { p.state with db := db }).2.db := by
  obtain ⟨k, htask, hturn⟩ := Pool.turn_some (x := exec bm25) hn
  have hsame : ∀ tp, p.tasks[i]? = some tp → (p.turn (exec bm25) j).tasks[i]? = some tp := by
    intro tp htp
    rw [hturn, List.getElem?_set_ne hij]
    exact htp
  rcases h with ⟨t', a, hdone⟩ | ⟨t', prog, hprog, hstoring, cache, rfl⟩
  · exact .inl ⟨t', a, hsame _ hdone⟩
  · obtain ⟨cache', hdb⟩ := exec_withCache cache bm25 c p.state
    refine .inr ⟨t', prog, hsame _ hprog, hstoring, cache', ?_⟩
    rw [hdb, hturn]

theorem Unwritten.self (h : Unwritten i p db) {c : Cmd F} (hn : p.next? i = some (t, c)) (hg : Unstored i p i t c) :
    Unwritten i (p.turn (exec bm25) i) db := by
  obtain ⟨k, htask, hturn⟩ := Pool.turn_some (x := exec bm25) hn
  have hnow : (p.turn (exec bm25) i).tasks[i]? = some (t, k (exec bm25 c p.state).1) := by
    rw [hturn]
    exact List.getElem?_set_self (List.getElem?_eq_some_iff.mp htask).1
  rcases h with ⟨t', a, hdone⟩ | ⟨t', prog, hprog, hstoring, cache, rfl⟩
  · rw [htask] at hdone
    cases hdone
  · rw [htask] at hprog
    cases hprog
    cases hstoring with
    | idle hc hk =>
      obtain ⟨cache', hdb⟩ := exec_idle bm25 hc p.state
      refine .inr ⟨t, _, hnow, hk _, cache, ?_⟩
      rw [hturn]
      show p.state.db.withCache cache = (exec bm25 c p.state).2.db.withCache cache
      rw [hdb]
      rfl
    | @insert row _ herr hok =>
      rcases exec_insert bm25 row p.state with ⟨e, hans, hdb⟩ | ⟨hans, hfault, hnew, -⟩
      · obtain ⟨e', hfail⟩ := herr e
        rw [hans, hfail] at hnow
        refine .inr ⟨t, _, hnow, .fail e', cache, ?_⟩
        rw [hturn]
        show p.state.db.withCache cache = (exec bm25 (.write (.insertMemory row)) p.state).2.db.withCache cache
        rw [hdb]
      · -- The INSERT has succeeded, so it was all there was to do.
        rcases hg rfl with hsingle | hfault' | hthere
        · obtain ⟨a, ha⟩ := hok.mpr hsingle
          rw [hans, ha] at hnow
          exact .inl ⟨t, a, hnow⟩
        · rw [hfault] at hfault'
          cases hfault'
        · rw [hnew] at hthere
          cases hthere

/-- A successful INSERT that is not the end of its request is a trace. -/
theorem unstored_of_noTrace (h : Unwritten i p db) {schedule : List ℕ}
    (hnone : LeavesNoTrace bm25 i p (j :: schedule) db) {c : Cmd F}
    (hn : p.next? j = some (t, c)) : Unstored i p j t c := by
  unfold Unstored
  split
  · rename_i row
    rintro rfl
    by_contra hcond
    simp only [not_or, Bool.not_eq_true] at hcond
    obtain ⟨hsingle, hfault, hnew⟩ := hcond
    obtain ⟨k, htask, hturn⟩ := Pool.turn_some (x := exec bm25) hn
    have hnow : (p.turn (exec bm25) j).tasks[j]? = some (t, k (exec bm25 (.write (.insertMemory row)) p.state).1) := by
      rw [hturn]
      exact List.getElem?_set_self (List.getElem?_eq_some_iff.mp htask).1
    obtain ⟨hans, hstored⟩ : (exec bm25 (.write (.insertMemory row)) p.state).1 = .ok () ∧
        (exec bm25 (.write (.insertMemory row)) p.state).2.db.memories = p.state.db.memories ++ [row] := by
      rcases exec_insert bm25 row p.state with ⟨e, hans, hdb⟩ | ⟨hans, -, -, hstored⟩
      · simp [exec, hfault, apply_insertMemory, hnew] at hans
      · exact ⟨hans, hstored⟩
    rcases h with ⟨t', a, hdone⟩ | ⟨t', prog, hprog, hstoring, cache, rfl⟩
    · rw [htask] at hdone
      cases hdone
    rw [htask] at hprog
    cases hprog
    -- the request goes on after its INSERT, and could stop there
    have hrunning : ¬ Replied (p.turn (exec bm25) j) j := by
      rintro ⟨t', a, hdone⟩
      rw [hnow, hans] at hdone
      cases hstoring with
      | idle hc => exact hc
      | insert herr hok =>
        have hlast := hok.mp ⟨a, (Prod.mk.inj (Option.some.inj hdone)).2⟩
        rw [hsingle] at hlast
        cases hlast
    have hsame := (hnone [j] schedule rfl hrunning).memories
    have hnothing : without bm25 j p [j] (p.state.db.withCache cache) = p.state.db.withCache cache := by
      unfold without
      rw [hn]
      exact if_pos rfl
    rw [hnothing] at hsame
    change (p.turn (exec bm25) j).state.db.memories = p.state.db.memories at hsame
    rw [hturn] at hsame
    change (exec bm25 (.write (.insertMemory row)) p.state).2.db.memories = p.state.db.memories at hsame
    -- one row more than without the request
    rw [hstored] at hsame
    simpa using congrArg List.length hsame
  · trivial

theorem Unwritten.noTrace_iff (h : Unwritten i p db) (schedule : List ℕ) :
    LeavesNoTrace bm25 i p schedule db ↔ p.Meets (exec bm25) (Unstored i) schedule := by
  induction schedule generalizing p db with
  | nil =>
    refine ⟨fun _ => trivial, fun _ is js heq hreply => ?_⟩
    obtain ⟨rfl, rfl⟩ := List.append_eq_nil_iff.mp heq.symm
    exact h.sameTables hreply
  | cons j schedule ih =>
    let db' := match p.next? j with
      | some (_, c) => if j = i then db else (exec bm25 c { p.state with db := db }).2.db
      | none => db
    have hstep : (∀ tc ∈ p.next? j, Unstored i p j tc.1 tc.2) → Unwritten i (p.turn (exec bm25) j) db' := by
      intro hg
      cases hn : p.next? j with
      | none =>
        simp only [db', hn]
        rw [Pool.turn_none hn]
        exact h
      | some tc =>
        simp only [db', hn]
        by_cases hij : j = i
        · subst hij
          rw [if_pos rfl]
          exact h.self hn (hg tc hn)
        · rw [if_neg hij]
          exact h.other hn hij
    constructor
    · intro hnone
      have hg : ∀ tc ∈ p.next? j, Unstored i p j tc.1 tc.2 := fun tc htc => unstored_of_noTrace h hnone htc
      refine ⟨hg, (ih (hstep hg)).mp fun is js heq hreply => ?_⟩
      exact hnone (j :: is) js (by rw [heq, List.cons_append]) hreply
    · rintro ⟨hg, hrest⟩ is js heq hreply
      cases is with
      | nil => exact h.sameTables hreply
      | cons j' is =>
        obtain ⟨rfl, hrest'⟩ := List.cons.inj heq
        exact (ih (hstep hg)).mpr hrest is js hrest' hreply

/-- A Store or StoreBatch among any other requests: whenever it has failed, has been stopped, or has
not replied yet, the tables are as if it had never run, if and only if none of its INSERTs has
succeeded so far, or it is a batch of one entry. -/
theorem no_trace_iff [Elementary F] {ts : List (Caller F)} (ht : ts[i]? = some t) (hstores : t.stores) (schedule : List ℕ) :
    LeavesNoTrace bm25 i (accepted w ts) schedule w.db ↔ (accepted w ts).Meets (exec bm25) (Unstored i) schedule := by
  refine Unwritten.noTrace_iff
      (.inr ⟨t, handleRequest t.app t.request t.user, ?_, storing_request hstores, w.db.embeddingCache, rfl⟩) schedule
  simp [accepted, Pool.start, ht]

end

/-! ### A batch whose second text cannot be embedded -/

def World.stuttering : World ℚ := ⟨Db.empty, [], { Oracle.quiet with providerFault := fun n => n == 1 }⟩

theorem stuttering_start : World.stuttering.Start := ⟨rfl, rfl, quiet_start.distinct⟩

def pairOfNotes : Caller ℚ :=
  { batch "alice" ["tea", "milk"] with app := { AppState.flat with sha256 := fun text => [UInt8.ofNat text.length] } }

theorem pairOfNotes_stores : pairOfNotes.stores := .inr ⟨_, rfl⟩

instance (i : ℕ) (p : Requests ℚ) (j : ℕ) (t : Caller ℚ) (c : Cmd ℚ) : Decidable (Unstored i p j t c) := by
  unfold Unstored
  split <;> infer_instance

/-- Stopped before its first INSERT. -/
theorem no_trace_when_stopped_early :
    LeavesNoTrace Bm25.none 0 (accepted World.stuttering [pairOfNotes]) (List.replicate 5 0) Db.empty :=
  (no_trace_iff (w := World.stuttering) rfl pairOfNotes_stores _).mpr (by decide +kernel)

/-- The first note stays although the request fails. -/
theorem first_note_stays : ¬ ∀ (w : World ℚ) (ts : List (Caller ℚ)) (i : ℕ) (t : Caller ℚ) (schedule : List ℕ),
    Reachable Bm25.none anyCaller anyStep w → ts[i]? = some t → t.stores →
      LeavesNoTrace Bm25.none i (accepted w ts) schedule w.db := by
  intro h
  have hnone := h World.stuttering [pairOfNotes] 0 pairOfNotes (List.replicate 8 0) stuttering_start.reachable rfl
      pairOfNotes_stores
  have hfailed : failed ((accepted World.stuttering [pairOfNotes]).play (exec Bm25.none) (List.replicate 8 0)) = true := by
    decide +kernel
  have hstored : ((accepted World.stuttering [pairOfNotes]).play (exec Bm25.none)
      (List.replicate 8 0)).state.db.memories.length = 1 := by
    decide +kernel
  have hnothing : (without Bm25.none 0 (accepted World.stuttering [pairOfNotes])
      (List.replicate 8 0) Db.empty).memories.length = 0 := by
    decide +kernel
  have hsame := (hnone _ [] (List.append_nil _).symm ?_).memories
  · rw [hsame] at hstored
    change (without Bm25.none 0 (accepted World.stuttering [pairOfNotes])
      (List.replicate 8 0) Db.empty).memories.length = 1 at hstored
    rw [hnothing] at hstored
    cases hstored
  · rintro ⟨t, a, hreply⟩
    rw [failed, hreply] at hfailed
    cases hfailed

end CognitiveMemory
