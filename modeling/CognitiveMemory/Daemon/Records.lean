import CognitiveMemory.Daemon.Passes
import CognitiveMemory.Lib.Spending
import CognitiveMemory.Store.Keys

/-! What stays on record over a run of the daemon: the schema's constraints, the id of a memory, and
what its row says of its making. -/

namespace CognitiveMemory
open Prog
variable {F : Type}

/-! ## The schema's constraints -/

theorem Reachable.intact [Field F] [LinearOrder F] [Elementary F] {bm25 : Bm25 F} {w : World F}
    (h : Reachable bm25 anyCaller anyStep w) : w.db.Intact := by
  refine h.keeps (J := fun w => w.db.Intact) any_serves (fun w₀ h₀ => ?_) fun _ _ _ _ hJ _ _ => intact_exec bm25 hJ
  rw [h₀.db]
  exact intact_empty

theorem intact_accepted [Field F] [LinearOrder F] [Elementary F] {bm25 : Bm25 F} {w : World F}
    (h : Reachable bm25 anyCaller anyStep w)
    (ts : List (Caller F)) (is : List ℕ) : ((accepted w ts).play (exec bm25) is).state.db.Intact := by
  refine Pool.play_invariant (J := fun p : Requests F => p.state.db.Intact) (fun p i t c hp hn => ?_) h.intact is
  obtain ⟨k, -, hturn⟩ := Pool.turn_some (x := exec bm25) hn
  rw [hturn]
  exact intact_exec bm25 hp

/-- However requests are interleaved, the keys are unique, the index has each memory once, and an edge
or a queue entry joins memories that exist, the entry two different ones of its own user. -/
theorem schema_holds [Field F] [LinearOrder F] [Elementary F] {bm25 : Bm25 F} {w : World F}
    (h : Reachable bm25 anyCaller anyStep w) : w.db.Intact ∧
    ∀ c ∈ w.db.conflictQueue, c.newMemoryId ≠ c.existingMemoryId ∧ ∃ new ∈ w.db.memories, ∃ old ∈ w.db.memories,
      new.id = c.newMemoryId ∧ old.id = c.existingMemoryId ∧ new.userId = c.userId ∧ old.userId = c.userId := by
  have hw := h.sound any_serves
  refine ⟨h.intact, fun c hc => ?_⟩
  obtain ⟨hne, hnew, hold⟩ := h.intact.queued c hc
  obtain ⟨new, hmem, hid⟩ := hasMemory_iff.mp hnew
  obtain ⟨old, hmem', hid'⟩ := hasMemory_iff.mp hold
  obtain ⟨hmint, hmint'⟩ := hw.queue c hc
  refine ⟨hne, new, hmem, old, hmem', hid, hid', ?_, ?_⟩
  · exact MintedFor.unique hw (hw.rows new hmem) (hid ▸ hmint)
  · exact MintedFor.unique hw (hw.rows old hmem') (hid' ▸ hmint')

def saves (user text : String) : Caller ℚ := ⟨.flat, user, .memory (.store ⟨user, text, "semantic", "fact", "{}", none⟩)⟩

def teaStored : World ℚ := (saves "alice" "tea").serve Bm25.none World.quiet

def teaThenMilk : World ℚ := (saves "alice" "milk").serve Bm25.none teaStored

theorem teaThenMilk_intact : teaThenMilk.db.conflictQueue.length = 1 ∧ teaThenMilk.db.Intact := by
  have hreach : Reachable Bm25.none anyCaller anyStep teaThenMilk :=
    (quiet_start.reachable.serve trivial fun _ _ => trivial).serve trivial fun _ _ => trivial
  exact ⟨by decide +kernel, (schema_holds hreach).1⟩

/-! ## Ids as tokens -/

def memoryIds : Tokens (Cmd F) Cmd.Res String where
  draws
    | .ulid _, raw => some ("mem_" ++ raw)
    | _, _ => none
  spends
    | .write (.insertMemory row) => some row.id
    | _ => none
  apart c r h := by
    cases c with
    | ulid => rfl
    | _ => exact absurd h Bool.false_ne_true

def Cmd.thrifty (c : Cmd F) : Prop := memoryIds.spends c = none

theorem Cmd.quiet.thrifty {c : Cmd F} (h : c.quiet) : c.thrifty := by
  cases c with
  | write w =>
    cases w with
    | insertMemory => exact h.elim
    | _ => rfl
  | _ => rfl

section

def Honest {ε α : Type} (p : Prog (Cmd F) Cmd.Res ε α) : Prop :=
  ∀ h : Seen F, p.Issues memoryIds.honest (fun _ _ => True) h

theorem honest_of_only {ε α : Type} {p : Prog (Cmd F) Cmd.Res ε α} (hp : p.Only Cmd.thrifty) : Honest p :=
  Tokens.honest_of_thrifty hp

theorem honest_bind {ε α β : Type} {p : Prog (Cmd F) Cmd.Res ε α} {f : α → Prog (Cmd F) Cmd.Res ε β} (hp : Honest p)
    (hf : ∀ a, Honest (f a)) : Honest (p >>= f) := fun h => .seq (hp h) fun a h' _ => hf a h'

theorem honest_drawing {owner : String} (h : Seen F) : (freshMemoryId owner : HandlerM F String).Issues memoryIds.honest
    (fun id h' => memoryIds.holding h' = some id) h := ⟨nofun, fun _ => rfl⟩

theorem honest_inserting {row : MemoryRow F} {h : Seen F} (hheld : memoryIds.holding h = some row.id) :
    (sqlx (write (.insertMemory row))).Issues memoryIds.honest (fun _ _ => True) h := by
  refine .mapError ⟨fun id hid => ?_, fun answer => ?_⟩
  · cases hid
    exact hheld
  · cases answer <;> trivial

theorem honest_store [Field F] [LinearOrder F] [Elementary F] (app : AppState F) (args : StoreMemoryArgs F)
    (user : String) : Honest (handleMemoryStore app args user) := by
  refine honest_bind (honest_of_only only_require) fun _ =>
    honest_bind (honest_of_only (only_embed.imp fun _ hc => hc.thrifty)) fun vector h => ?_
  refine .seq (honest_drawing h) fun id h₁ hid => .seq (Tokens.honest_of_idle (only_clock ⟨rfl, fun _ => rfl⟩) hid) fun now h₂ hid => ?_
  refine .seq (honest_inserting ?_) fun _ h₃ _ => honest_of_only ?_ h₃
  · rw [storedRow_id]
    exact hid
  · refine only_bind (only_bind (only_mapError (only_search.imp fun _ hc => hc.quiet.thrifty)) fun _ => ?_) fun _ => trivial
    exact only_mapError (only_write rfl)

theorem honest_storeEntries [Field F] (app : AppState F) (user : String) (now : Int) (entries : List BatchMemoryEntry) :
    Honest (storeEntries app user now entries) := by
  induction entries with
  | nil => exact fun h => trivial
  | cons entry entries ih =>
    refine honest_bind (honest_of_only (only_embed.imp fun _ hc => hc.thrifty)) fun vector h => ?_
    refine .seq (honest_drawing h) fun id h₁ hid => .seq (honest_inserting hid) fun _ h₂ _ => ?_
    exact .seq (ih h₂) fun _ _ _ => trivial

theorem honest_storeBatch [Field F] (app : AppState F) (args : StoreBatchArgs F) (user : String) :
    Honest (handleMemoryStoreBatch app args user) := by
  refine honest_bind (honest_of_only only_require) fun _ => ?_
  split
  · exact fun h => trivial
  · refine honest_bind (honest_of_only (only_clock rfl)) fun now => honest_bind (honest_storeEntries app _ now _) fun ids => ?_
    apply honest_of_only
    exact only_bind (only_linkAll (fun _ _ => only_createOrStrengthen rfl fun _ => rfl) _) fun _ => trivial

/-! ## The tick -/

theorem honest_compressCluster [Field F] [LinearOrder F] (app : AppState F) (user : String)
    (group : List (MemoryRow F)) (now : Int) :
    Honest (compressCluster app user group now) := by
  refine honest_bind (honest_of_only ⟨rfl, fun _ => trivial⟩) fun answer =>
    honest_bind (honest_of_only (only_mapError (only_ofExcept _))) fun text => ?_
  refine honest_bind (honest_of_only (only_embed.imp fun _ hc => hc.thrifty)) fun vector h => ?_
  refine .seq (honest_drawing h) fun id h₁ hid => .seq (honest_inserting hid) fun _ h₂ _ => honest_of_only ?_ h₂
  exact only_bind (only_mapError (only_write rfl)) fun _ => trivial

theorem honest_closed : Closed (C := Cmd F) (R := Cmd.Res) Honest where
  pure _ _ := trivial
  fail _ _ := trivial
  seq := honest_bind
  mapError h h₀ := .mapError (h h₀)

variable [Field F] [LinearOrder F]

theorem honest_tick [Elementary F] (app : AppState F) : Honest (handleTick app) := by
  refine closed_tick (P := Honest) honest_closed (fun c hc => honest_of_only ⟨?_, fun _ => trivial⟩) fun user group now =>
    honest_compressCluster app user group now
  cases c with
  | write w =>
    cases w with
    | insertMemory => exact hc.elim
    | _ => rfl
  | _ => rfl

/-! ## Requests -/

omit [LinearOrder F] in
theorem thrifty_of_writes {req : Request F} (h : ∀ row, ¬ req.writes (.insertMemory row)) {c : Cmd F} (hc : req.issues c) :
    c.thrifty := by
  cases c with
  | write w =>
    cases w with
    | insertMemory row => exact absurd hc (h row)
    | _ => rfl
  | _ => rfl

/-- Whatever it is answered, a request inserts a memory only under the id it has just drawn, and once. -/
theorem honest_request [Elementary F] (t : Caller F) :
    (handleRequest t.app t.request t.user).Issues memoryIds.honest (fun _ _ => True) [] := by
  have hother : (∀ row, ¬ t.request.writes (.insertMemory row)) → Honest (handleRequest t.app t.request t.user) := fun h =>
    honest_of_only ((only_issued t.app t.request t.user).imp fun _ hc => thrifty_of_writes h hc)
  cases hreq : t.request with
  | diagnostics req =>
    rw [hreq] at hother
    refine hother (fun row h => ?_) []
    cases req <;> exact h.elim
  | memory req =>
    cases req with
    | store args => exact honest_store _ _ _ []
    | storeBatch args => exact honest_storeBatch _ _ _ []
    | delete | deleteMany | batchUpdate =>
      rw [hreq] at hother
      exact hother (fun row h => by cases h) []
    | _ =>
      rw [hreq] at hother
      exact hother (fun row h => h.elim) []
  | lifecycle req =>
    cases req with
    | tick sync => exact honest_tick _ []
    | findFading | findStable =>
      rw [hreq] at hother
      exact hother (fun row h => h.elim) []
    | _ =>
      rw [hreq] at hother
      exact hother (fun row h => by cases h) []
  | unknownBucket => trivial

end

/-! ## Rows -/

/-- What a row becomes while nobody deletes it: its making stays on record, stubs and superseded
memories stay such, and uses only add up. -/
structure MemoryRow.Becomes (r r' : MemoryRow F) : Prop where
  id : r'.id = r.id
  userId : r'.userId = r.userId
  createdAt : r'.createdAt = r.createdAt
  validFrom : r'.validFrom = r.validFrom
  ttlSeconds : r'.ttlSeconds = r.ttlSeconds
  provider : r'.embeddingProvider = r.embeddingProvider
  model : r'.embeddingModel = r.embeddingModel
  embedding : r'.embedding = r.embedding ∨ r'.embedding = none
  stub : r.isStub = true → r'.isStub = true
  superseded : r.isSuperseded = true → r'.isSuperseded = true
  retrievals : r.retrievalCount ≤ r'.retrievalCount
  sessions : r.sessionIds <+: r'.sessionIds

theorem MemoryRow.Becomes.refl (r : MemoryRow F) : r.Becomes r :=
  ⟨rfl, rfl, rfl, rfl, rfl, rfl, rfl, .inl rfl, fun h => h, fun h => h, le_refl _, List.prefix_rfl⟩

theorem MemoryRow.Becomes.trans {a b c : MemoryRow F} (h : a.Becomes b) (h' : b.Becomes c) : a.Becomes c where
  id := h'.id.trans h.id
  userId := h'.userId.trans h.userId
  createdAt := h'.createdAt.trans h.createdAt
  validFrom := h'.validFrom.trans h.validFrom
  ttlSeconds := h'.ttlSeconds.trans h.ttlSeconds
  provider := h'.provider.trans h.provider
  model := h'.model.trans h.model
  embedding := h'.embedding.elim (fun he => he ▸ h.embedding) .inr
  stub := h'.stub ∘ h.stub
  superseded := h'.superseded ∘ h.superseded
  retrievals := h.retrievals.trans h'.retrievals
  sessions := h.sessions.trans h'.sessions

theorem becomes_boostRow (newStability : F) (now : Int) (session : String) (r : MemoryRow F) :
    r.Becomes (boostRow newStability now session r) := by
  refine ⟨rfl, rfl, rfl, rfl, rfl, rfl, rfl, .inl rfl, fun h => h, fun h => h, ?_, ?_⟩
  · show r.retrievalCount ≤ r.retrievalCount + 1
    omega
  · show r.sessionIds <+: if r.sessionIds.contains session then r.sessionIds else r.sessionIds ++ [session]
    split
    · exact List.prefix_rfl
    · exact List.prefix_append _ _

variable [Field F] [LinearOrder F]

theorem becomes_edit {w : Write F} {f : MemoryRow F → MemoryRow F} (hf : w.edits f) (r : MemoryRow F) : r.Becomes (f r) := by
  cases w with
  | applyDirectBoost user boosts now session =>
    obtain ⟨b, -, rfl⟩ := hf
    exact becomes_boostRow b.2 now session r
  | updateRetentionScores =>
    obtain ⟨u, -, rfl⟩ := hf
    exact ⟨rfl, rfl, rfl, rfl, rfl, rfl, rfl, .inl rfl, fun h => h, fun h => h, le_refl _, List.prefix_rfl⟩
  | tickFloor =>
    rcases hf with rfl | rfl | rfl <;>
      exact ⟨rfl, rfl, rfl, rfl, rfl, rfl, rfl, .inl rfl, fun h => h, fun h => h, le_refl _, List.prefix_rfl⟩
  | tickExpire =>
    obtain ⟨row, -, rfl⟩ := hf
    exact ⟨rfl, rfl, rfl, rfl, rfl, rfl, rfl, .inr rfl, fun _ => rfl, fun h => h, le_refl _, List.prefix_rfl⟩
  | convertToStub =>
    cases hf
    exact ⟨rfl, rfl, rfl, rfl, rfl, rfl, rfl, .inl rfl, fun _ => rfl, fun h => h, le_refl _, List.prefix_rfl⟩
  | markSuperseded | supersedeCluster =>
    cases hf
    exact ⟨rfl, rfl, rfl, rfl, rfl, rfl, rfl, .inl rfl, fun h => h, fun _ => rfl, le_refl _, List.prefix_rfl⟩
  | updateMemory | promoteToCore | migrateToCold | migrateToHot | migrateToHotMany | queueConflicts =>
    cases hf
    exact ⟨rfl, rfl, rfl, rfl, rfl, rfl, rfl, .inl rfl, fun h => h, fun h => h, le_refl _, List.prefix_rfl⟩
  | _ => exact hf.elim

theorem becomes_exec (bm25 : Bm25 F) (c : Cmd F) (w : World F) : ∀ r' ∈ (exec bm25 c w).2.db.memories,
    (∃ r ∈ w.db.memories, r.Becomes r') ∨ memoryIds.spends c = some r'.id := by
  have hedit : ∀ {r r' : MemoryRow F}, r.Becomes r' →
      (∃ r₀ ∈ w.db.memories, r₀.Becomes r) ∨ memoryIds.spends c = some r.id →
      (∃ r₀ ∈ w.db.memories, r₀.Becomes r') ∨ memoryIds.spends c = some r'.id := by
    rintro r r' h (⟨r₀, hr₀, h₀⟩ | hnew)
    · exact .inl ⟨r₀, hr₀, h₀.trans h⟩
    · exact .inr (h.id ▸ hnew)
  have hsame : ∀ r ∈ w.db.memories, (∃ r₀ ∈ w.db.memories, r₀.Becomes r) ∨ memoryIds.spends c = some r.id :=
    fun r hr => .inl ⟨r, hr, .refl r⟩
  refine exec_keeps (P := fun db => ∀ r' ∈ db.memories, (∃ r ∈ w.db.memories, r.Becomes r') ∨
    memoryIds.spends c = some r'.id) bm25 hsame ?_ ?_
  · rintro wr a db rfl happly
    refine Write.forall_rows ?_ ?_ ?_ hsame happly
    · rintro row rfl
      exact .inr rfl
    · rintro user id upd rfl r _ _
      exact hedit (becomes_edit (w := .updateMemory user id upd) rfl r)
    · exact fun _ f hf r => hedit (becomes_edit hf r)
  · rintro llm pairs rfl
    refine resolving_forall_rows ?_ ?_ ?_ llm w.oracle.llm pairs hsame
    · exact fun r winner => hedit
        ⟨rfl, rfl, rfl, rfl, rfl, rfl, rfl, .inl rfl, fun h => h, fun _ => rfl, le_refl _, List.prefix_rfl⟩
    · exact fun r _ => hedit ⟨rfl, rfl, rfl, rfl, rfl, rfl, rfl, .inl rfl, fun h => h, fun h => h, le_refl _, List.prefix_rfl⟩
    · exact fun n e r _ _ => hedit ⟨rfl, rfl, rfl, rfl, rfl, rfl, rfl, .inl rfl, fun h => h, fun h => h, le_refl _, List.prefix_rfl⟩

/-! ## Runs -/

def World.ids (w : World F) : List String := w.db.memories.map MemoryRow.id

/-- Requests at work on what was a new store: every memory there is was inserted under an id of its
own, and the ids to come are new. -/
structure Registered (p : Requests F) : Prop where
  honest : p.Obeys fun _ => memoryIds.honest
  sound : memoryIds.Sound p.log
  distinct : Function.Injective p.state.oracle.ulid
  ahead : ∀ k ∈ memoryIds.drawn p.log, ∀ n, k ≠ "mem_" ++ p.state.oracle.ulid n
  keyed : p.state.db.Keyed
  rows : p.state.ids ⊆ memoryIds.spent p.log

theorem registered_accepted [Elementary F] {w : World F} (h : w.Start) (ts : List (Caller F)) :
    Registered (accepted w ts) := by
  refine ⟨accepted_obeys fun t _ => honest_request t, Tokens.sound_nil, h.distinct, nofun, ?_, ?_⟩
  · simp [accepted, Pool.start, h.db, Db.empty, Db.Keyed]
  · simp [accepted, Pool.start, h.db, Db.empty, World.ids]

section
variable {bm25 : Bm25 F} {p : Requests F}

theorem draws_exec {w : World F} {c : Cmd F} {k : String} (h : memoryIds.draws c (exec bm25 c w).1 = some k) :
    k = "mem_" ++ w.oracle.ulid 0 ∧ (exec bm25 c w).2.oracle.ulid = fun n => w.oracle.ulid (n + 1) := by
  cases c with
  | ulid owner =>
    cases h
    exact ⟨rfl, rfl⟩
  | _ => cases h

theorem undrawn_exec {w : World F} {c : Cmd F} (h : memoryIds.draws c (exec bm25 c w).1 = none) :
    (exec bm25 c w).2.oracle.ulid = w.oracle.ulid :=
  exec_ulid bm25 fun owner hc => by
    subst hc
    cases h

theorem Registered.turn (h : Registered p) (i : ℕ) (t : Caller F) (c : Cmd F) (hn : p.next? i = some (t, c)) :
    Registered (p.turn (exec bm25) i) := by
  have hobeys := h.honest.turn (x := exec bm25) i
  have hhonest : memoryIds.honest (Pool.seen p.log i) c := h.honest.allowed hn
  obtain ⟨k, -, hturn⟩ := Pool.turn_some (x := exec bm25) hn
  rw [hturn] at hobeys ⊢
  have hnew : ∀ k, memoryIds.draws c (exec bm25 c p.state).1 = some k → k ∉ memoryIds.drawn p.log := fun k hk hin =>
    h.ahead k hin 0 (draws_exec hk).1
  have hahead : Function.Injective (exec bm25 c p.state).2.oracle.ulid ∧ ∀ k ∈ memoryIds.drawn
      (⟨i, c, (exec bm25 c p.state).1⟩ :: p.log), ∀ n, k ≠ "mem_" ++ (exec bm25 c p.state).2.oracle.ulid n := by
    cases hdraw : memoryIds.draws c (exec bm25 c p.state).1 with
    | none =>
      rw [undrawn_exec hdraw, Tokens.drawn_cons_none hdraw]
      exact ⟨h.distinct, h.ahead⟩
    | some k =>
      obtain ⟨rfl, hulid⟩ := draws_exec hdraw
      rw [hulid, Tokens.drawn_cons_some hdraw]
      refine ⟨fun m n hmn => Nat.succ_injective (h.distinct hmn), fun k' hk' n => ?_⟩
      rcases List.mem_cons.mp hk' with rfl | hk'
      · rw [ne_eq, String.append_right_inj]
        exact fun heq => Nat.succ_ne_zero n (h.distinct heq).symm
      · exact h.ahead k' hk' (n + 1)
  refine ⟨hobeys, h.sound.cons hhonest hnew, hahead.1, hahead.2, keyed_exec bm25 h.keyed, ?_⟩
  intro id hid
  obtain ⟨r', hr', rfl⟩ := List.mem_map.mp hid
  rcases becomes_exec bm25 c p.state r' hr' with ⟨r, hr, hb⟩ | hspend
  · have hold : r'.id ∈ memoryIds.spent p.log := hb.id ▸ h.rows (List.mem_map_of_mem hr)
    exact ((List.sublist_cons_self _ p.log).filterMap _).subset hold
  · rw [Tokens.spent_cons_some hspend]
    exact List.mem_cons_self

theorem Registered.play (h : Registered p) (is : List ℕ) : Registered (p.play (exec bm25) is) :=
  Pool.play_invariant (fun _ i t c hp hn => hp.turn i t c hn) h is

/-- The rows after a run: what the old ones have become, and those inserted by its events. -/
theorem becomes_play (bm25 : Bm25 F) (p : Requests F) (is : List ℕ) : ∃ new, (p.play (exec bm25) is).log = new ++ p.log ∧
    ∀ r' ∈ (p.play (exec bm25) is).state.db.memories,
      (∃ r ∈ p.state.db.memories, r.Becomes r') ∨ r'.id ∈ memoryIds.spent new := by
  induction is generalizing p with
  | nil => exact ⟨[], rfl, fun r hr => .inl ⟨r, hr, .refl r⟩⟩
  | cons i is ih =>
    obtain ⟨new, hlog, hrows⟩ := ih (p := p.turn (exec bm25) i)
    show ∃ new, ((p.turn (exec bm25) i).play (exec bm25) is).log = new ++ p.log ∧ _
    cases hn : p.next? i with
    | none =>
      rw [Pool.turn_none hn] at hlog hrows
      refine ⟨new, by rw [Pool.turn_none hn]; exact hlog, fun r' hr' => hrows r' ?_⟩
      rw [← Pool.turn_none (x := exec bm25) hn]
      exact hr'
    | some tc =>
      obtain ⟨t, c⟩ := tc
      obtain ⟨k, -, hturn⟩ := Pool.turn_some (x := exec bm25) hn
      refine ⟨new ++ [⟨i, c, (exec bm25 c p.state).1⟩], ?_, fun r' hr' => ?_⟩
      · rw [hlog, hturn, List.append_assoc]
        rfl
      · rw [Tokens.spent_append]
        rcases hrows r' hr' with ⟨r, hr, hb⟩ | hnew
        · rw [hturn] at hr
          rcases becomes_exec bm25 c p.state r hr with ⟨r₀, hr₀, hb₀⟩ | hspend
          · exact .inl ⟨r₀, hr₀, hb₀.trans hb⟩
          · refine .inr (List.mem_append_right _ ?_)
            rw [hb.id]
            exact List.mem_filterMap.mpr ⟨_, List.mem_singleton_self _, hspend⟩
        · exact .inr (List.mem_append_left _ hnew)

/-- A row whose id was in use before has become what it is from the row that used it. -/
theorem Registered.becomes (h : Registered p) (is : List ℕ) {r' : MemoryRow F}
    (hr' : r' ∈ (p.play (exec bm25) is).state.db.memories) (hspent : r'.id ∈ memoryIds.spent p.log) :
    ∃ r ∈ p.state.db.memories, r.Becomes r' := by
  obtain ⟨new, hlog, hrows⟩ := becomes_play bm25 p is
  refine (hrows r' hr').resolve_right fun hnew => ?_
  have hplayed : Registered (p.play (exec bm25) is) := h.play is
  have honce := hplayed.sound.once
  rw [hlog, Tokens.spent_append, List.nodup_append] at honce
  exact honce.2.2 _ hnew _ hspent rfl

end

/-- However requests are interleaved on what was a new store: a row found under an id at one moment and
one found under it later are one memory, and an id whose memory is gone is never given to another. -/
theorem memory_for_life [Elementary F] {bm25 : Bm25 F} {w : World F} (h : w.Start) (ts : List (Caller F))
    (is js ks : List ℕ) :
    let p := (accepted w ts).play (exec bm25) is
    let p' := p.play (exec bm25) js
    let p'' := p'.play (exec bm25) ks
    (∀ r ∈ p.state.db.memories, ∀ r' ∈ p'.state.db.memories, r'.id = r.id → r.Becomes r') ∧
      ∀ id ∈ p.state.ids, id ∉ p'.state.ids → id ∉ p''.state.ids := by
  intro p p' p''
  have hp : Registered p := (registered_accepted h ts).play is
  have hp' : Registered p' := hp.play js
  constructor
  · intro r hr r' hr' hid
    have hspent : r'.id ∈ memoryIds.spent p.log := hid ▸ hp.rows (List.mem_map_of_mem hr)
    obtain ⟨r₀, hr₀, hb⟩ := hp.becomes js hr' hspent
    rw [hp.keyed.eq_of_id hr hr₀ (hid.symm.trans hb.id)]
    exact hb
  · intro id hin hout hback
    obtain ⟨r'', hr'', rfl⟩ := List.mem_map.mp hback
    obtain ⟨new, hlog, -⟩ := becomes_play bm25 p js
    have hspent : r''.id ∈ memoryIds.spent p'.log := by
      rw [show p'.log = new ++ p.log from hlog, Tokens.spent_append]
      exact List.mem_append_right _ (hp.rows hin)
    obtain ⟨r', hr', hb⟩ := hp'.becomes ks hr'' hspent
    apply hout
    rw [hb.id]
    exact List.mem_map_of_mem hr'

def drops (user id : String) : Caller ℚ := ⟨.flat, user, .memory (.delete user id)⟩

/-- Alice's tea is deleted, and Bob's milk gets an id of its own. -/
theorem tea_never_returns :
    let p := (accepted World.quiet [saves "alice" "tea", drops "alice" "mem_", saves "bob" "milk"]).play (exec Bm25.none) (List.replicate 6 0)
    let p' := p.play (exec Bm25.none) [1]
    let p'' := p'.play (exec Bm25.none) (List.replicate 6 2)
    p''.state.ids = ["mem_a"] ∧ "mem_" ∉ p''.state.ids :=
  ⟨by decide +kernel, (memory_for_life quiet_start _ _ _ _).2 "mem_" (by decide +kernel) (by decide +kernel)⟩

end CognitiveMemory
