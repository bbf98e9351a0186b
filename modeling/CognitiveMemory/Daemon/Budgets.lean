import CognitiveMemory.Daemon.Passes
import CognitiveMemory.Lib.Budget
import Mathlib.Algebra.Order.Monoid.Prod

/-! What requests may ask of the embedding provider and of the LLM, both of which cost money: bounds for
each request, whatever the store holds and whatever goes on besides. -/

namespace CognitiveMemory
open Prog
variable {F : Type}

/-! ## Costs -/

/-- Texts embedded and prompts sent. A pair of conflicting memories is judged by one prompt at most. -/
def Cmd.spend : Cmd F → ℕ × ℕ
  | .provider .. => (1, 0)
  | .llm _ _ => (0, 1)
  | .resolveConflicts judged pairs => (0, if judged then pairs.length else 0)
  | _ => 0

def Limited : (c : Cmd F) → c.Res → Prop
  | .query (.conflictPairs limit), .ok pairs => pairs.length ≤ limit
  | _, _ => True

section
variable [Field F] [LinearOrder F]

theorem limited_exec (bm25 : Bm25 F) (c : Cmd F) (w : World F) : Limited c (exec bm25 c w).1 := by
  cases c with
  | query q =>
    cases q with
    | conflictPairs limit =>
      simp only [exec]
      split
      · trivial
      · show List.length (List.map _ _) ≤ limit
        rw [List.length_map]
        exact List.length_take_le _ _
    | _ => trivial
  | _ => trivial

theorem calls_pair (llm : Bool) (answers : ℕ → String → Except String String) (acc : Resolving F) (p : ConflictPair) :
    (acc.pair llm answers p).calls ≤ acc.calls + (if llm then 1 else 0) := by
  show (acc.resolve llm answers p).calls ≤ _
  unfold Resolving.resolve
  split
  · split
    · show acc.calls + (acc.judge llm answers _ _).2 ≤ _
      unfold Resolving.judge
      split
      · split <;> exact le_rfl
      · exact le_rfl
    · exact Nat.le_add_right _ _
  · exact Nat.le_add_right _ _

theorem calls_pairs (llm : Bool) (answers : ℕ → String → Except String String) (pairs : List ConflictPair)
    (acc : Resolving F) :
    (pairs.foldl (Resolving.pair llm answers) acc).calls ≤ acc.calls + (if llm then pairs.length else 0) := by
  induction pairs generalizing acc with
  | nil => exact Nat.le_add_right _ _
  | cons p pairs ih =>
    refine (ih _).trans ?_
    have hstep := calls_pair llm answers acc p
    simp only [List.length_cons]
    split at hstep
    · simp_all
      omega
    · simp_all

theorem prompts_exec (bm25 : Bm25 F) (c : Cmd F) (w : World F) :
    ∃ k ≤ c.spend.2, ∀ n, (exec bm25 c w).2.oracle.llm n = w.oracle.llm (n + k) := by
  cases c with
  | llm prompt tokens => exact ⟨1, le_rfl, fun _ => rfl⟩
  | write wr =>
    refine ⟨0, le_rfl, fun n => ?_⟩
    simp only [exec]
    split
    · rfl
    · split <;> rfl
  | resolveConflicts llm pairs =>
    simp only [exec]
    split
    · exact ⟨0, Nat.zero_le _, fun _ => rfl⟩
    · refine ⟨_, ?_, fun _ => rfl⟩
      have hcalls := calls_pairs llm w.oracle.llm pairs (⟨w.db, 0, 0⟩ : Resolving F)
      rwa [Nat.zero_add] at hcalls
  | _ => exact ⟨0, Nat.zero_le _, fun _ => rfl⟩

end

theorem spend_reads {c : Cmd F} (h : c.reads) : c.spend = 0 := by
  cases c with
  | query => rfl
  | _ => exact h.elim

theorem spend_surveys {c : Cmd F} (h : c.surveys) : c.spend = 0 := by
  cases c with
  | query | order => rfl
  | _ => exact h.elim

abbrev Affords {ε α : Type} (p : Prog (Cmd F) Cmd.Res ε α) (Q : α → ℕ × ℕ → Prop) (n : ℕ × ℕ) : Prop :=
  p.Within Cmd.spend Limited Q n

abbrev Free {ε α : Type} (p : Prog (Cmd F) Cmd.Res ε α) : Prop := p.Only fun c => c.spend = 0

theorem free_affords {ε α : Type} {p : Prog (Cmd F) Cmd.Res ε α} {n : ℕ × ℕ} (h : Free p) : Affords p (fun _ _ => True) n :=
  h.within.imp fun _ _ _ => trivial

theorem free_reads {ε α : Type} {p : Prog (Cmd F) Cmd.Res ε α} (h : p.Only Cmd.reads) : Free p := h.imp fun _ => spend_reads

theorem free_surveys {ε α : Type} {p : Prog (Cmd F) Cmd.Res ε α} (h : p.Only Cmd.surveys) : Free p :=
  h.imp fun _ => spend_surveys

section
variable {app : AppState F} {n k : ℕ × ℕ}

theorem affords_embed {text : String} (hn : (1, 0) + n ≤ k) : Affords (embed app text) (fun _ m => n ≤ m) k := by
  refine .mapError (.seq (.mapError ⟨k, by simp [Cmd.spend], fun cached _ => ?_⟩))
  cases cached with
  | error e => trivial
  | ok hit =>
    cases hit with
    | some v => exact le_add_self.trans hn
    | none =>
      refine .seq ⟨n, hn, fun answer _ => .seq (.mapError ?_)⟩
      cases answer with
      | error e => trivial
      | ok v =>
        have hfree : Free ((write (.cacheInsert ⟨app.embeddings.name, app.embeddings.model, app.sha256 (canonicalise text), v⟩) :
            Repo F Unit).mapError EmbeddingError.storage) := only_mapError (only_write rfl)
        exact .after hfree fun _ => le_rfl

/-! ## Requests that cost nothing -/

variable [Field F] [LinearOrder F]

theorem free_search [Elementary F] {cfg : LifecycleConfig F} {userId : String} {queryVec : List F} {o : SearchOptions F} :
    Free (search cfg userId queryVec o) := free_surveys only_search

theorem free_rows [Elementary F] (rows : List (MemoryRow F)) : Free (memoryRowsToData app rows) :=
  only_memoryRowsToData (P := fun c : Cmd F => c.spend = 0) rfl app rows

theorem free_linked [Elementary F] (linked : List (LinkedMemory F)) : Free (linkedToData app linked) :=
  only_linkedToData (P := fun c : Cmd F => c.spend = 0) rfl app linked

omit [Field F] [LinearOrder F] in
theorem free_restoreCold {userId : String} {ids : List String} : Free (restoreCold userId ids : HandlerM F Unit) :=
  only_bind (only_mapError (only_getManyForUser rfl)) fun _ => only_bind (only_mapError (only_unlessEmpty (only_write rfl))) fun _ => trivial

theorem free_strengthenResults {userId : String} {results : List (SearchResult F)} {now : Int} :
    Free (strengthenResults app userId results now) := by
  refine only_bind (only_bind (only_mapError (only_getManyForUser rfl)) fun rows => ?_) fun _ =>
    only_bind (only_mapError (only_unlessEmpty (only_write rfl))) fun _ => trivial
  refine only_bind (only_call rfl) fun ids => ?_
  exact only_bind (only_mapError (only_unlessEmpty (only_write rfl))) fun _ =>
    only_bind (only_mapError (only_unlessEmpty (only_write rfl))) fun _ => trivial

theorem free_get [Elementary F] {userId id user : String} : Free (handleMemoryGet app userId id user) := by
  have hdata : ∀ row, Free (memoryRowToData app row) := fun row => only_bind (only_clock rfl) fun _ => trivial
  refine only_bind only_require fun _ => only_bind (only_mapError (only_query rfl)) fun row? => ?_
  cases row? with
  | none => trivial
  | some row =>
    dsimp only
    split
    · exact only_bind (only_mapError (only_unlessEmpty (only_write rfl))) fun _ => only_bind (hdata _) fun _ => trivial
    · exact only_bind (hdata _) fun _ => trivial

omit [Field F] [LinearOrder F] in
theorem free_linking {args : LinkMemoryArgs F} {user : String} : Free (handleMemoryLink args user) :=
  only_bind only_require fun _ => only_bind (only_clock rfl) fun _ => only_bind (only_mapError
    (only_linkStrength (only_createOrStrengthen rfl fun _ => rfl) fun _ => only_createOrStrengthen rfl fun _ => rfl)) fun _ => trivial

omit [Field F] [LinearOrder F] in
theorem free_diagnosing {req : DiagnosticsRequest} {user : String} :
    Free (handleDiagnosticsRequest app req user : HandlerM F _) := by
  cases req with
  | status => exact only_bind (only_mapError (only_query rfl)) fun _ => trivial
  | doctor => exact ⟨rfl, fun _ => ⟨rfl, fun _ => trivial⟩⟩
  | recentTraces | shutdown => trivial
  | mintBridgeToken =>
    refine only_bind (only_call rfl) fun _ => only_bind (only_call rfl) fun _ => only_bind (only_clock rfl) fun _ => ?_
    exact only_bind (only_mapError (only_write rfl)) fun _ => trivial
  | validateBridgeToken =>
    refine only_bind (only_mapError (only_query rfl)) fun row? => ?_
    cases row? with
    | none => trivial
    | some row =>
      refine only_bind (only_clock rfl) fun now => ?_
      split
      · trivial
      · split <;> trivial
  | counts => exact only_bind only_require fun _ => only_bind (only_mapError (only_query rfl)) fun _ => trivial

/-! ## Requests that embed -/

theorem affords_store [Elementary F] {args : StoreMemoryArgs F} {user : String} :
    Affords (handleMemoryStore app args user) (fun _ _ => True) (1, 0) := by
  refine .after only_require fun _ => .seq ((affords_embed (add_zero _).le).imp fun vector m _ => ?_)
  apply free_affords
  refine only_bind (only_freshMemoryId rfl) fun _ => only_bind (only_clock rfl) fun _ => only_bind (only_mapError (only_write rfl)) fun _ => ?_
  exact only_bind (only_bind (only_mapError free_search) fun _ => only_mapError (only_write rfl)) fun _ => trivial

omit [LinearOrder F] in
theorem affords_entries {userId : String} {now : Int} (entries : List BatchMemoryEntry) (hn : (entries.length, 0) + n ≤ k) :
    Affords (storeEntries app userId now entries) (fun _ _ => True) k := by
  induction entries generalizing n k with
  | nil => trivial
  | cons entry entries ih =>
    have hsplit : ((entry :: entries).length, 0) = ((1, 0) : ℕ × ℕ) + (entries.length, 0) := by
      rw [Prod.mk_add_mk, List.length_cons, add_comm]
    rw [hsplit, add_assoc] at hn
    refine .seq ((affords_embed hn).imp fun vector m hm => .after (only_freshMemoryId rfl) fun id => ?_)
    refine .after (only_mapError (only_write rfl)) fun _ => .seq ((ih hm).imp fun _ _ _ => trivial)

omit [LinearOrder F] in
theorem affords_storeBatch {args : StoreBatchArgs F} {user : String} :
    Affords (handleMemoryStoreBatch app args user) (fun _ _ => True) (args.memories.length, 0) := by
  refine .after only_require fun _ => ?_
  split
  · trivial
  · refine .after (only_clock rfl) fun now => .seq ((affords_entries args.memories (add_zero _).le).imp fun ids m _ => ?_)
    apply free_affords
    exact only_bind (only_linkAll (fun _ _ => only_createOrStrengthen rfl fun _ => rfl) _) fun _ => trivial

theorem affords_search [Elementary F] {args : SearchMemoryArgs} {user : String} :
    Affords (handleMemorySearch app args user) (fun _ _ => True) (1, 0) := by
  refine .after only_require fun _ => .seq ((affords_embed (add_zero _).le).imp fun vector m _ => ?_)
  apply free_affords
  refine only_bind (only_clock rfl) fun now => only_bind (only_mapError free_search) fun results => ?_
  refine only_bind (only_mapError (free_reads only_findBridges)) fun bridges => ?_
  exact only_bind (only_whenever free_restoreCold) fun _ => only_bind (only_whenever free_strengthenResults) fun _ => trivial

/-! ## A tick -/

def summaries (created : ℕ) : ℕ × ℕ := (consolidationMaxPerTick - created, consolidationMaxPerTick - created)

theorem summaries_succ {created : ℕ} (h : ¬ consolidationMaxPerTick ≤ created) :
    summaries created = (1, 1) + summaries (created + 1) := by
  have hone : consolidationMaxPerTick - created = 1 + (consolidationMaxPerTick - (created + 1)) := by omega
  exact Prod.ext hone hone

theorem affords_compress {user : String} {group : List (MemoryRow F)} {now : Int} (hn : (1, 1) + n ≤ k) :
    Affords (compressCluster app user group now) (fun _ m => n ≤ m) k := by
  have hprompt : (0, 1) + ((1, 0) + n) ≤ k := by rwa [← add_assoc]
  refine .seq ⟨(1, 0) + n, hprompt, fun answer _ => .after (only_mapError (only_ofExcept _)) fun text => ?_⟩
  refine .seq ((affords_embed le_rfl).imp fun vector m hm => .after (only_freshMemoryId rfl) fun id => ?_)
  exact .after (only_mapError (only_write rfl)) fun _ => .after (only_mapError (only_write rfl)) fun _ => hm

variable [Elementary F]

theorem affords_category {user : String} {now : Int} (mems : List (MemoryRow F)) (used : List String) {created : ℕ}
    (hk : summaries created ≤ k) :
    Affords (consolidateCategory app user now mems used created) (fun created' m => summaries created' ≤ m) k := by
  induction mems generalizing used created k with
  | nil => exact hk
  | cons head rest ih =>
    rw [consolidateCategory]
    split
    · exact hk
    split
    · exact ih _ hk
    dsimp only
    split
    · rw [summaries_succ ‹_›] at hk
      exact .seq ((affords_compress hk).imp fun _ m hm => ih _ hm)
    · exact ih _ hk

theorem affords_categories {user : String} {now : Int} {fading : List (MemoryRow F)} (categories : List String) {created : ℕ}
    (hk : summaries created ≤ k) :
    Affords (consolidateCategories app user now fading categories created) (fun created' m => summaries created' ≤ m) k := by
  induction categories generalizing created k with
  | nil => exact hk
  | cons category categories ih =>
    refine .seq (Within.imp (Q := fun created' m => summaries created' ≤ m) ?_ fun _ _ hm => ih hm)
    unfold consolidateMembers
    split
    · exact hk
    · exact affords_category _ _ hk

theorem affords_users {now : Int} (users : List String) {created : ℕ} (hk : summaries created ≤ k) :
    Affords (consolidateUsers app now users created) (fun created' m => summaries created' ≤ m) k := by
  induction users generalizing created k with
  | nil => exact hk
  | cons user users ih =>
    rw [consolidateUsers]
    split
    · exact hk
    · refine .after (only_mapError (only_query rfl)) fun rows => .after (only_call rfl) fun categories => ?_
      exact .seq ((affords_categories _ hk).imp fun _ _ hm => ih hm)

omit [Field F] [LinearOrder F] [Elementary F] in
theorem affords_resolve (hn : (0, if app.llm then 50 else 0) + n ≤ k) :
    Affords (resolveConflicts app) (fun _ m => n ≤ m) k := by
  refine .seq (.mapError ⟨k, by simp [Cmd.spend], fun answer hlimit => ?_⟩)
  cases answer with
  | error e => trivial
  | ok pairs =>
    show Affords (if pairs.isEmpty then _ else _) _ _
    have hpairs : (if app.llm then pairs.length else 0) ≤ if app.llm then 50 else 0 := by
      split
      · exact hlimit
      · exact le_rfl
    split
    · exact le_add_self.trans hn
    · refine .mapError ⟨n, (add_le_add_left (Prod.mk_le_mk.mpr ⟨le_rfl, hpairs⟩) n).trans hn, fun answer _ => ?_⟩
      cases answer with
      | error e => trivial
      | ok resolved => exact le_rfl

theorem affords_consolidate {now : Int} (hk : (if app.llm then summaries 0 else 0) ≤ k) :
    Affords (consolidateAtTick app now) (fun _ _ => True) k := by
  unfold consolidateAtTick
  split
  · trivial
  · rename_i hllm
    rw [Bool.not_eq_true, Bool.not_eq_false'] at hllm
    rw [if_pos hllm] at hk
    exact .after (only_mapError (only_query rfl)) fun users => (affords_users users hk).imp fun _ _ _ => trivial

def tickBudget (app : AppState F) : ℕ × ℕ := (0, if app.llm then 50 else 0) + if app.llm then summaries 0 else 0

theorem affords_tick : Affords (handleTick app) (fun _ _ => True) (tickBudget app) := by
  refine .after (only_clock rfl) fun now => .after (only_mapError (only_query rfl)) fun hot => ?_
  refine .after (only_mapError (only_write rfl)) fun _ => .after (only_mapError (only_query rfl)) fun stale => ?_
  refine .after (only_mapError (only_write rfl)) fun _ => .seq ((affords_resolve le_rfl).imp fun _ m hm => ?_)
  exact .seq ((affords_consolidate hm).imp fun _ _ _ => trivial)

/-! ## Every request -/

def MemoryRequest.budget : MemoryRequest F → ℕ × ℕ
  | .store _ | .search _ => (1, 0)
  | .storeBatch args => (args.memories.length, 0)
  | _ => 0

def LifecycleRequest.budget (app : AppState F) : LifecycleRequest F → ℕ × ℕ
  | .tick _ => tickBudget app
  | _ => 0

/-- Texts to embed and prompts. -/
def Caller.budget (t : Caller F) : ℕ × ℕ :=
  match t.request with
  | .memory req => req.budget
  | .lifecycle req => req.budget t.app
  | _ => 0

theorem affords_memory {req : MemoryRequest F} {user : String} :
    Affords (handleMemoryRequest app req user) (fun _ _ => True) req.budget := by
  cases req with
  | store => exact affords_store
  | storeBatch => exact affords_storeBatch
  | search => exact affords_search
  | subscribe => trivial
  | get => exact free_affords free_get
  | getMany =>
    exact free_affords (only_bind only_require fun _ => only_bind (only_mapError (only_getManyForUser rfl)) fun _ =>
      only_bind (only_mapError (only_unlessEmpty (only_write rfl))) fun _ =>
        only_bind (free_rows _) fun _ => trivial)
  | list =>
    exact free_affords (only_bind only_require fun _ => only_bind (only_mapError (only_query rfl)) fun _ =>
      only_bind (free_rows _) fun _ => trivial)
  | update => exact free_affords (only_updateOne rfl)
  | delete => exact free_affords (only_affectingOne (only_write rfl))
  | deleteMany | batchUpdate => exact free_affords (only_affecting (only_unlessEmpty (only_write rfl)))
  | link => exact free_affords free_linking
  | unlink args =>
    show Affords (handleMemoryUnlink args user : HandlerM F _) _ _
    unfold handleMemoryUnlink
    split
    · exact free_affords (only_affecting (only_write rfl))
    · exact free_affords (only_affectingOne (only_write rfl))
  | getLinked =>
    exact free_affords (only_bind only_require fun _ => only_bind (only_mapError (only_linkedFor rfl fun _ => rfl)) fun _ =>
      only_bind (free_linked _) fun _ => trivial)
  | getLinkedMany =>
    exact free_affords (only_bind only_require fun _ => only_bind (only_mapError (only_linkedForMany rfl fun _ => rfl)) fun _ =>
      only_bind (free_linked _) fun _ => trivial)
  | vectorSearch =>
    exact free_affords (only_bind only_require fun _ => only_bind (only_clock rfl) fun _ =>
      only_bind (only_mapError free_search) fun _ => trivial)
  | searchLexical =>
    exact free_affords (only_bind only_require fun _ => only_bind (only_mapError (only_query rfl)) fun _ => trivial)

theorem affords_lifecycle {req : LifecycleRequest F} {user : String} :
    Affords (handleLifecycleRequest app req user) (fun _ _ => True) (req.budget app) := by
  cases req with
  | tick => exact affords_tick
  | findFading =>
    exact free_affords (only_bind only_require fun _ => only_bind (only_mapError (only_query rfl)) fun _ =>
      only_bind (only_clock rfl) fun _ => only_bind (free_rows _) fun _ => trivial)
  | findStable =>
    exact free_affords (only_bind only_require fun _ => only_bind (only_mapError (only_query rfl)) fun _ =>
      only_bind (free_rows _) fun _ => trivial)
  | markSuperseded => exact free_affords (only_affecting (only_unlessEmpty (only_write rfl)))
  | migrateToCold | migrateToHot | convertToStub => exact free_affords (only_affectingOne (only_write rfl))
  | updateRetention => exact free_affords (only_updateOne rfl)
  | clear =>
    refine free_affords (only_bind only_require fun _ => ?_)
    split
    · trivial
    · exact only_bind (only_mapError (only_write rfl)) fun _ => trivial

theorem affords_request (t : Caller F) : Affords (handleRequest t.app t.request t.user) (fun _ _ => True) t.budget := by
  unfold Caller.budget
  cases t.request with
  | diagnostics => exact free_affords free_diagnosing
  | memory => exact affords_memory
  | lifecycle => exact affords_lifecycle
  | unknownBucket => trivial

section
variable (bm25 : Bm25 F) (w : World F) (ts : List (Caller F)) (schedule : List ℕ)

theorem affords_accepted : ∀ tp ∈ ts.map fun t => (t, handleRequest t.app t.request t.user),
    Affords tp.2 (fun _ _ => True) tp.1.budget := by
  intro tp htp
  obtain ⟨t, -, rfl⟩ := List.mem_map.mp htp
  exact affords_request t

omit [Elementary F] in
/-- The prompts that the LLM has seen are among those on the bill. -/
theorem prompts_sent (p : Requests F) (is : List ℕ) :
    ∃ k ≤ ((p.play (exec bm25) is).spending Cmd.spend).2, ∀ n, (p.play (exec bm25) is).state.oracle.llm n = p.state.oracle.llm (n + k) := by
  let J (q : Requests F) : Prop := ∃ k ≤ (q.spending Cmd.spend).2, ∀ n, q.state.oracle.llm n = p.state.oracle.llm (n + k)
  have hplayed : J (p.play (exec bm25) is) := by
    refine Pool.play_invariant (fun q i t c hq hn => ?_) ⟨0, Nat.zero_le _, fun _ => rfl⟩ is
    obtain ⟨k, hk, hbefore⟩ := hq
    obtain ⟨l, hl, hnow⟩ := prompts_exec bm25 c q.state
    obtain ⟨rest, -, hturn⟩ := Pool.turn_some (x := exec bm25) hn
    refine ⟨l + k, ?_, fun n => ?_⟩
    · rw [Pool.spending_turn _ hn]
      exact add_le_add hl hk
    · rw [hturn, ← add_assoc, ← hbefore, ← hnow]
  exact hplayed

/-- Whatever the store holds and however requests interleave: each has embedded and prompted no more than its
budget allows, and the LLM has seen no more prompts than all budgets together. -/
theorem spending_bounded :
    (∀ i : Fin ts.length, ((accepted w ts).play (exec bm25) schedule).spent Cmd.spend i ≤ ts[i].budget) ∧
    ∃ k ≤ (ts.map fun t => t.budget.2).sum, ∀ n,
      ((accepted w ts).play (exec bm25) schedule).state.oracle.llm n = w.oracle.llm (n + k) := by
  have hlimited := limited_exec bm25
  refine ⟨fun i => ?_, ?_⟩
  · have hspent := Pool.spent_le hlimited w (affords_accepted ts) schedule ⟨i, by simp⟩
    simp only [Fin.getElem_fin, List.getElem_map] at hspent
    exact hspent
  · have hsent := Pool.spending_le hlimited w (affords_accepted ts) schedule
    obtain ⟨k, hk, hprompts⟩ := prompts_sent bm25 (accepted w ts) schedule
    refine ⟨k, hk.trans (hsent.2.trans ?_), hprompts⟩
    have hprojected := map_list_sum (AddMonoidHom.snd ℕ ℕ) (ts.map fun t => t.budget)
    rw [List.map_map] at hprojected ⊢
    exact hprojected.le

-- a Tick with an LLM
example (app : AppState F) (h : app.llm = true) : tickBudget app = (5, 55) := by
  rw [tickBudget, if_pos h, if_pos h]
  rfl

end
end
end CognitiveMemory
