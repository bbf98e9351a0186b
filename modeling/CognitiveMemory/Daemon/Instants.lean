import CognitiveMemory.Daemon.Notebook
import CognitiveMemory.Lib.Instant

/-! Requests of one statement, at work among any others: each takes effect at one instant, and there it does
what it would have done alone. -/

namespace CognitiveMemory
open Prog
variable {F : Type}

/-! ## Draws and statements -/

def Cmd.drawn : Cmd F → Prop
  | .query _ | .write _ | .resolveConflicts .. => False
  | _ => True

def Cmd.stated : Cmd F → Prop
  | .query _ | .write _ => True
  | _ => False

def first {α : Type} (a : α) (f : ℕ → α) : ℕ → α
  | 0 => a
  | n + 1 => f n

def clocked (e : (c : Cmd F) × c.Res) (clock : ℕ → Int) : ℕ → Int :=
  match e with
  | ⟨.clock, now⟩ => first now clock
  | _ => clock

section
variable [Field F] [LinearOrder F]

def Goes (bm25 : Bm25 F) (e : (c : Cmd F) × c.Res) (db db' : Db F) : Prop :=
  ∀ o : Oracle, ∃ o' : Oracle, o'.clock = clocked e o.clock ∧
    ∀ minted, ∃ minted', exec bm25 e.1 ⟨db, minted, o'⟩ = (e.2, ⟨db', minted', o⟩)

theorem goes_drawn (bm25 : Bm25 F) {c : Cmd F} (hc : c.drawn) (w : World F) (db : Db F) :
    Goes bm25 ⟨c, (exec bm25 c w).1⟩ db db := by
  intro o
  cases c with
  | query | write | resolveConflicts => exact hc.elim
  | clock => exact ⟨{ o with clock := first (w.oracle.clock 0) o.clock }, rfl, fun minted => ⟨minted, rfl⟩⟩
  | ulid owner => exact ⟨{ o with ulid := first (w.oracle.ulid 0) o.ulid }, rfl, fun minted => ⟨_, rfl⟩⟩
  | uuid => exact ⟨{ o with uuid := first (w.oracle.uuid 0) o.uuid }, rfl, fun minted => ⟨minted, rfl⟩⟩
  | order keys =>
    have hperm : ∀ n l, (first (w.oracle.order 0) o.order n l).Perm l := by
      intro n l
      cases n with
      | zero => exact w.oracle.order_perm 0 l
      | succ n => exact o.order_perm n l
    exact ⟨{ o with order := first (w.oracle.order 0) o.order, order_perm := hperm }, rfl, fun minted => ⟨minted, rfl⟩⟩
  | provider p text =>
    exact ⟨{ o with providerFault := first (w.oracle.providerFault 0) o.providerFault }, rfl, fun minted => ⟨minted, rfl⟩⟩
  | llm prompt tokens => exact ⟨{ o with llm := first (w.oracle.llm 0) o.llm }, rfl, fun minted => ⟨minted, rfl⟩⟩

theorem goes_stated (bm25 : Bm25 F) {c : Cmd F} (hc : c.stated) (w : World F) :
    Goes bm25 ⟨c, (exec bm25 c w).1⟩ w.db (exec bm25 c w).2.db := by
  intro o
  refine ⟨{ o with sqlFault := first (w.oracle.sqlFault 0) o.sqlFault }, ?_, fun minted => ⟨minted, ?_⟩⟩
  · cases c with
    | query | write => rfl
    | _ => exact hc.elim
  · cases c with
    | query q => rfl
    | write wr =>
      have hfirst : first (w.oracle.sqlFault 0) o.sqlFault 0 = w.oracle.sqlFault 0 := rfl
      simp only [exec, hfirst]
      split
      · rfl
      · split <;> rfl
    | _ => exact hc.elim

theorem exec_own (bm25 : Bm25 F) (c : Cmd F) (w : World F) (db : Db F) (o : Oracle) (hc : c.drawn) : ∃ o', ∀ w' : World F,
    w'.db = db → w'.oracle = o' →
      (exec bm25 c w').1 = (exec bm25 c w).1 ∧ (exec bm25 c w').2.db = db ∧ (exec bm25 c w').2.oracle = o := by
  obtain ⟨o', -, hgoes⟩ := goes_drawn bm25 hc w db o
  refine ⟨o', ?_⟩
  rintro ⟨db', minted, o''⟩ rfl rfl
  obtain ⟨minted', hexec⟩ := hgoes minted
  rw [hexec]
  exact ⟨rfl, rfl, rfl⟩

theorem exec_joint (bm25 : Bm25 F) (c : Cmd F) (w : World F) (o : Oracle) (hc : c.stated) : ∃ o', ∀ w' : World F,
    w'.db = w.db → w'.oracle = o' →
      (exec bm25 c w').1 = (exec bm25 c w).1 ∧ (exec bm25 c w').2.db = (exec bm25 c w).2.db ∧ (exec bm25 c w').2.oracle = o := by
  obtain ⟨o', -, hgoes⟩ := goes_stated bm25 hc w o
  refine ⟨o', ?_⟩
  rintro ⟨db', minted, o''⟩ rfl rfl
  obtain ⟨minted', hexec⟩ := hgoes minted
  rw [hexec]
  exact ⟨rfl, rfl, rfl⟩

theorem draws_exec_world (bm25 : Bm25 F) : Draws (exec bm25) World.db World.oracle Cmd.drawn Cmd.stated where
  untouched c w hc := by
    cases c with
    | query | write | resolveConflicts => exact hc.elim
    | _ => rfl
  own := exec_own bm25
  joint := exec_joint bm25

end

/-! ## Requests of one statement -/

abbrev Stating {ε α : Type} (p : Prog (Cmd F) Cmd.Res ε α) : Prop := p.Once Cmd.drawn Cmd.stated

section
variable {userId user : String}

theorem stating_query (q : Query F) : Stating (query q) := .inr ⟨trivial, fun r => only_ofExcept r⟩

theorem stating_write (wr : Write F) : Stating (write wr) := .inr ⟨trivial, fun r => only_ofExcept r⟩

theorem stating_unlessEmpty {α : Type} {xs : List α} {p : Repo F ℕ} (hp : Stating p) : Stating (unlessEmpty xs p) := by
  unfold unlessEmpty
  split
  · trivial
  · exact hp

theorem stating_affecting {p : Repo F ℕ} (hp : Stating p) : Stating (affecting userId user p) :=
  once_bind only_require fun _ => (once_mapError hp).before fun _ => trivial

theorem stating_affectingOne {p : Repo F ℕ} (hp : Stating p) : Stating (affectingOne userId user p) :=
  once_bind only_require fun _ => (once_mapError hp).before fun _ => trivial

theorem stating_updateOne {id : String} {upd : MemoryUpdate F} : Stating (updateOne userId id upd user) := by
  refine once_bind only_require fun _ => (once_mapError ?_).before fun _ => trivial
  unfold update
  split
  · trivial
  · exact (stating_write _).before fun _ => trivial

variable {app : AppState F}

section
variable [Field F] [LinearOrder F] [Elementary F]

theorem stating_rows {p : Repo F (List (MemoryRow F))} (hp : Stating p) :
    Stating (do
      let rows ← sqlx p
      let ds ← memoryRowsToData app rows
      Pure.pure (ResponseData.memories ds) : HandlerM F (ResponseData F)) :=
  (once_mapError hp).before fun _ => only_bind (only_memoryRowsToData (P := Cmd.drawn) trivial app _) fun _ => trivial

theorem stating_search {cfg : LifecycleConfig F} {queryVec : List F} {o : SearchOptions F} (hhybrid : o.hybrid = false)
    (hhops : o.graphExpansionHops = 0) : Stating (search cfg userId queryVec o) := by
  unfold search hybridHits expandedHits
  rw [hhybrid, hhops]
  split
  · trivial
  split
  · trivial
  refine (once_mapError (stating_query _)).before fun cs => only_bind (only_ofExcept _) fun dense => ?_
  refine only_bind trivial fun hits => only_bind ?_ fun _ => trivial
  rw [if_neg fun h => absurd h.1 (Nat.lt_irrefl 0)]
  trivial

theorem stating_vectorSearch {args : VectorSearchArgs F} : Stating (handleVectorSearch app args user) :=
  once_bind only_require fun _ => once_bind (only_clock trivial) fun _ =>
    (once_mapError (stating_search rfl rfl)).before fun _ => trivial

theorem stating_findFading {maxRetention : F} {limit : Int} :
    Stating (handleFindFading app userId maxRetention limit user) :=
  once_bind only_require fun _ => (once_mapError (stating_query _)).before fun _ => only_bind (only_clock trivial) fun _ =>
    only_bind (only_memoryRowsToData (P := Cmd.drawn) trivial app _) fun _ => trivial

end

theorem stating_clear {confirm : Bool} : Stating (handleClear userId confirm user : HandlerM F _) := by
  refine once_bind only_require fun _ => ?_
  split
  · trivial
  · exact (once_mapError (stating_write _)).before fun _ => trivial

theorem stating_unlink {args : UnlinkMemoryArgs} : Stating (handleMemoryUnlink args user : HandlerM F _) := by
  unfold handleMemoryUnlink
  split
  · exact stating_affecting (stating_write _)
  · exact stating_affectingOne (stating_write _)

def DiagnosticsRequest.brief : DiagnosticsRequest → Bool
  | .doctor => false
  | _ => true

theorem stating_diagnostics {req : DiagnosticsRequest} (h : req.brief) :
    Stating (handleDiagnosticsRequest app req user : HandlerM F _) := by
  cases req with
  | status => exact (once_mapError (stating_query _)).before fun _ => trivial
  | doctor => cases h
  | recentTraces | shutdown => trivial
  | mintBridgeToken =>
    refine once_bind (only_call trivial) fun _ => once_bind (only_call trivial) fun _ => once_bind (only_clock trivial) fun _ => ?_
    exact (once_mapError (stating_write _)).before fun _ => trivial
  | validateBridgeToken =>
    refine (once_mapError (stating_query _)).before fun row? => ?_
    cases row? with
    | none => trivial
    | some row =>
      refine only_bind (only_clock trivial) fun now => ?_
      split
      · trivial
      · split <;> trivial
  | counts => exact once_bind only_require fun _ => (once_mapError (stating_query _)).before fun _ => trivial

def MemoryRequest.brief : MemoryRequest F → Bool
  | .subscribe _ | .list .. | .update _ | .delete .. | .deleteMany .. | .unlink _ | .vectorSearch _ | .searchLexical .. |
    .batchUpdate .. => true
  | .store _ | .storeBatch _ | .search _ | .get .. | .getMany .. | .link _ | .getLinked .. | .getLinkedMany .. => false

variable [Field F] [LinearOrder F] [Elementary F]

theorem stating_memory {req : MemoryRequest F} (h : req.brief) : Stating (handleMemoryRequest app req user) := by
  cases req with
  | subscribe => trivial
  | list => exact once_bind only_require fun _ => stating_rows (stating_query _)
  | update => exact stating_updateOne
  | delete => exact stating_affectingOne (stating_write _)
  | deleteMany | batchUpdate => exact stating_affecting (stating_unlessEmpty (stating_write _))
  | unlink => exact stating_unlink
  | vectorSearch => exact stating_vectorSearch
  | searchLexical => exact once_bind only_require fun _ => (once_mapError (stating_query _)).before fun _ => trivial
  | store | storeBatch | search | get | getMany | link | getLinked | getLinkedMany => cases h

def LifecycleRequest.brief : LifecycleRequest F → Bool
  | .tick _ => false
  | _ => true

theorem stating_lifecycle {req : LifecycleRequest F} (h : req.brief) : Stating (handleLifecycleRequest app req user) := by
  cases req with
  | tick => cases h
  | findFading => exact stating_findFading
  | findStable => exact once_bind only_require fun _ => stating_rows (stating_query _)
  | markSuperseded => exact stating_affecting (stating_unlessEmpty (stating_write _))
  | migrateToCold | migrateToHot | convertToStub => exact stating_affectingOne (stating_write _)
  | updateRetention => exact stating_updateOne
  | clear => exact stating_clear

/-- Requests that put one statement, or run one transaction. -/
def Request.brief : Request F → Bool
  | .memory req => req.brief
  | .lifecycle req => req.brief
  | .diagnostics req => req.brief
  | .unknownBucket => true

theorem stating_request {t : Caller F} (h : t.request.brief) : Stating (handleRequest t.app t.request t.user) := by
  obtain ⟨app, user, req⟩ := t
  cases req with
  | memory => exact stating_memory h
  | lifecycle => exact stating_lifecycle h
  | diagnostics => exact stating_diagnostics h
  | unknownBucket => trivial

/-! ## Runs -/

/-- Amid any requests, one of one statement that has been answered with `r`: at one of its turns the store
went over as if it had been served there and then, alone, with the same answer; its other turns did nothing to
the store. So it did to the notebook what it says, in one step. -/
theorem brief_at_once (bm25 : Bm25 F) {w : World F} (h : Reachable bm25 anyCaller anyStep w) (ts : List (Caller F))
    (schedule : List ℕ) {i : ℕ} {t : Caller F} (ht : ts[i]? = some t) (hbrief : t.request.brief)
    {r : Except HandlerError (ResponseData F)}
    (hend : ((accepted w ts).play (exec bm25) schedule).tasks[i]? = some (t, ofExcept r)) :
    ∃ js, js <+: schedule ∧ (accepted w ts).TouchesAt (exec bm25) World.db schedule i js ∧ ∃ before after : World F,
      serving bm25 (t, r) before after ∧ before.db = ((accepted w ts).play (exec bm25) js).state.db ∧
        after.db = ((accepted w ts).play (exec bm25) (js ++ [i])).state.db ∧ notes (t, r) before.db.notebook after.db.notebook := by
  have hi : (accepted w ts).tasks[i]? = some (t, handleRequest t.app t.request t.user) := by
    show (ts.map _)[i]? = _
    rw [List.getElem?_map, ht]
    rfl
  obtain ⟨js, hjs, htouch, o, hcould⟩ := Pool.acts_at_once (draws_exec_world bm25) (stating_request hbrief) hi hend
  let before : World F := ⟨((accepted w ts).play (exec bm25) js).state.db, [], o⟩
  obtain ⟨hanswer, hafter⟩ := hcould before rfl rfl
  have hserved : serving bm25 (t, r) before (t.serve bm25 before) := Prod.ext hanswer rfl
  have hprefix : js <+: schedule := by
    obtain hturn | rfl := hjs
    · exact (List.prefix_append js [i]).trans hturn
    · exact List.prefix_rfl
  have hkeyed : before.db.Keyed := (intact_accepted h ts js).ids
  exact ⟨js, hprefix, htouch, before, _, hserved, rfl, hafter, (serving_refines bm25).step _ _ _ hkeyed hserved⟩

end

def teaBetween : Requests ℚ := accepted World.quiet [saves "alice" "tea", drops "bob" "mem_"]

/-- Bob has deleted nothing, and that at one instant. -/
theorem teaBetween_at_once : ∃ js, js <+: [0, 0, 1, 0] ∧ teaBetween.TouchesAt (exec Bm25.none) World.db [0, 0, 1, 0] 1 js ∧
    ∃ before after : World ℚ, serving Bm25.none (drops "bob" "mem_", .ok (.affected 0)) before after ∧
      notes (drops "bob" "mem_", .ok (.affected 0)) before.db.notebook after.db.notebook := by
  obtain ⟨js, hjs, htouch, before, after, hserved, -, -, hnotes⟩ := brief_at_once Bm25.none quiet_start.reachable
    [saves "alice" "tea", drops "bob" "mem_"] [0, 0, 1, 0] (i := 1) rfl rfl (r := .ok (.affected 0)) rfl
  exact ⟨js, hjs, htouch, before, after, hserved, hnotes⟩

end CognitiveMemory
