import CognitiveMemory.Daemon.Tenancy
import CognitiveMemory.Lib.Schedule

/-! Requests as the tasks of a pool, and which commands their parts issue. -/

namespace CognitiveMemory
open Prog
variable {F : Type}

/-! ## The quiet parts of a request -/

/-- Neither the clock, nor the tick's rows, nor any write but that of the embedding cache. -/
def Cmd.quiet : Cmd F → Prop
  | .clock | .resolveConflicts .. | .query (.hotEmbedded _) => False
  | .write (.cacheInsert _) => True
  | .write _ => False
  | _ => True

theorem Cmd.reads.quiet {c : Cmd F} (h : c.reads) : c.quiet := by
  cases c with
  | query q => cases q <;> trivial
  | _ => trivial

/-- Reads, and the orders of hash maps. -/
def Cmd.surveys : Cmd F → Prop
  | .query (.hotEmbedded _) | .query (.cacheGet ..) => False
  | .query _ | .order _ => True
  | _ => False

theorem Cmd.surveys.quiet {c : Cmd F} (h : c.surveys) : c.quiet := by
  cases c with
  | query q => cases q <;> trivial
  | order => trivial
  | _ => exact h.elim

theorem only_embed {app : AppState F} {text : String} : (embed app text).Only Cmd.quiet := by
  refine only_mapError (only_bind (only_mapError ⟨trivial, fun _ => only_ofExcept _⟩) fun cached => ?_)
  cases cached with
  | some v => trivial
  | none =>
    refine only_bind ⟨trivial, fun _ => trivial⟩ fun answer => ?_
    refine only_bind (only_mapError (only_ofExcept _)) fun v => ?_
    exact only_bind (only_mapError ⟨trivial, fun _ => only_ofExcept _⟩) fun _ => trivial

/-! ## Parts of requests -/

section parts
variable {P : Cmd F → Prop}

theorem only_query {q : Query F} (h : P (.query q)) : (query q).Only P := ⟨h, fun _ => only_ofExcept _⟩

theorem only_write {w : Write F} (h : P (.write w)) : (write w).Only P := ⟨h, fun _ => only_ofExcept _⟩

theorem only_clock {ε : Type} (h : P .clock) : (unixNow : Prog (Cmd F) Cmd.Res ε Int).Only P := ⟨h, fun _ => trivial⟩

theorem only_require {userId user : String} : (requireUserMatch userId user : HandlerM F Unit).Only P := by
  unfold requireUserMatch
  split <;> trivial

theorem only_freshMemoryId {owner : String} (h : P (.ulid owner)) : (freshMemoryId owner : HandlerM F String).Only P :=
  only_bind (only_call h) fun _ => trivial

theorem only_unlessEmpty {α : Type} {xs : List α} {p : Repo F ℕ} (h : p.Only P) : (unlessEmpty xs p).Only P := by
  unfold unlessEmpty
  split
  · trivial
  · exact h

theorem only_whenever {b : Bool} {p : HandlerM F Unit} (h : p.Only P) : (whenever b p).Only P := by
  unfold whenever
  split
  · exact h
  · trivial

theorem only_affecting {userId user : String} {p : Repo F ℕ} (hp : p.Only P) : (affecting userId user p).Only P :=
  only_bind only_require fun _ => only_bind (only_mapError hp) fun _ => trivial

theorem only_affectingOne {userId user : String} {p : Repo F ℕ} (hp : p.Only P) : (affectingOne userId user p).Only P :=
  only_bind only_require fun _ => only_bind (only_mapError hp) fun _ => trivial

theorem only_updateOne {userId id user : String} {upd : MemoryUpdate F} (h : P (.write (.updateMemory userId id upd))) :
    (updateOne userId id upd user).Only P := by
  refine only_bind only_require fun _ => only_bind (only_mapError ?_) fun _ => trivial
  unfold update
  split
  · trivial
  · exact only_bind (only_write h) fun _ => trivial

theorem only_getManyForUser {userId : String} {ids : List String} (h : P (.query (.getManyForUser userId ids))) :
    (getManyForUser userId ids).Only P := by
  unfold getManyForUser
  split
  · trivial
  · exact only_query h

theorem only_memoriesAt {userId : String} {edges : List (NeighborEdge F)}
    (h : ∀ ids, P (.query (.getManyForUser userId ids))) :
    (memoriesAt userId edges).Only P := by
  unfold memoriesAt
  split
  · trivial
  · exact only_bind (only_getManyForUser (h _)) fun _ => trivial

theorem only_linkedFor {userId sourceId : String} {minWeight : F} (hedges : P (.query (.edgesFrom sourceId minWeight)))
    (h : ∀ ids, P (.query (.getManyForUser userId ids))) : (linkedFor userId sourceId minWeight).Only P :=
  only_bind (only_query hedges) fun _ => only_memoriesAt h

theorem only_linkedForMany {userId : String} {sourceIds : List String} {minWeight : F}
    (hedges : P (.query (.edgesFromMany sourceIds minWeight))) (h : ∀ ids, P (.query (.getManyForUser userId ids))) :
    (linkedForMany userId sourceIds minWeight).Only P := by
  unfold linkedForMany
  split
  · trivial
  · exact only_bind (only_query hedges) fun _ => only_memoriesAt h

theorem only_createOrStrengthen {a b kind : String} {bump : F} {now : Int} (hread : P (.query (.edgeWeight a b)))
    (hwrite : ∀ existing, P (.write (.upsertEdge a b existing bump now kind))) : (createOrStrengthen a b bump now kind).Only P :=
  only_bind (only_query hread) fun existing => only_write (hwrite existing)

theorem only_linkBidirectional {a b kind : String} {bump : F} {now : Int}
    (hforth : (createOrStrengthen a b bump now kind).Only P)
    (hback : (createOrStrengthen b a bump now kind).Only P) : (linkBidirectional a b bump now kind).Only P :=
  only_bind hforth fun _ => only_bind hback fun _ => trivial

theorem only_linkAll {weight : F} {now : Int} (h : ∀ a b, (createOrStrengthen a b weight now "cooccurrence").Only P)
    (pairs : List (String × String)) : (linkAll weight now pairs).Only P := by
  induction pairs with
  | nil => trivial
  | cons p pairs ih =>
    exact only_bind (only_mapError (only_linkBidirectional (h _ _) (h _ _))) fun _ => only_bind ih fun _ => trivial

theorem only_linkStrength {args : LinkMemoryArgs F} {now : Int}
    (hforth : (createOrStrengthen args.sourceId args.targetId args.strength now args.kind).Only P)
    (hback : args.bidirectional → (createOrStrengthen args.targetId args.sourceId args.strength now args.kind).Only P) :
    (linkStrength args now).Only P := by
  unfold linkStrength
  split
  · exact only_linkBidirectional hforth (hback ‹_›)
  · exact hforth

section

variable [Field F] [LinearOrder F] [Elementary F]

theorem only_memoryRowsToData (h : P .clock) (app : AppState F) (rows : List (MemoryRow F)) :
    (memoryRowsToData app rows).Only P := by
  induction rows with
  | nil => trivial
  | cons row rows ih => exact only_bind (only_bind (only_clock h) fun _ => trivial) fun _ => only_bind ih fun _ => trivial

theorem only_linkedToData (h : P .clock) (app : AppState F) (linked : List (LinkedMemory F)) :
    (linkedToData app linked).Only P := by
  induction linked with
  | nil => trivial
  | cons lm linked ih => exact only_bind (only_bind (only_clock h) fun _ => trivial) fun _ => only_bind ih fun _ => trivial

end
end parts

/-! ## Search -/

section

variable [Field F] [LinearOrder F] [Elementary F]

theorem only_expandHops {cfg : LifecycleConfig F} {userId : String} {queryVec : List F} {o : SearchOptions F} (hops : ℕ)
    (x : Expansion F) : (expandHops cfg userId queryVec o hops x).Only Cmd.surveys := by
  induction hops generalizing x with
  | zero => trivial
  | succ hops ih =>
    rw [expandHops]
    split
    · trivial
    · exact only_bind (only_mapError (only_linkedForMany trivial fun _ => trivial)) fun _ => ih _

theorem only_search {cfg : LifecycleConfig F} {userId : String} {queryVec : List F} {o : SearchOptions F} :
    (search cfg userId queryVec o).Only Cmd.surveys := by
  unfold search
  split
  · trivial
  split
  · trivial
  refine only_bind (only_mapError (only_query trivial)) fun cs => ?_
  refine only_bind (only_ofExcept _) fun dense => only_bind ?_ fun hits => only_bind ?_ fun _ => trivial
  · unfold hybridHits
    split
    · unfold fuseHybrid
      split
      · trivial
      · exact only_bind (only_mapError (only_query trivial)) fun _ =>
            only_bind (only_bind (only_call trivial) fun _ => trivial) fun _ => trivial
    · trivial
  · unfold expandedHits
    split
    · exact only_bind (only_expandHops _ _) fun _ => trivial
    · trivial

/-! ## Pools of requests -/

abbrev Requests (F : Type) := Pool (Caller F) (Cmd F) Cmd.Res HandlerError (ResponseData F) (World F)

def failed (p : Requests F) : Bool :=
  match p.tasks[0]? with
  | some (_, Prog.fail _) => true
  | _ => false

def accepted (w : World F) (ts : List (Caller F)) : Requests F :=
  .start w (ts.map fun t => (t, handleRequest t.app t.request t.user))

/-- Requests that only issue commands of one kind never come to issue another. -/
theorem accepted_obeys {allows : Caller F → History (Cmd F) Cmd.Res → Cmd F → Prop} {w : World F} {ts : List (Caller F)}
    (h : ∀ t ∈ ts, (handleRequest t.app t.request t.user).Issues (allows t) (fun _ _ => True) []) :
    (accepted w ts).Obeys allows := by
  refine Pool.Obeys.start fun tp htp => ?_
  obtain ⟨t, ht, rfl⟩ := List.mem_map.mp htp
  exact h t ht

end

end CognitiveMemory
