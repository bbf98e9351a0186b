import CognitiveMemory.Daemon.Provenance

/-! Which request issues which writes, with the arguments that go into them. -/

namespace CognitiveMemory
open Prog
variable {F : Type}

def MemoryRequest.writes [Field F] : MemoryRequest F → Write F → Prop
  | .store _ => fun
    | .insertMemory _ | .queueConflicts .. | .cacheInsert _ => True
    | _ => False
  | .storeBatch args => fun
    | .insertMemory _ | .cacheInsert _ => True
    | .upsertEdge _ _ _ bump _ _ => bump = args.initialLinkWeight
    | _ => False
  | .search args => fun
    | .cacheInsert _ => True
    | .applyDirectBoost user .. => user = args.userId
    | .promoteToCore user _ => user = args.userId
    | .migrateToHotMany user _ => user = args.userId
    | .strengthenPairs _ amount _ _ => amount = 1 / 10
    | _ => False
  | .get userId _ => fun
    | .migrateToHotMany user _ => user = userId
    | _ => False
  | .getMany userId _ => fun
    | .migrateToHotMany user _ => user = userId
    | _ => False
  | .update args => fun
    | .updateMemory user id upd => user = args.userId ∧ id = args.id ∧ upd = args.toMemoryUpdate
    | _ => False
  | .delete userId id => fun w => w = .deleteMemory userId id
  | .deleteMany userId ids => fun w => w = .deleteMany userId ids
  | .link args => fun
    | .upsertEdge a b _ bump _ _ => bump = args.strength ∧
        ((a, b) = (args.sourceId, args.targetId) ∨ args.bidirectional ∧ (a, b) = (args.targetId, args.sourceId))
    | _ => False
  | .unlink args => fun
    | .deleteEdgeBidirectional a b => args.bidirectional = true ∧ a = args.sourceId ∧ b = args.targetId
    | .deleteEdge a b => args.bidirectional = false ∧ a = args.sourceId ∧ b = args.targetId
    | _ => False
  | .batchUpdate userId updates => fun w => w = .updateRetentionScores userId updates
  | .subscribe _ | .list .. | .getLinked .. | .getLinkedMany .. | .vectorSearch _ | .searchLexical .. => fun _ => False

def LifecycleRequest.writes : LifecycleRequest F → Write F → Prop
  | .tick _ => fun
    | .insertMemory _ | .cacheInsert _ | .tickFloor .. | .tickExpire _ | .supersedeCluster .. => True
    | _ => False
  | .markSuperseded userId ids summaryId => fun w => w = .markSuperseded userId ids summaryId
  | .migrateToCold userId id coldSince => fun w => w = .migrateToCold userId id coldSince
  | .migrateToHot userId id => fun w => w = .migrateToHot userId id
  | .convertToStub userId id stubContent => fun w => w = .convertToStub userId id stubContent
  | .updateRetention userId id retentionFloor => fun w =>
      w = .updateMemory userId id { retentionFloor := some retentionFloor }
  | .clear userId _ => fun w => w = .clearUser userId
  | .findFading .. | .findStable .. => fun _ => False

def DiagnosticsRequest.writes : DiagnosticsRequest → Write F → Prop
  | .mintBridgeToken userId scope _ => fun
    | .insertBridgeToken row => row.userId = userId ∧ row.scope = scope
    | _ => False
  | _ => fun _ => False

def Request.writes [Field F] : Request F → Write F → Prop
  | .diagnostics req => req.writes
  | .memory req => req.writes
  | .lifecycle req => req.writes
  | .unknownBucket => fun _ => False

def Request.issues [Field F] (req : Request F) : Cmd F → Prop
  | .write w => req.writes w
  | .resolveConflicts .. => ∃ sync, req = .lifecycle (.tick sync)
  | _ => True

theorem writes_update [Field F] {req : Request F} {user id : String} {upd : MemoryUpdate F}
    (h : req.writes (.updateMemory user id upd)) :
    (∃ args, req = .memory (.update args) ∧ upd = args.toMemoryUpdate) ∨
      ∃ floor, req = .lifecycle (.updateRetention user id floor) ∧ upd = { retentionFloor := some floor } := by
  cases req with
  | diagnostics req => cases req <;> exact h.elim
  | memory req =>
    cases req with
    | update args => exact .inl ⟨args, rfl, h.2.2⟩
    | delete | deleteMany | batchUpdate => cases h
    | _ => exact h.elim
  | lifecycle req =>
    cases req with
    | updateRetention u i floor =>
      cases h
      exact .inr ⟨floor, rfl, rfl⟩
    | tick | findFading | findStable => exact h.elim
    | _ => cases h
  | unknownBucket => exact h.elim

theorem writes_token [Field F] {req : Request F} {row : BridgeTokenRow} (h : req.writes (.insertBridgeToken row)) :
    ∃ userId scope ttlSeconds, req = .diagnostics (.mintBridgeToken userId scope ttlSeconds) := by
  cases req with
  | diagnostics req =>
    cases req with
    | mintBridgeToken userId scope ttlSeconds => exact ⟨userId, scope, ttlSeconds, rfl⟩
    | _ => exact h.elim
  | memory req =>
    cases req with
    | delete | deleteMany | batchUpdate => cases h
    | _ => exact h.elim
  | lifecycle req =>
    cases req with
    | tick | findFading | findStable => exact h.elim
    | _ => cases h
  | unknownBucket => exact h.elim

theorem writes_retentions [Field F] {req : Request F} {user : String} {updates : List (String × F)}
    (h : req.writes (.updateRetentionScores user updates)) : req = .memory (.batchUpdate user updates) := by
  cases req with
  | diagnostics req => cases req <;> exact h.elim
  | memory req =>
    cases req with
    | batchUpdate =>
      cases h
      rfl
    | delete | deleteMany => cases h
    | _ => exact h.elim
  | lifecycle req =>
    cases req with
    | tick | findFading | findStable => exact h.elim
    | _ => cases h
  | unknownBucket => exact h.elim

def Write.rewards : Write F → Prop
  | .applyDirectBoost .. | .promoteToCore .. => True
  | _ => False

theorem writes_strengthening [Field F] {req : Request F} {w : Write F} (h : req.writes w) (hw : w.rewards) :
    ∃ args, req = .memory (.search args) := by
  cases w with
  | applyDirectBoost | promoteToCore =>
    cases req with
    | diagnostics req => cases req <;> exact h.elim
    | memory req =>
      cases req with
      | search args => exact ⟨args, rfl⟩
      | delete | deleteMany | batchUpdate => cases h
      | _ => exact h.elim
    | lifecycle req =>
      cases req with
      | tick | findFading | findStable => exact h.elim
      | _ => cases h
    | unknownBucket => exact h.elim
  | _ => exact hw.elim

/-! ## Parts of requests -/

def Cmd.still : Cmd F → Prop
  | .write _ | .resolveConflicts .. => False
  | _ => True

theorem Cmd.still.issued [Field F] {c : Cmd F} (h : c.still) (req : Request F) : req.issues c := by
  cases c with
  | write => exact h.elim
  | resolveConflicts => exact h.elim
  | _ => trivial

theorem Cmd.surveys.still {c : Cmd F} (h : c.surveys) : c.still := by
  cases c with
  | write => exact h.elim
  | resolveConflicts => exact h.elim
  | _ => trivial

theorem Cmd.reads.still {c : Cmd F} (h : c.reads) : c.still := by
  cases c with
  | query => trivial
  | _ => exact h.elim

section
variable {req : Request F}

theorem only_still [Field F] {ε α : Type} {p : Prog (Cmd F) Cmd.Res ε α} (h : p.Only Cmd.still) : p.Only req.issues :=
  h.imp fun _ hc => hc.issued req

theorem only_quiet [Field F] {ε α : Type} {p : Prog (Cmd F) Cmd.Res ε α} (hcache : ∀ row, req.writes (.cacheInsert row))
    (h : p.Only Cmd.quiet) : p.Only req.issues := by
  refine h.imp fun c hc => ?_
  cases c with
  | write w =>
    cases w with
    | cacheInsert row => exact hcache row
    | _ => exact hc.elim
  | resolveConflicts => exact hc.elim
  | _ => trivial

section

variable [Field F] [LinearOrder F] [Elementary F]

theorem only_searched {cfg : LifecycleConfig F} {userId : String} {queryVec : List F} {o : SearchOptions F} :
    (search cfg userId queryVec o).Only req.issues := only_still (only_search.imp fun _ h => h.still)

/-! ## Requests -/

theorem only_storing {app : AppState F} {args : StoreMemoryArgs F} {user : String} :
    (handleMemoryStore app args user).Only (Request.memory (.store args)).issues := by
  refine only_bind only_require fun _ => only_bind (only_quiet (fun _ => trivial) only_embed) fun _ => ?_
  refine only_bind (only_freshMemoryId trivial) fun _ => only_bind (only_clock trivial) fun _ => ?_
  refine only_bind (only_mapError (only_write trivial)) fun _ => only_bind ?_ fun _ => trivial
  exact only_bind (only_mapError only_searched) fun _ => only_mapError (only_write trivial)

omit [LinearOrder F] [Elementary F] in
theorem only_storingBatch {app : AppState F} {args : StoreBatchArgs F} {user : String} :
    (handleMemoryStoreBatch app args user).Only (Request.memory (.storeBatch args)).issues := by
  have hentries : ∀ (now : Int) (entries : List BatchMemoryEntry),
      (storeEntries app args.userId now entries).Only (Request.memory (.storeBatch args)).issues := by
    intro now entries
    induction entries with
    | nil => trivial
    | cons entry entries ih =>
      refine only_bind (only_quiet (fun _ => trivial) only_embed) fun _ => only_bind (only_freshMemoryId trivial) fun _ => ?_
      exact only_bind (only_mapError (only_write trivial)) fun _ => only_bind ih fun _ => trivial
  refine only_bind only_require fun _ => ?_
  split
  · trivial
  · refine only_bind (only_clock trivial) fun now => only_bind (hentries now _) fun ids => ?_
    refine only_bind (only_linkAll (fun _ _ => only_createOrStrengthen trivial fun _ => ?_) _) fun _ => trivial
    exact rfl

theorem only_searching {app : AppState F} {args : SearchMemoryArgs} {user : String} :
    (handleMemorySearch app args user).Only (Request.memory (.search args) : Request F).issues := by
  have hrestore : ∀ ids,
      (restoreCold args.userId ids : HandlerM F Unit).Only (Request.memory (.search args) : Request F).issues :=
    fun ids => only_bind (only_mapError (only_getManyForUser trivial)) fun _ =>
      only_bind (only_mapError (only_unlessEmpty (only_write rfl))) fun _ => trivial
  have hstrengthen : ∀ (results : List (SearchResult F)) (now : Int),
      (strengthenResults app args.userId results now).Only (Request.memory (.search args) : Request F).issues := by
    intro results now
    refine only_bind ?_ fun _ => only_bind (only_mapError (only_unlessEmpty (only_write rfl))) fun _ => trivial
    refine only_bind (only_mapError (only_getManyForUser trivial)) fun rows => ?_
    refine only_bind (P := (Request.memory (.search args) : Request F).issues) ⟨trivial, fun _ => trivial⟩ fun u => ?_
    exact only_bind (only_mapError (only_unlessEmpty (only_write rfl))) fun _ =>
      only_bind (only_mapError (only_unlessEmpty (only_write rfl))) fun _ => trivial
  refine only_bind only_require fun _ => only_bind (only_quiet (fun _ => trivial) only_embed) fun _ => ?_
  refine only_bind (only_clock trivial) fun now => only_bind (only_mapError only_searched) fun results => ?_
  refine only_bind (only_mapError (only_still (only_findBridges.imp fun _ h => h.still))) fun bridges => ?_
  exact only_bind (only_whenever (hrestore _)) fun _ => only_bind (only_whenever (hstrengthen _ _)) fun _ => trivial

theorem only_getting {app : AppState F} {userId id user : String} :
    (handleMemoryGet app userId id user).Only (Request.memory (.get userId id) : Request F).issues := by
  have hdata : ∀ row, (memoryRowToData app row).Only (Request.memory (.get userId id) : Request F).issues := fun row =>
    only_bind (only_clock trivial) fun _ => trivial
  refine only_bind only_require fun _ => only_bind (only_mapError (only_query trivial)) fun row? => ?_
  cases row? with
  | none => trivial
  | some row =>
    dsimp only
    split
    · exact only_bind (only_mapError (only_unlessEmpty (only_write rfl))) fun _ => only_bind (hdata _) fun _ => trivial
    · exact only_bind (hdata _) fun _ => trivial

omit [LinearOrder F] [Elementary F] in
theorem only_linking {args : LinkMemoryArgs F} {user : String} :
    (handleMemoryLink args user).Only (Request.memory (.link args)).issues := by
  refine only_bind only_require fun _ => only_bind (only_clock trivial) fun now => ?_
  refine only_bind (only_mapError ?_) fun _ => trivial
  have hforth : (createOrStrengthen args.sourceId args.targetId args.strength now args.kind).Only
      (Request.memory (.link args)).issues := only_createOrStrengthen trivial fun _ => ⟨rfl, .inl rfl⟩
  exact only_linkStrength hforth fun hb => only_createOrStrengthen trivial fun _ => ⟨rfl, .inr ⟨hb, rfl⟩⟩

theorem only_memory {app : AppState F} {req : MemoryRequest F} {user : String} :
    (handleMemoryRequest app req user).Only (Request.memory req).issues := by
  cases req with
  | subscribe => trivial
  | store => exact only_storing
  | storeBatch => exact only_storingBatch
  | search => exact only_searching
  | get => exact only_getting
  | getMany =>
    exact only_bind only_require fun _ => only_bind (only_mapError (only_getManyForUser trivial)) fun _ =>
      only_bind (only_mapError (only_unlessEmpty (only_write rfl))) fun _ =>
        only_bind (only_memoryRowsToData trivial _ _) fun _ => trivial
  | list =>
    exact only_bind only_require fun _ => only_bind (only_mapError (only_query trivial)) fun _ =>
      only_bind (only_memoryRowsToData trivial _ _) fun _ => trivial
  | update => exact only_updateOne ⟨rfl, rfl, rfl⟩
  | delete => exact only_affectingOne (only_write rfl)
  | deleteMany => exact only_affecting (only_unlessEmpty (only_write rfl))
  | link => exact only_linking
  | unlink args =>
    show (handleMemoryUnlink args user : HandlerM F _).Only _
    unfold handleMemoryUnlink
    split
    · exact only_affecting (only_write ⟨‹_›, rfl, rfl⟩)
    · exact only_affectingOne (only_write ⟨Bool.not_eq_true _ ▸ ‹_›, rfl, rfl⟩)
  | getLinked =>
    exact only_bind only_require fun _ => only_bind (only_mapError (only_linkedFor trivial fun _ => trivial)) fun _ =>
      only_bind (only_linkedToData trivial _ _) fun _ => trivial
  | getLinkedMany =>
    exact only_bind only_require fun _ => only_bind (only_mapError (only_linkedForMany trivial fun _ => trivial)) fun _ =>
      only_bind (only_linkedToData trivial _ _) fun _ => trivial
  | vectorSearch =>
    exact only_bind only_require fun _ => only_bind (only_clock trivial) fun _ =>
      only_bind (only_mapError only_searched) fun _ => trivial
  | searchLexical =>
    exact only_bind only_require fun _ => only_bind (only_mapError (only_query trivial)) fun _ => trivial
  | batchUpdate => exact only_affecting (only_unlessEmpty (only_write rfl))

def Write.consolidates : Write F → Prop
  | .insertMemory _ | .cacheInsert _ | .supersedeCluster .. => True
  | _ => False

theorem only_consolidateAtTick {P : Cmd F → Prop} (hstill : ∀ c : Cmd F, c.still → P c)
    (hwrite : ∀ w : Write F, w.consolidates → P (.write w)) (app : AppState F) (now : Int) :
      (consolidateAtTick app now).Only P := by
  have hquiet : ∀ c : Cmd F, c.quiet → P c := by
    intro c hc
    cases c with
    | write w =>
      refine hwrite w ?_
      cases w <;> trivial
    | resolveConflicts => exact hc.elim
    | _ => exact hstill _ trivial
  have hcompress : ∀ user group now, (compressCluster app user group now).Only P := by
    intro user group now
    refine only_bind (P := P) ⟨hstill _ trivial, fun _ => trivial⟩ fun answer =>
        only_bind (only_mapError (only_ofExcept _)) fun text => ?_
    refine only_bind (only_embed.imp hquiet) fun vector => only_bind (only_freshMemoryId (hstill _ trivial)) fun id => ?_
    exact only_bind (only_mapError (only_write (hwrite _ trivial))) fun _ =>
      only_bind (only_mapError (only_write (hwrite _ trivial))) fun _ => trivial
  have hcategory : ∀ user now mems used created, (consolidateCategory app user now mems used created).Only P := by
    intro user now mems
    induction mems with
    | nil => exact fun _ _ => trivial
    | cons head rest ih =>
      intro used created
      rw [consolidateCategory]
      split
      · trivial
      · split
        · exact ih _ _
        · dsimp only
          split
          · exact only_bind (hcompress _ _ _) fun _ => ih _ _
          · exact ih _ _
  have hcategories : ∀ user now fading categories created,
      (consolidateCategories app user now fading categories created).Only P := by
    intro user now fading categories
    induction categories with
    | nil => exact fun _ => trivial
    | cons category categories ih =>
      intro created
      refine only_bind ?_ fun created' => ih created'
      unfold consolidateMembers
      split
      · trivial
      · exact hcategory _ _ _ _ _
  have husers : ∀ now users created, (consolidateUsers app now users created).Only P := by
    intro now users
    induction users with
    | nil => exact fun _ => trivial
    | cons user users ih =>
      intro created
      rw [consolidateUsers]
      split
      · trivial
      · refine only_bind (only_mapError (only_query (hstill _ trivial))) fun rows => ?_
        refine only_bind (P := P) ⟨hstill _ trivial, fun _ => trivial⟩ fun categories => ?_
        exact only_bind (hcategories _ _ _ _ _) fun _ => ih _
  unfold consolidateAtTick
  split
  · trivial
  · exact only_bind (only_mapError (only_query (hstill _ trivial))) fun _ => husers _ _ _

theorem only_tick {app : AppState F} {sync : Bool} :
    (handleTick app).Only (Request.lifecycle (.tick sync) : Request F).issues := by
  refine only_bind (only_clock trivial) fun now => only_bind (only_mapError (only_query trivial)) fun hot => ?_
  refine only_bind (only_mapError (only_write trivial)) fun _ => only_bind (only_mapError (only_query trivial)) fun stale => ?_
  refine only_bind (only_mapError (only_write trivial)) fun _ => only_bind ?_ fun _ => only_bind ?_ fun _ => trivial
  · refine only_bind (only_mapError (only_query trivial)) fun pairs => ?_
    split
    · trivial
    · exact only_mapError ⟨⟨sync, rfl⟩, fun _ => only_ofExcept _⟩
  · refine only_consolidateAtTick (fun c hc => hc.issued _) (fun w hw => ?_) app now
    cases w <;> first | exact hw.elim | trivial

theorem only_lifecycle {app : AppState F} {req : LifecycleRequest F} {user : String} :
    (handleLifecycleRequest app req user).Only (Request.lifecycle req).issues := by
  cases req with
  | tick => exact only_tick
  | findFading =>
    exact only_bind only_require fun _ => only_bind (only_mapError (only_query trivial)) fun _ =>
        only_bind (only_clock trivial) fun _ =>
      only_bind (only_memoryRowsToData trivial _ _) fun _ => trivial
  | findStable =>
    exact only_bind only_require fun _ => only_bind (only_mapError (only_query trivial)) fun _ =>
      only_bind (only_memoryRowsToData trivial _ _) fun _ => trivial
  | markSuperseded => exact only_affecting (only_unlessEmpty (only_write rfl))
  | migrateToCold => exact only_affectingOne (only_write rfl)
  | migrateToHot => exact only_affectingOne (only_write rfl)
  | convertToStub => exact only_affectingOne (only_write rfl)
  | updateRetention => exact only_updateOne rfl
  | clear =>
    refine only_bind only_require fun _ => ?_
    split
    · trivial
    · exact only_bind (only_mapError (only_write rfl)) fun _ => trivial

omit [LinearOrder F] [Elementary F] in
theorem only_diagnosing {app : AppState F} {req : DiagnosticsRequest} {user : String} :
    (handleDiagnosticsRequest app req user : HandlerM F _).Only (Request.diagnostics req).issues := by
  cases req with
  | status => exact only_bind (only_mapError (only_query trivial)) fun _ => trivial
  | doctor => exact ⟨trivial, fun _ => ⟨trivial, fun _ => trivial⟩⟩
  | recentTraces => trivial
  | shutdown => trivial
  | mintBridgeToken =>
    refine only_bind ⟨trivial, fun _ => trivial⟩ fun _ => only_bind ⟨trivial, fun _ => trivial⟩ fun _ => ?_
    refine only_bind (only_clock trivial) fun _ => only_bind (only_mapError (only_write ?_)) fun _ => trivial
    exact ⟨rfl, rfl⟩
  | validateBridgeToken =>
    refine only_bind (only_mapError (only_query trivial)) fun row? => ?_
    cases row? with
    | none => trivial
    | some row =>
      refine only_bind (only_clock trivial) fun now => ?_
      split
      · trivial
      · split <;> trivial
  | counts => exact only_bind only_require fun _ => only_bind (only_mapError (only_query trivial)) fun _ => trivial

/-- Whatever it is answered, a request issues only writes of its own kind. -/
theorem only_issued (app : AppState F) (req : Request F) (user : String) : (handleRequest app req user).Only req.issues := by
  cases req with
  | diagnostics => exact only_diagnosing
  | memory => exact only_memory
  | lifecycle => exact only_lifecycle
  | unknownBucket => trivial

end
end
end CognitiveMemory
