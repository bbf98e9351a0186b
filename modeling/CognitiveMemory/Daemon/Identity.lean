import CognitiveMemory.Daemon.Tenancy

/-! Requests that name a user other than the user of their connection. -/

namespace CognitiveMemory
open Prog
variable {F : Type}

def MemoryRequest.userArg : MemoryRequest F → Option String
  | .subscribe _ => none
  | .store args => some args.userId
  | .storeBatch args => some args.userId
  | .search args => some args.userId
  | .get userId _ | .getMany userId _ | .list userId _ => some userId
  | .update args => some args.userId
  | .delete userId _ | .deleteMany userId _ => some userId
  | .link args => some args.userId
  | .unlink args => some args.userId
  | .getLinked userId _ _ | .getLinkedMany userId _ _ => some userId
  | .vectorSearch args => some args.userId
  | .searchLexical userId _ _ | .batchUpdate userId _ => some userId

def LifecycleRequest.userArg : LifecycleRequest F → Option String
  | .tick _ => none
  | .findFading userId _ _ | .findStable userId _ _ _ | .markSuperseded userId _ _ | .migrateToCold userId _ _
  | .migrateToHot userId _ | .convertToStub userId _ _ | .updateRetention userId _ _ | .clear userId _ => some userId

def DiagnosticsRequest.userArg : DiagnosticsRequest → Option String
  | .status | .doctor | .recentTraces _ | .shutdown | .validateBridgeToken _ _ => none
  | .mintBridgeToken userId _ _ | .counts userId => some userId

/-- The `user_id` argument of a request, where its variant carries one. -/
def Request.userArg : Request F → Option String
  | .diagnostics req => req.userArg
  | .memory req => req.userArg
  | .lifecycle req => req.userArg
  | .unknownBucket => none

def Request.mints : Request F → Bool
  | .diagnostics (.mintBridgeToken ..) => true
  | _ => false

/-- The INSERT of the token about to be drawn fails: below SQLite, or on a key that is taken. -/
def World.TokenRefused (app : AppState F) (w : World F) : Prop :=
  w.oracle.sqlFault 0 = true ∨
    w.db.bridgeTokens.any (·.key == bridgeTokenHash app ("cmb_" ++ w.oracle.uuid 0 ++ w.oracle.uuid 1)) = true

section
variable {app : AppState F} {user u : String} {w : World F}

/-- The request is answered by an error and leaves the database as it was. -/
def Refused [Field F] [LinearOrder F] [Elementary F] (bm25 : Bm25 F) (app : AppState F) (req : Request F)
    (user : String) (w : World F) : Prop :=
  (∃ e, ((handleRequest app req user).run (exec bm25) w).1 = .error e) ∧
    ((handleRequest app req user).run (exec bm25) w).2.db = w.db

theorem require_of_ne (h : u ≠ user) : (requireUserMatch u user : HandlerM F Unit) =
    .fail (.invalidPayload ("request user_id " ++ u.quote ++ " != connection user_id " ++ user.quote)) := if_neg h

theorem checked_of_ne {α : Type} {k : Unit → HandlerM F α} (h : u ≠ user) : (requireUserMatch u user).bind k =
    .fail (.invalidPayload ("request user_id " ++ u.quote ++ " != connection user_id " ++ user.quote)) := by
  rw [require_of_ne h, fail_bind]

variable [Field F] [LinearOrder F] [Elementary F]

theorem memory_of_ne {req : MemoryRequest F} (hu : req.userArg = some u) (h : u ≠ user) : handleMemoryRequest app req user =
    .fail (.invalidPayload ("request user_id " ++ u.quote ++ " != connection user_id " ++ user.quote)) := by
  cases req with
  | subscribe => cases hu
  | unlink args =>
    cases hu
    simp only [handleMemoryRequest, handleMemoryUnlink]
    split
    · exact checked_of_ne h
    · exact checked_of_ne h
  | _ =>
    cases hu
    exact checked_of_ne h

theorem lifecycle_of_ne {req : LifecycleRequest F} (hu : req.userArg = some u) (h : u ≠ user) :
    handleLifecycleRequest app req user =
      .fail (.invalidPayload ("request user_id " ++ u.quote ++ " != connection user_id " ++ user.quote)) := by
  cases req with
  | tick => cases hu
  | _ =>
    cases hu
    exact checked_of_ne h

/-- Every request but MintBridgeToken compares its user before it does anything. -/
theorem request_of_ne {req : Request F} (hu : req.userArg = some u) (h : u ≠ user) (hmints : req.mints = false) :
    handleRequest app req user =
      .fail (.invalidPayload ("request user_id " ++ u.quote ++ " != connection user_id " ++ user.quote)) := by
  cases req with
  | diagnostics req =>
    cases req with
    | counts =>
      cases hu
      exact checked_of_ne h
    | mintBridgeToken => cases hmints
    | _ => cases hu
  | memory req => exact memory_of_ne hu h
  | lifecycle req => exact lifecycle_of_ne hu h
  | unknownBucket => cases hu

omit [Elementary F] in
theorem run_mint (bm25 : Bm25 F) (app : AppState F) (userId : String) (scope : BridgeScope) (ttlSeconds : ℕ) (w : World F) :
    ∃ row token expires w', row.key = bridgeTokenHash app ("cmb_" ++ w.oracle.uuid 0 ++ w.oracle.uuid 1) ∧
      w'.db = w.db ∧ w'.oracle.sqlFault = w.oracle.sqlFault ∧
      (handleMintBridgeToken app userId scope ttlSeconds).run (exec bm25) w =
        ((sqlx (write (.insertBridgeToken row)) : HandlerM F Unit).bind fun _ =>
          .pure (.bridgeToken token expires)).run (exec bm25) w' :=
  ⟨_, _, _, { w with oracle := w.oracle.nextUuid.nextUuid.nextClock }, rfl, rfl, rfl, rfl⟩

omit [Elementary F] in
theorem run_insertToken (bm25 : Bm25 F) (row : BridgeTokenRow) (w : World F) :
    (w.oracle.sqlFault 0 = true ∨ w.db.bridgeTokens.any (·.key == row.key) = true) ∧
        (∃ e, (sqlx (write (.insertBridgeToken row)) : HandlerM F Unit).run (exec bm25) w = (.error e, w.answer w.db)) ∨
      ¬ (w.oracle.sqlFault 0 = true ∨ w.db.bridgeTokens.any (·.key == row.key) = true) ∧
        ∃ db, (sqlx (write (.insertBridgeToken row)) : HandlerM F Unit).run (exec bm25) w = (.ok (), w.answer db) := by
  have hmapped : ∀ r w', (write (.insertBridgeToken row) : Repo F Unit).run (exec bm25) w = (r, w') →
      (sqlx (write (.insertBridgeToken row)) : HandlerM F Unit).run (exec bm25) w = (r.mapError .storage, w') := by
    intro r w' hwrite
    unfold sqlx
    rw [run_mapError, hwrite]
  cases hfault : w.oracle.sqlFault 0 with
  | true => exact .inl ⟨.inl rfl, _, hmapped _ _ (run_write_fault hfault)⟩
  | false =>
    cases htaken : w.db.bridgeTokens.any (·.key == row.key) with
    | true => exact .inl ⟨.inr rfl, _, hmapped _ _ (run_write_rejected hfault (if_pos htaken))⟩
    | false =>
      have happly : (Write.insertBridgeToken row).apply w.db =
          .ok ((), { w.db with bridgeTokens := w.db.bridgeTokens ++ [row] }) :=
        if_neg (by rw [htaken]; decide)
      exact .inr ⟨by simp, _, hmapped _ _ (run_write hfault happly)⟩

/-- MintBridgeToken fails with its INSERT only, whoever asks for whom. -/
theorem mint_refused_iff (bm25 : Bm25 F) (userId : String) (scope : BridgeScope) (ttlSeconds : ℕ) :
    Refused bm25 app (.diagnostics (.mintBridgeToken userId scope ttlSeconds)) user w ↔ w.TokenRefused app := by
  obtain ⟨row, token, expires, w', hkey, hdb, hfault, hrun⟩ := run_mint bm25 app userId scope ttlSeconds w
  unfold Refused World.TokenRefused
  rw [show handleRequest app (.diagnostics (.mintBridgeToken userId scope ttlSeconds)) user =
    handleMintBridgeToken app userId scope ttlSeconds from rfl, hrun, ← hkey, ← hdb, ← hfault]
  rcases run_insertToken bm25 row w' with ⟨hfails, e, hinsert⟩ | ⟨hstores, db, hinsert⟩
  · rw [run_bind_error _ hinsert]
    exact iff_of_true ⟨⟨e, rfl⟩, rfl⟩ hfails
  · rw [run_bind_ok _ hinsert]
    exact iff_of_false (fun ⟨⟨e, he⟩, _⟩ => nomatch he) hstores

/-- A request that names another user is refused exactly when it is no MintBridgeToken, or one whose
INSERT fails. -/
theorem refused_iff (bm25 : Bm25 F) (app : AppState F) (req : Request F) (user u : String) (w : World F)
    (hu : req.userArg = some u) (hne : u ≠ user) :
    Refused bm25 app req user w ↔ (req.mints = true → w.TokenRefused app) := by
  cases hmints : req.mints with
  | false =>
    refine iff_of_true ?_ nofun
    unfold Refused
    rw [request_of_ne hu hne hmints]
    exact ⟨⟨_, rfl⟩, rfl⟩
  | true =>
    cases req with
    | diagnostics req =>
      cases req with
      | mintBridgeToken userId scope ttlSeconds => exact (mint_refused_iff bm25 userId scope ttlSeconds).trans ⟨fun h _ => h, fun h => h rfl⟩
      | _ => cases hmints
    | _ => cases hmints

end

/-- Alice cannot read a memory of Bob. -/
theorem get_refused : Refused Bm25.none AppState.flat (.memory (.get "bob" "mem_")) "alice" World.quiet :=
  (refused_iff Bm25.none AppState.flat (.memory (.get "bob" "mem_")) "alice" "bob" World.quiet rfl (by decide)).mpr nofun

/-- Alice is given a token that acts for Bob. -/
theorem token_for_another : ¬ ∀ (app : AppState ℚ) (req : Request ℚ) (user u : String) (w : World ℚ),
    req.userArg = some u → u ≠ user → Refused Bm25.none app req user w := by
  intro hall
  have hrefused := hall .flat (.diagnostics (.mintBridgeToken "bob" .admin 3600)) "alice" "bob" World.quiet rfl (by decide)
  rcases (mint_refused_iff Bm25.none "bob" .admin 3600).mp hrefused with hfault | htaken
  · cases hfault
  · cases htaken

end CognitiveMemory
