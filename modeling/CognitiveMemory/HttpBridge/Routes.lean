import CognitiveMemory.Daemon.Notebook
import CognitiveMemory.HttpBridge
import CognitiveMemory.Protocol.Requests

/-! The routes of the HTTP bridge in front of a daemon that has other clients too: what comes over
HTTP changes no notebook, and tells of none, but that of the user its token is for. -/

namespace CognitiveMemory.HttpBridge

/-! ## Bodies -/

section
open Json Codec

structure StoreBody where
  content : String
  category : String
  memoryType : String
  metadata : String
  importance : Option Decimal

def defaultCategory : String := "semantic"

def defaultMemoryType : String := "fact"

def defaultMetadata : String := "{}"

def storeBody : Object StoreBody :=
  .record (Fields.build StoreBody.mk
    |>.field "content" (.required string) (·.content)
    |>.field "category" (.defaulted string defaultCategory) (·.category)
    |>.field "memory_type" (.defaulted string defaultMemoryType) (·.memoryType)
    |>.field "metadata" (.defaulted string defaultMetadata) (·.metadata)
    |>.field "importance" (.nullable decimal) (·.importance)) (fun _ => rfl) (by decide)

structure SearchBody where
  query : String
  limit : UInt64
  deepRecall : Bool
  hybrid : Bool

def defaultLimit : UInt64 := 10

def searchBody : Object SearchBody :=
  .record (Fields.build SearchBody.mk
    |>.field "query" (.required string) (·.query)
    |>.field "limit" (.defaulted u64 defaultLimit) (·.limit)
    |>.field "deep_recall" (.defaulted boolean false) (·.deepRecall)
    |>.field "hybrid" (.defaulted boolean false) (·.hybrid)) (fun _ => rfl) (by decide)

end

/-! ## Handlers -/

structure Call (F : Type) where
  client : String
  user : String
  request : Request F

abbrev BridgeM (F α : Type) := Prog (Call F) (fun _ => Reply F) Rejection α

/-- What the bridge answers: a rejection of its own, or the response of the daemon. -/
abbrev HttpResponse (F : Type) := Except Rejection (Except HandlerError (ResponseData F))

def HttpResponse.status {F : Type} : HttpResponse F → ℕ
  | .error ⟨.badRequest, _⟩ => 400
  | .error ⟨.unauthorized, _⟩ => 401
  | .error ⟨.forbidden, _⟩ => 403
  | .error ⟨.internalServerError, _⟩ | .ok (.error _) => 500
  | .ok (.ok _) => 200

section
variable {F : Type}

def validating (token : String) (requiredScope : Scope) : BridgeM F (String × Scope) := do
  let reply ← Prog.call ⟨"cm-http-auth", "default", .diagnostics (.validateBridgeToken token (bridgeScope requiredScope))⟩
  Prog.ofExcept (validateDaemonToken (fun _ _ => reply) token requiredScope)

def authenticating (sha256 : List UInt8 → List UInt8) (state : AppState) (headers : Headers) (requiredScope : Scope) :
    BridgeM F (String × Scope) := do
  let _ ← Prog.ofExcept (checkHost headers state.allowedHosts)
  match headers.authorization with
  | none => .fail ⟨.unauthorized, "missing Authorization header"⟩
  | some auth =>
    match stripPrefix "Bearer " auth with
    | none => .fail ⟨.unauthorized, "expected Bearer token"⟩
    | some token =>
      match state.tokens.validate sha256 (utf8 token) with
      | some (uid, scope) =>
        if scope.allows requiredScope then pure (uid, scope) else .fail ⟨.forbidden, "token scope insufficient"⟩
      | none => validating token requiredScope

def daemonCall (call : Call F) : BridgeM F (Except HandlerError (ResponseData F)) := do
  let reply ← Prog.call call
  match reply with
  | .connect e => .fail ⟨.internalServerError, "connect: " ++ e⟩
  | .request e => .fail ⟨.internalServerError, "daemon: " ++ e⟩
  | .response r => pure r

variable [Field F] [LinearOrder F]

def memoryStore (sha256 : List UInt8 → List UInt8) (state : AppState) (headers : Headers) (body : StoreBody) :
    BridgeM F (Except HandlerError (ResponseData F)) := do
  let (userId, _) ← authenticating sha256 state headers .write
  daemonCall ⟨"cm-http", userId, .memory (.store
    ⟨userId, body.content, body.category, body.memoryType, body.metadata, body.importance.map Decimal.value⟩)⟩

def memorySearch (sha256 : List UInt8 → List UInt8) (state : AppState) (headers : Headers) (body : SearchBody) :
    BridgeM F (Except HandlerError (ResponseData F)) := do
  let (userId, _) ← authenticating sha256 state headers .read
  daemonCall ⟨"cm-http", userId, .memory (.search
    { userId := userId
      query := body.query
      limit := body.limit.toNat
      deepRecall := body.deepRecall
      hybrid := body.hybrid
      graphExpansionHops := 0
      bridgeDiscovery := false })⟩

/-- A POST request whose body is JSON. -/
structure HttpRequest where
  path : String
  headers : Headers
  body : Json

inductive Posted
  | store (body : StoreBody)
  | search (body : SearchBody)

def HttpRequest.posted (req : HttpRequest) : Option Posted :=
  match req.path with
  | "/memory/store" => (storeBody.codec.de req.body).map .store
  | "/memory/search" => (searchBody.codec.de req.body).map .search
  | _ => none

def router (sha256 : List UInt8 → List UInt8) (state : AppState) (headers : Headers) :
    Posted → BridgeM F (Except HandlerError (ResponseData F))
  | .store body => memoryStore sha256 state headers body
  | .search body => memorySearch sha256 state headers body

/-! ## In front of the daemon -/

/-- How a call fares: no connection, no reply although the daemon may have served it, or a reply. -/
inductive Fate
  | refused (e : String)
  | lost (e : String)
  | unheard (e : String)
  | heard

structure Link (F : Type) where
  world : World F
  fates : ℕ → Fate

variable [Elementary F]

def Link.ask (bm25 : Bm25 F) (app : CognitiveMemory.AppState F) (call : Call F) (s : Link F) : Reply F × Link F :=
  let (answer, world) := (handleRequest app call.request call.user).run (exec bm25) s.world
  let fates := fun n => s.fates (n + 1)
  match s.fates 0 with
  | .refused e => (.connect e, ⟨s.world, fates⟩)
  | .lost e => (.request e, ⟨s.world, fates⟩)
  | .unheard e => (.request e, ⟨world, fates⟩)
  | .heard => (.response answer, ⟨world, fates⟩)

/-- A request over HTTP with its response, `none` when no handler takes it; or one of another client. -/
abbrev Label (F : Type) := (HttpRequest × Option (HttpResponse F)) ⊕ Exchange F

/-- A bridge and the other clients of its daemon, one request after the other. -/
def bridging (sha256 : List UInt8 → List UInt8) (bm25 : Bm25 F) (app : CognitiveMemory.AppState F)
    (state : AppState) : Steps (Label F) (Link F)
  | .inl (req, response), s, s' => match req.posted with
    | none => response = none ∧ s' = s
    | some posted => ∃ r, response = some r ∧ (router sha256 state req.headers posted).run (Link.ask bm25 app) s = (r, s')
  | .inr exchange, s, s' => serving bm25 exchange s.world s'.world ∧ s'.fates = s.fates

/-! ## What it may do -/

/-- The notebooks, and the records of the tokens the daemon has minted. -/
structure Office where
  notebook : Notebook
  records : List BridgeTokenRow

def Link.office (s : Link F) : Office := ⟨s.world.db.notebook, s.world.db.bridgeTokens⟩

def Office.Admits (sha256 : List UInt8 → List UInt8) (app : CognitiveMemory.AppState F) (state : AppState) (o : Office)
    (headers : Headers) (required : Scope) (user : String) : Prop :=
  ∃ token scope, Presents state headers token ∧ scope.allows required = true ∧
    (state.tokens.validate sha256 (utf8 token) = some (user, scope) ∨ state.tokens.validate sha256 (utf8 token) = none ∧
      ∃ row ∈ o.records, row.key = bridgeTokenHash app token ∧ row.userId = user ∧ row.scope = bridgeScope scope)

def StoreBody.note (body : StoreBody) : Note := ⟨body.content, body.memoryType, body.metadata⟩

def Posts (admits : String → Prop) (note : Note) (b : Notebook) (response : HttpResponse F) (b' : Notebook) : Prop :=
  (b' = b ∨ ∃ user id, admits user ∧ b.Unused id ∧ b' = b.write user id note) ∧
    ∀ data, response = .ok (.ok data) →
      ∃ user id, admits user ∧ data = .memoryStored id ∧ b.Unused id ∧ b' = b.write user id note

def Shows (admits : String → Prop) (b : Notebook) (response : HttpResponse F) (b' : Notebook) : Prop :=
  b' = b ∧ ∀ data, response = .ok (.ok data) →
    ∃ user hits bridges, admits user ∧ data = .memorySearchResults hits bridges ∧ ∀ hit ∈ hits, hit.from b user

def Registers (req : Request F) (records records' : List BridgeTokenRow) : Prop :=
  ∃ rows, records' = records ++ rows ∧ ∀ row ∈ rows, ∃ ttl, req = .diagnostics (.mintBridgeToken row.userId row.scope ttl)

def office (sha256 : List UInt8 → List UInt8) (app : CognitiveMemory.AppState F) (state : AppState) : Steps (Label F) Office
  | .inl (req, response), o, o' => match req.posted with
    | none => response = none ∧ o' = o
    | some (.store body) => o'.records = o.records ∧ ∃ r, response = some r ∧
        Posts (o.Admits sha256 app state req.headers .write) body.note o.notebook r o'.notebook
    | some (.search _) => o'.records = o.records ∧ ∃ r, response = some r ∧
        Shows (o.Admits sha256 app state req.headers .read) o.notebook r o'.notebook
  | .inr exchange, o, o' => notes exchange o.notebook o'.notebook ∧ Registers exchange.1.request o.records o'.records

/-! ## What the daemon does for it -/

section
open Prog
variable {bm25 : Bm25 F} {w : World F}

omit [LinearOrder F] [Elementary F] in
theorem mints_of_writes {req : Request F} {row : BridgeTokenRow} (h : req.writes (.insertBridgeToken row)) :
    ∃ ttl, req = .diagnostics (.mintBridgeToken row.userId row.scope ttl) := by
  cases req with
  | diagnostics req =>
    cases req with
    | mintBridgeToken userId scope ttl =>
      obtain ⟨hu, hs⟩ := h
      exact ⟨ttl, by rw [hu, hs]⟩
    | _ => exact h.elim
  | memory req => cases req <;> first | exact h.elim | cases h
  | lifecycle req => cases req <;> first | exact h.elim | cases h
  | unknownBucket => exact h.elim

theorem ends_registers (t : Caller F) : (handleRequest t.app t.request t.user).ends (exec bm25)
    (fun _ w' => Registers t.request w.db.bridgeTokens w'.db.bridgeTokens) w := by
  refine (only_issued t.app t.request t.user).ends (J := fun w' : World F => Registers t.request w.db.bridgeTokens w'.db.bridgeTokens)
    (fun c w' hc hw' => ?_) ⟨[], (List.append_nil _).symm, nofun⟩
  obtain ⟨rows, hrows, hmints⟩ := hw'
  refine ⟨rows ++ c.stored (exec bm25 c w').1, by rw [exec_tokens, hrows, List.append_assoc], ?_⟩
  refine List.forall_mem_append.mpr ⟨hmints, ?_⟩
  unfold Cmd.stored
  split
  · exact List.forall_mem_singleton.mpr (mints_of_writes hc)
  · exact nofun

variable {app : CognitiveMemory.AppState F} {sha256 : List UInt8 → List UInt8} {state : AppState}
  {headers : Headers} {s : Link F}

theorem wp_hits {args : SearchMemoryArgs} {user : String} : (handleMemorySearch app args user).wp (exec bm25)
    (fun response _ => ∃ hits bridges, response = .memorySearchResults hits bridges) (fun _ => True) w := by
  refine wp_require fun _ => wp.seq wp_any fun _ _ _ => wp.seq wp_any fun _ _ _ => wp.seq wp_any fun _ _ _ => ?_
  exact wp.seq wp_any fun _ _ _ => wp.seq wp_any fun _ _ _ => wp.seq wp_any fun _ _ _ => ⟨_, _, rfl⟩

/-- A call that gets no response may have been served all the same. -/
theorem ends_asking (app : CognitiveMemory.AppState F) {call : Call F} {Q : Except Rejection (Reply F) → Link F → Prop}
    (hlost : ∀ reply s', (∀ r, reply ≠ .response r) → s'.world = s.world → Q (.ok reply) s')
    (hserved : (handleRequest app call.request call.user).ends (exec bm25)
      (fun answer w' => ∀ reply s', (∀ r, reply = .response r → r = answer) → s'.world = w' → Q (.ok reply) s') s.world) :
    (Prog.call call : BridgeM F (Reply F)).ends (Link.ask bm25 app) Q s := by
  have hrun := ends_run.mp hserved
  show Q (.ok (Link.ask bm25 app call s).1) (Link.ask bm25 app call s).2
  unfold Link.ask
  cases s.fates 0 with
  | refused e => exact hlost _ _ (fun _ h => by cases h) rfl
  | lost e => exact hlost _ _ (fun _ h => by cases h) rfl
  | unheard e => exact hrun _ _ (fun _ h => by cases h) rfl
  | heard => exact hrun _ _ (fun r hr => (Reply.response.inj hr).symm) rfl

theorem stripPrefix_some {pre s rest : String} (h : stripPrefix pre s = some rest) : s = pre ++ rest := by
  unfold stripPrefix at h
  split at h
  · rename_i hpre
    obtain ⟨tail, htail⟩ := List.isPrefixOf_iff_prefix.mp hpre
    obtain rfl := Option.some.inj h
    apply String.toList_injective
    rw [String.toList_append, String.toList_ofList, ← htail, List.drop_left]
  · cases h

omit [Field F] [LinearOrder F] [Elementary F] in
theorem Registers.same {req : Request F} {records records' : List BridgeTokenRow} (h : Registers req records records')
    (hmint : ∀ userId scope ttl, req ≠ .diagnostics (.mintBridgeToken userId scope ttl)) : records' = records := by
  obtain ⟨rows, rfl, hrows⟩ := h
  cases rows with
  | nil => exact List.append_nil _
  | cons row rows =>
    obtain ⟨ttl, hreq⟩ := hrows row List.mem_cons_self
    exact absurd hreq (hmint _ _ _)

theorem ends_served (bm25 : Bm25 F) (t : Caller F) (hk : w.db.Keyed) :
    (handleRequest t.app t.request t.user).ends (exec bm25) (fun answer w' =>
    w'.db.Keyed ∧ notes (t, answer) w.db.notebook w'.db.notebook ∧ Registers t.request w.db.bridgeTokens w'.db.bridgeTokens) w := by
  have htold := ends_run.mp (ends_request bm25 t ⟨hk, rfl⟩)
  exact ends_run.mpr ⟨htold.1, htold.2, ends_run.mp (ends_registers t)⟩

omit [Field F] [LinearOrder F] [Elementary F] in
theorem diagnosing_notes {app : CognitiveMemory.AppState F} {user : String} {req : DiagnosticsRequest}
    {answer : Except HandlerError (ResponseData F)} {b b' : Notebook} (h : notes (⟨app, user, .diagnostics req⟩, answer) b b') : b' = b := by
  cases answer with
  | ok response => exact h.1
  | error e => exact h

theorem ends_validating (hk : s.world.db.Keyed) {token : String} {required : Scope} :
    (validating token required : BridgeM F _).ends (Link.ask bm25 app) (fun answer s' => (s'.world.db.Keyed ∧ s'.office = s.office) ∧
      ∀ user scope, answer = .ok (user, scope) → scope.allows required = true ∧
        ∃ row ∈ s.office.records, row.key = bridgeTokenHash app token ∧ row.userId = user ∧ row.scope = bridgeScope scope) s := by
  unfold validating
  refine .seq (P := fun reply s' => (s'.world.db.Keyed ∧ s'.office = s.office) ∧ ∀ r, reply = .ok (.response r) →
    r = ((handleRequest app (.diagnostics (.validateBridgeToken token (bridgeScope required))) "default").run (exec bm25) s.world).1)
    (ends_asking app ?_ ?_) ?_ ?_
  · intro reply s' hreply hworld
    exact ⟨⟨hworld ▸ hk, congrArg (fun w => (⟨w.db.notebook, w.db.bridgeTokens⟩ : Office)) hworld⟩, fun r hr => absurd (Except.ok.inj hr) (hreply r)⟩
  · have hserved := ends_run.mp (ends_served bm25 (w := s.world)
      ⟨app, "default", .diagnostics (.validateBridgeToken token (bridgeScope required))⟩ hk)
    refine ends_run.mpr fun reply s' hreply hworld => ⟨⟨hworld ▸ hserved.1, ?_⟩, fun r hr => hreply r (Except.ok.inj hr)⟩
    have hnotes : s'.world.db.notebook = s.world.db.notebook := by
      rw [hworld]
      exact diagnosing_notes hserved.2.1
    have hrecords : s'.world.db.bridgeTokens = s.world.db.bridgeTokens := by
      rw [hworld]
      exact hserved.2.2.same fun _ _ _ h => by cases h
    exact congrArg₂ Office.mk hnotes hrecords
  · rintro reply s' ⟨hsame, hanswer⟩
    refine ends_ofExcept.mpr ⟨hsame, fun user scope hok => ?_⟩
    unfold validateDaemonToken at hok
    dsimp only at hok
    split at hok <;> cases hok
    rename_i scope expires
    have hvalid : Validates bm25 app s.world token (bridgeScope required) user scope := ⟨"default", expires, (hanswer _ rfl).symm⟩
    obtain ⟨-, row, hfound, -, hallows, rfl, rfl⟩ := validates_iff.mp hvalid
    have hscope : bridgeScope (scopeFromBridge row.scope) = row.scope := by cases row.scope <;> rfl
    refine ⟨?_, row, List.mem_of_find?_eq_some hfound, by simpa using List.find?_some hfound, rfl, hscope.symm⟩
    rw [← bridgeScopeAllows_bridgeScope, hscope, hallows]
  · rintro e s' ⟨hsame, -⟩
    exact ⟨hsame, fun _ _ h => by cases h⟩

theorem ends_authenticating (app : CognitiveMemory.AppState F) (hk : s.world.db.Keyed) {required : Scope} :
    (authenticating sha256 state headers required : BridgeM F _).ends (Link.ask bm25 app) (fun answer s' =>
      (s'.world.db.Keyed ∧ s'.office = s.office) ∧
        ∀ user scope, answer = .ok (user, scope) → s.office.Admits sha256 app state headers required user) s := by
  have hfail {r : Rejection} : (fail r : BridgeM F (String × Scope)).ends (Link.ask bm25 app) (fun answer s' =>
      (s'.world.db.Keyed ∧ s'.office = s.office) ∧
        ∀ user scope, answer = .ok (user, scope) → s.office.Admits sha256 app state headers required user) s :=
    ⟨⟨hk, rfl⟩, fun _ _ h => by cases h⟩
  unfold authenticating
  cases hhost : checkHost headers state.allowedHosts with
  | error r => exact hfail
  | ok a =>
    show (match headers.authorization with | none => _ | some auth => _ : BridgeM F _).ends _ _ _
    cases hauth : headers.authorization with
    | none => exact hfail
    | some auth =>
      dsimp only
      cases hbearer : stripPrefix "Bearer " auth with
      | none => exact hfail
      | some token =>
        have hpresents : Presents state headers token := ⟨hhost, by rw [hauth, stripPrefix_some hbearer]⟩
        dsimp only
        cases hheld : state.tokens.validate sha256 (utf8 token) with
        | some p =>
          obtain ⟨uid, scope⟩ := p
          dsimp only
          split
          · rename_i hallows
            refine ⟨⟨hk, rfl⟩, fun user scope' h => ?_⟩
            cases h
            exact ⟨token, scope, hpresents, hallows, .inl hheld⟩
          · exact hfail
        | none =>
          refine (ends_validating hk).imp fun answer s' h => ⟨h.1, fun user scope hok => ?_⟩
          obtain ⟨hallows, hrow⟩ := h.2 user scope hok
          exact ⟨token, scope, hpresents, hallows, .inr ⟨hheld, hrow⟩⟩

theorem ends_calling (call : Call F) (hk : s.world.db.Keyed)
    (hrecords : ∀ userId scope ttl, call.request ≠ .diagnostics (.mintBridgeToken userId scope ttl)) :
    (daemonCall call).ends (Link.ask bm25 app) (fun response s' => s'.world.db.Keyed ∧ s'.office.records = s.office.records ∧
      ((∀ data, response ≠ .ok data) ∧ s'.office.notebook = s.office.notebook ∨
        ∃ answer, ((handleRequest app call.request call.user).run (exec bm25) s.world).1 = answer ∧
          notes (⟨app, call.user, call.request⟩, answer) s.office.notebook s'.office.notebook ∧
          ∀ r, response = .ok r → r = answer)) s := by
  unfold daemonCall
  let served := (handleRequest app call.request call.user).run (exec bm25) s.world
  have hserved : served.2.db.Keyed ∧ notes (⟨app, call.user, call.request⟩, served.1) s.office.notebook served.2.db.notebook ∧
      Registers call.request s.office.records served.2.db.bridgeTokens := ends_run.mp (ends_served bm25 ⟨app, call.user, call.request⟩ hk)
  refine .seq (P := fun answer s' => ∃ reply, answer = .ok reply ∧ ((s'.world = s.world ∧ ∀ r, reply ≠ .response r) ∨
    s'.world = served.2 ∧ ∀ r, reply = .response r → r = served.1)) (ends_asking app ?_ ?_) ?_ ?_
  · exact fun reply s' hreply hworld => ⟨reply, rfl, .inl ⟨hworld, hreply⟩⟩
  · exact ends_run.mpr fun reply s' hreply hworld => ⟨reply, rfl, .inr ⟨hworld, hreply⟩⟩
  · rintro reply s' ⟨_, hok, hfate⟩
    cases hok
    obtain ⟨hworld, hreply⟩ | ⟨hworld, hreply⟩ := hfate
    · have hlost : s'.world.db.Keyed ∧ s'.office.records = s.office.records ∧ s'.office.notebook = s.office.notebook := by
        unfold Link.office
        rw [hworld]
        exact ⟨hk, rfl, rfl⟩
      cases reply with
      | response r => exact absurd rfl (hreply r)
      | connect | request => exact ⟨hlost.1, hlost.2.1, .inl ⟨fun _ h => (by cases h), hlost.2.2⟩⟩
    · have hsame : s'.world.db.Keyed ∧ s'.office.records = s.office.records ∧
          notes (⟨app, call.user, call.request⟩, served.1) s.office.notebook s'.office.notebook := by
        rw [show s'.office = ⟨served.2.db.notebook, served.2.db.bridgeTokens⟩ from hworld ▸ rfl, hworld]
        exact ⟨hserved.1, hserved.2.2.same hrecords, hserved.2.1⟩
      cases reply with
      | response r =>
        cases hreply r rfl
        exact ⟨hsame.1, hsame.2.1, .inr ⟨served.1, rfl, hsame.2.2, fun r h => (Except.ok.inj h).symm⟩⟩
      | connect | request => exact ⟨hsame.1, hsame.2.1, .inr ⟨served.1, rfl, hsame.2.2, fun _ h => by cases h⟩⟩
  · rintro e s' ⟨_, h, -⟩
    cases h

theorem ends_posting (hk : s.world.db.Keyed) {body : StoreBody} :
    (memoryStore sha256 state headers body).ends (Link.ask bm25 app)
    (fun r s' => s'.world.db.Keyed ∧ s'.office.records = s.office.records ∧
      Posts (s.office.Admits sha256 app state headers .write) body.note s.office.notebook r s'.office.notebook) s := by
  refine .seq (ends_authenticating app hk) ?_ ?_
  · rintro ⟨user, scope⟩ s₁ ⟨⟨hk₁, hsame⟩, hadmits⟩
    have hadmits := hadmits user scope rfl
    refine (ends_calling _ hk₁ fun _ _ _ h => by cases h).imp ?_
    rintro r s' ⟨hk', hrecords, h⟩
    rw [hsame] at hrecords h
    refine ⟨hk', hrecords, ?_⟩
    obtain ⟨hlost, hnotes⟩ | ⟨answer, -, hnotes, hr⟩ := h
    · exact ⟨.inl hnotes, fun data hdata => absurd hdata (hlost _)⟩
    · cases answer with
      | ok data =>
        obtain ⟨-, id, rfl, hunused, hwrite⟩ := hnotes
        refine ⟨.inr ⟨user, id, hadmits, hunused, hwrite⟩, fun data' hdata => ?_⟩
        cases hr _ hdata
        exact ⟨user, id, hadmits, rfl, hunused, hwrite⟩
      | error e =>
        refine ⟨?_, fun data hdata => ?_⟩
        · obtain hnotes | ⟨-, id, hunused, hwrite⟩ := hnotes
          · exact .inl hnotes
          · exact .inr ⟨user, id, hadmits, hunused, hwrite⟩
        · cases hr _ hdata
  · rintro e s₁ ⟨⟨hk₁, hsame⟩, -⟩
    rw [hsame]
    exact ⟨hk₁, rfl, .inl rfl, fun _ h => by cases h⟩

theorem ends_searching (hk : s.world.db.Keyed) {body : SearchBody} :
    (memorySearch sha256 state headers body).ends (Link.ask bm25 app)
    (fun r s' => s'.world.db.Keyed ∧ s'.office.records = s.office.records ∧
      Shows (s.office.Admits sha256 app state headers .read) s.office.notebook r s'.office.notebook) s := by
  refine .seq (ends_authenticating app hk) ?_ ?_
  · rintro ⟨user, scope⟩ s₁ ⟨⟨hk₁, hsame⟩, hadmits⟩
    have hadmits := hadmits user scope rfl
    refine (ends_calling _ hk₁ fun _ _ _ h => by cases h).imp ?_
    rintro r s' ⟨hk', hrecords, h⟩
    rw [hsame] at hrecords h
    refine ⟨hk', hrecords, ?_⟩
    obtain ⟨hlost, hnotes⟩ | ⟨answer, hanswer, hnotes, hr⟩ := h
    · exact ⟨hnotes, fun data hdata => absurd hdata (hlost _)⟩
    · cases answer with
      | ok data =>
        obtain ⟨hnotes, hfrom⟩ := hnotes
        refine ⟨hnotes, fun data' hdata => ?_⟩
        cases hr _ hdata
        obtain ⟨hits, bridges, rfl⟩ := (wp_run.mp wp_hits).1 data _ (Prod.ext hanswer rfl)
        exact ⟨user, hits, bridges, hadmits, rfl, hfrom⟩
      | error e =>
        refine ⟨hnotes, fun data hdata => ?_⟩
        cases hr _ hdata
  · rintro e s₁ ⟨⟨hk₁, hsame⟩, -⟩
    rw [hsame]
    exact ⟨hk₁, rfl, rfl, fun _ h => by cases h⟩

theorem bridging_refines (sha256 : List UInt8 → List UInt8) (bm25 : Bm25 F) (app : CognitiveMemory.AppState F)
    (state : AppState) :
    (bridging sha256 bm25 app state).Refines (office sha256 app state) (fun s => s.world.db.Keyed) Link.office := by
  have hstep : ∀ (l : Label F) (s s' : Link F), s.world.db.Keyed → bridging sha256 bm25 app state l s s' →
      s'.world.db.Keyed ∧ office sha256 app state l s.office s'.office := by
    rintro (⟨req, response⟩ | exchange) s s' hk h
    · unfold bridging at h
      unfold office
      dsimp only at h ⊢
      cases hposted : req.posted with
      | none =>
        rw [hposted] at h
        obtain ⟨hresponse, rfl⟩ := h
        exact ⟨hk, hresponse, rfl⟩
      | some posted =>
        rw [hposted] at h
        obtain ⟨r, hresponse, hrun⟩ := h
        cases posted with
        | store body =>
          have hends := ends_run.mp (show (memoryStore sha256 state req.headers body).ends (Link.ask bm25 app) _ s from ends_posting hk)
          rw [show (memoryStore sha256 state req.headers body).run _ s = (r, s') from hrun] at hends
          exact ⟨hends.1, hends.2.1, r, hresponse, hends.2.2⟩
        | search body =>
          have hends := ends_run.mp (show (memorySearch sha256 state req.headers body).ends (Link.ask bm25 app) _ s from ends_searching hk)
          rw [show (memorySearch sha256 state req.headers body).run _ s = (r, s') from hrun] at hends
          exact ⟨hends.1, hends.2.1, r, hresponse, hends.2.2⟩
    · have hserved := ends_run.mp (ends_served bm25 exchange.1 hk)
      rw [show (handleRequest exchange.1.app exchange.1.request exchange.1.user).run (exec bm25) s.world =
        (exchange.2, s'.world) from h.1] at hserved
      exact hserved
  exact ⟨fun l s s' hk h => (hstep l s s' hk h).1, fun l s s' hk h => (hstep l s s' hk h).2⟩

end

/-- However the store came about: over HTTP a notebook gains no note but by a token of its user that
may write, loses none, and is told of by a token of its user alone. -/
theorem http_confined {sha256 : List UInt8 → List UInt8} {bm25 : Bm25 F} {app : CognitiveMemory.AppState F}
    {state : AppState}
    {w : World F} (h : Reachable bm25 anyCaller anyStep w) {fates : ℕ → Fate} {labels : List (Label F)} {s' : Link F}
    (hrun : (bridging sha256 bm25 app state).Run ⟨w, fates⟩ labels s') :
    (office sha256 app state).Run ⟨w.db.notebook, w.db.bridgeTokens⟩ labels s'.office :=
  (bridging_refines sha256 bm25 app state).run h.keyed hrun

end

/-! ### Tea over HTTP -/

def postOfTea : HttpRequest := ⟨"/memory/store", bearer, .obj [("content", .str "tea")]⟩

def teaPosted : Link ℚ := ((memoryStore id bridge bearer ⟨"tea", "semantic", "fact", "{}", none⟩).run
  (Link.ask Bm25.none .flat) ⟨World.quiet, fun _ => .heard⟩).2

/-- Alice posts her tea by the token the bridge holds, and Bob deletes nothing of hers. -/
theorem tea_over_http : ∃ o, (office id (F := ℚ) .flat bridge).Run ⟨World.quiet.db.notebook, []⟩
    [.inl (postOfTea, some (.ok (.ok (.memoryStored "mem_")))), .inr (drops "bob" "mem_", .ok (.affected 0))] o := by
  let gone := (handleRequest .flat (drops "bob" "mem_").request "bob").run (exec Bm25.none) teaPosted.world
  have hposted : bridging id Bm25.none .flat bridge (.inl (postOfTea, some (.ok (.ok (.memoryStored "mem_")))))
      ⟨World.quiet, fun _ => .heard⟩ teaPosted := ⟨_, rfl, rfl⟩
  have hdropped : bridging id Bm25.none .flat bridge (.inr (drops "bob" "mem_", .ok (.affected 0))) teaPosted
      ⟨gone.2, teaPosted.fates⟩ := ⟨rfl, rfl⟩
  exact ⟨_, http_confined quiet_start.reachable (.cons hposted (.cons hdropped (.nil _)))⟩

end CognitiveMemory.HttpBridge
