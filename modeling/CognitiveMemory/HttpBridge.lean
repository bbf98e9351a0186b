import CognitiveMemory.Daemon.BridgeTokens

/-! The HTTP bridge: the bearer tokens it holds in memory, the one it has the daemon mint when it
starts, and the two validators behind `authenticate`. -/

namespace CognitiveMemory.HttpBridge

inductive Scope
  | read
  | write
  | admin
  deriving DecidableEq

def Scope.allows : Scope → Scope → Bool
  | .admin, _ => true
  | .write, .read | .write, .write => true
  | .read, .read => true
  | _, _ => false

def bridgeScope : Scope → BridgeScope
  | .read => .read
  | .write => .write
  | .admin => .admin

def scopeFromBridge : BridgeScope → Scope
  | .read => .read
  | .write => .write
  | .admin => .admin

@[simp] theorem scopeFromBridge_bridgeScope (s : Scope) : scopeFromBridge (bridgeScope s) = s := by cases s <;> rfl

theorem bridgeScope_injective : Function.Injective bridgeScope := Function.LeftInverse.injective scopeFromBridge_bridgeScope

theorem bridgeScopeAllows_bridgeScope (actual required : Scope) :
    bridgeScopeAllows (bridgeScope actual) (bridgeScope required) = actual.allows required := by
  cases actual <;> cases required <;> rfl

/-! ## The store in memory -/

structure TokenInfo where
  userId : String
  scope : Scope

/-- The map by salted hash; no hash comes twice. -/
structure TokenStore where
  inner : List (List UInt8 × TokenInfo)
  salt : List UInt8
  distinct : (inner.map Prod.fst).Nodup

section
variable (sha256 : List UInt8 → List UInt8)

def TokenStore.new (salt : List UInt8) : TokenStore := ⟨[], salt, List.nodup_nil⟩

def TokenStore.hash (s : TokenStore) (raw : List UInt8) : List UInt8 := sha256 (s.salt ++ raw)

/-- A token that is minted again replaces what its hash stood for. -/
def TokenStore.mint (s : TokenStore) (rawToken : List UInt8) (userId : String) (scope : Scope) : TokenStore where
  inner := (s.hash sha256 rawToken, ⟨userId, scope⟩) :: s.inner.filter (·.1 != s.hash sha256 rawToken)
  salt := s.salt
  distinct := by
    refine List.nodup_cons.mpr ⟨fun hmem => ?_, s.distinct.sublist (List.filter_sublist.map Prod.fst)⟩
    obtain ⟨e, he, heq⟩ := List.mem_map.mp hmem
    simpa [heq] using (List.mem_filter.mp he).2

def TokenStore.validate (s : TokenStore) (rawToken : List UInt8) : Option (String × Scope) :=
  (s.inner.find? (·.1 == s.hash sha256 rawToken)).map fun e => (e.2.userId, e.2.scope)

/-! ## Requests -/

/-- What a request carries; a header that is not visible ASCII reads like none. -/
structure Headers where
  host : Option String
  authorization : Option String

structure AppState where
  tokens : TokenStore
  allowedHosts : List String

inductive StatusCode
  | badRequest
  | unauthorized
  | forbidden
  | internalServerError
  deriving DecidableEq

structure Rejection where
  status : StatusCode
  error : String
  deriving DecidableEq

def stripPrefix (pre s : String) : Option String :=
  if pre.toList.isPrefixOf s.toList then some (String.ofList (s.toList.drop pre.toList.length)) else none

theorem stripPrefix_append (pre s : String) : stripPrefix pre (pre ++ s) = some s := by
  simp [stripPrefix]

def isDefaultLoopbackHost (host : String) : Bool :=
  ["localhost", "127.0.0.1", "[::1]"].any fun name => host == name || (name ++ ":").toList.isPrefixOf host.toList

def checkHost (headers : Headers) (allowedHosts : List String) : Except Rejection Unit :=
  match headers.host with
  | none => .error ⟨.badRequest, "missing Host header"⟩
  | some host =>
    if isDefaultLoopbackHost host || allowedHosts.contains host then .ok () else .error ⟨.forbidden, "Host header not allowed"⟩

variable {F : Type}

inductive Reply (F : Type)
  | connect (e : String)
  | request (e : String)
  | response (r : Except HandlerError (ResponseData F))

/-- Connections are opened for a user. -/
abbrev Daemon (F : Type) := String → DiagnosticsRequest → Reply F

def validateDaemonToken (ask : Daemon F) (token : String) (requiredScope : Scope) : Except Rejection (String × Scope) :=
  match ask "default" (.validateBridgeToken token (bridgeScope requiredScope)) with
  | .connect e => .error ⟨.internalServerError, "connect: " ++ e⟩
  | .request e => .error ⟨.internalServerError, "daemon: " ++ e⟩
  | .response (.error _) => .error ⟨.unauthorized, "invalid token"⟩
  | .response (.ok (.bridgeTokenValidated userId scope _)) => .ok (userId, scopeFromBridge scope)
  | .response (.ok _) => .error ⟨.internalServerError, "unexpected daemon token response"⟩

def authenticate (state : AppState) (ask : Daemon F) (headers : Headers) (requiredScope : Scope) :
    Except Rejection (String × Scope) := do
  checkHost headers state.allowedHosts
  match headers.authorization with
  | none => .error ⟨.unauthorized, "missing Authorization header"⟩
  | some auth =>
    match stripPrefix "Bearer " auth with
    | none => .error ⟨.unauthorized, "expected Bearer token"⟩
    | some token =>
      match state.tokens.validate sha256 (utf8 token) with
      | some (uid, scope) =>
        if scope.allows requiredScope then .ok (uid, scope) else .error ⟨.forbidden, "token scope insufficient"⟩
      | none => validateDaemonToken ask token requiredScope

/-! ## Starting -/

def parseScope (s : String) : Scope :=
  if s = "read" then .read else if s = "admin" then .admin else .write

/-- `main` up to its token store. The token the daemon mints is of thirty days, and is written to a
file before it is registered. -/
def startup (env : String → Option String) (ask : Daemon F) (writeStartupTokenFile : String → Scope → String → ℤ →
    Except String Unit) :
    Except String TokenStore := do
  let salt := (env "COGNITIVE_MEMORY_HTTP_SALT").getD "cm-http-default-salt-change-me"
  let tokens := TokenStore.new (utf8 salt)
  match env "COGNITIVE_MEMORY_HTTP_MINT_USER" with
  | some mintUser =>
    let scope := parseScope ((env "COGNITIVE_MEMORY_HTTP_MINT_SCOPE").getD "write")
    match ask mintUser (.mintBridgeToken mintUser (bridgeScope scope) (30 * 24 * 3600)) with
    | .connect e => .error e
    | .request e => .error e
    | .response (.error _) => .error "daemon refused to mint bridge token"
    | .response (.ok (.bridgeToken token expiresAtUnix)) => do
      writeStartupTokenFile mintUser scope token expiresAtUnix
      .ok (tokens.mint sha256 (utf8 token) mintUser scope)
    | .response (.ok _) => .error "unexpected response data"
  | none =>
    match env "COGNITIVE_MEMORY_HTTP_BOOTSTRAP_TOKEN" with
    | some bootstrap =>
      let user := (env "COGNITIVE_MEMORY_HTTP_BOOTSTRAP_USER").getD "default"
      let scope := parseScope ((env "COGNITIVE_MEMORY_HTTP_BOOTSTRAP_SCOPE").getD "write")
      .ok (tokens.mint sha256 (utf8 bootstrap) user scope)
    | none => .ok tokens

/-! ## Tokens held -/

/-- The request comes to an allowed host and bears the token. -/
structure Presents (state : AppState) (headers : Headers) (token : String) : Prop where
  host : checkHost headers state.allowedHosts = .ok ()
  bearer : headers.authorization = some ("Bearer " ++ token)

section
variable {sha256 : List UInt8 → List UInt8}

theorem validate_new (salt raw : List UInt8) : (TokenStore.new salt).validate sha256 raw = none := rfl

theorem validate_mint (hsha : Function.Injective sha256) (s : TokenStore) (minted raw : List UInt8) (userId : String)
    (scope : Scope) :
    (s.mint sha256 minted userId scope).validate sha256 raw = if raw =
      minted then some (userId, scope) else s.validate sha256 raw := by
  have hash_eq : s.hash sha256 minted = s.hash sha256 raw ↔ raw = minted := by
    refine ⟨fun h => ?_, fun h => by rw [h]⟩
    simpa using (hsha h).symm
  show (((s.hash sha256 minted, _) :: s.inner.filter _).find? fun e => e.1 == s.hash sha256 raw).map _ = _
  by_cases h : raw = minted
  · subst h
    simp
  · have hne : s.hash sha256 minted ≠ s.hash sha256 raw := fun heq => h (hash_eq.mp heq)
    have hskip : (fun e : List UInt8 × TokenInfo =>
        decide ((e.1 != s.hash sha256 minted) = true ∧ (e.1 == s.hash sha256 raw) = true)) =
        fun e => e.1 == s.hash sha256 raw := by
      funext e
      by_cases he : e.1 = s.hash sha256 raw
      · simpa [he] using hne.symm
      · simp [he]
    rw [if_neg h, List.find?_cons_of_neg (by simpa using hne), List.find?_filter]
    rw [hskip]
    rfl

theorem authenticate_held {F : Type} {state : AppState} {ask : Daemon F} {headers : Headers} {token userId : String}
    {scope : Scope}
    (hp : Presents state headers token) (hheld : state.tokens.validate sha256 (utf8 token) = some (userId, scope))
      (required : Scope) :
    authenticate sha256 state ask headers required =
      if scope.allows required then .ok (userId, scope) else .error ⟨.forbidden, "token scope insufficient"⟩ := by
  unfold authenticate
  rw [hp.host, hp.bearer]
  simp only [stripPrefix_append, hheld]
  rfl

/-- A bridge that starts for a user holds the token the daemon has minted for it, and no other. -/
theorem startup_holds (hsha : Function.Injective sha256) {F : Type} {env : String → Option String} {ask : Daemon F}
    {file : String → Scope → String → ℤ → Except String Unit} {tokens : TokenStore} {mintUser : String}
    (henv : env "COGNITIVE_MEMORY_HTTP_MINT_USER" = some mintUser) (h : startup sha256 env ask file = .ok tokens) :
    ∃ scope token expires, ask mintUser (.mintBridgeToken mintUser (bridgeScope scope) (30 * 24 * 3600)) =
        .response (.ok (.bridgeToken token expires)) ∧
      ∀ raw, tokens.validate sha256 raw = if raw = utf8 token then some (mintUser, scope) else none := by
  simp only [startup, henv] at h
  split at h
  · cases h
  · cases h
  · cases h
  · rename_i token expires hask
    cases hfile : file mintUser (parseScope ((env "COGNITIVE_MEMORY_HTTP_MINT_SCOPE").getD "write")) token expires with
    | error e =>
      rw [hfile] at h
      cases h
    | ok =>
      rw [hfile] at h
      cases h
      refine ⟨_, token, expires, hask, fun raw => ?_⟩
      rw [validate_mint hsha, validate_new]
  · cases h

variable {F : Type} [Field F] [LinearOrder F] [Elementary F]

/-- The replies are answers of a daemon that has come this far. -/
def RepliesOf (p : Requests F) (ask : Daemon F) : Prop :=
  ∀ user req data, ask user req = .response (.ok data) → ∃ (i : ℕ) (t : Caller F),
    p.tasks[i]? = some (t, .pure data) ∧ t.user = user ∧ t.request = .diagnostics req

/-- The bridge takes a request that bears the token when the daemon would validate it, and as the same. -/
def Agree (sha256 : List UInt8 → List UInt8) (bm25 : Bm25 F) (app : CognitiveMemory.AppState F) (state : AppState)
    (ask : Daemon F) (headers : Headers) (w : World F) (token : String) (required : Scope) : Prop :=
  ∀ userId scope, authenticate sha256 state ask headers required = .ok (userId, scope) ↔
    Validates bm25 app w token (bridgeScope required) userId (bridgeScope scope)

/-- The two validators agree on a token that the bridge has had minted up to its expiry, and where
its scope does not do. Afterwards only the daemon rejects it. -/
theorem validators_agree_iff (hsha : Function.Injective sha256) (bm25 : Bm25 F) {w : World F} (hw : w.db = .empty)
    {ts : List (Caller F)} (hts : ∀ t ∈ ts, t.app.sha256 = sha256 ∘ utf8) {app : CognitiveMemory.AppState F}
    (happ : app.sha256 = sha256 ∘ utf8) (schedule : List ℕ) (env : String → Option String) {ask : Daemon F}
    (hask : RepliesOf ((accepted w ts).play (exec bm25) schedule) ask) {file : String → Scope → String → ℤ → Except String Unit}
    {mintUser : String} (henv : env "COGNITIVE_MEMORY_HTTP_MINT_USER" = some mintUser) (state : AppState)
    (hstart : startup sha256 env ask file = .ok state.tokens) (token : String)
      (hheld : (state.tokens.validate sha256 (utf8 token)).isSome) :
    ∃ scope expires, ask mintUser (.mintBridgeToken mintUser (bridgeScope scope) (30 * 24 * 3600)) =
        .response (.ok (.bridgeToken token expires)) ∧
      ∀ headers, Presents state headers token → ∀ required (ask' : Daemon F) (o : Oracle), o.sqlFault 0 = false →
        (Agree sha256 bm25 app state ask' headers { ((accepted w ts).play (exec bm25) schedule).state with oracle :=
          o } token required ↔
          o.clock 0 < expires ∨ scope.allows required = false) := by
  have hminting : Minting (sha256 ∘ utf8) ts ((accepted w ts).play (exec bm25) schedule) := minting_play hw ts schedule
  obtain ⟨scope, minted, expires, hmint, hholds⟩ := startup_holds hsha henv hstart
  -- the bridge holds one token, by its hash
  have htoken : token = minted := by
    rw [hholds] at hheld
    by_contra hne
    rw [if_neg fun heq => hne (utf8_injective heq)] at hheld
    cases hheld
  subst htoken
  obtain ⟨i, t, htask, -, hreq⟩ := hask _ _ _ hmint
  obtain ⟨now, hminted, hexpires⟩ := hminting.answered htask hreq
  refine ⟨scope, expires, hmint, fun headers hp required ask' o hf => ?_⟩
  have hlocal : authenticate sha256 _ ask' headers required =
      if scope.allows required then .ok (mintUser, scope) else .error ⟨.forbidden, "token scope insufficient"⟩ :=
    authenticate_held hp ((hholds _).trans (if_pos rfl)) required
  have hremote : ∀ userId scope', Validates bm25 app { ((accepted w ts).play (exec bm25) schedule).state with oracle := o } token
      (bridgeScope required) userId (bridgeScope scope') ↔
        o.clock 0 < expires ∧ scope.allows required = true ∧ userId = mintUser ∧ scope' = scope := by
    intro userId scope'
    rw [hminting.validates_iff hts happ hminted hf, ← hexpires, bridgeScopeAllows_bridgeScope, bridgeScope_injective.eq_iff]
  -- the bridge checks the scope alone, the daemon the expiry too
  cases hallows : scope.allows required with
  | true =>
    rw [hallows, if_pos rfl] at hlocal
    constructor
    · intro hagree
      have hvalid := (hremote mintUser scope).mp ((hagree mintUser scope).mp hlocal)
      exact .inl hvalid.1
    · intro hlive userId scope'
      rw [hlocal, hremote, hallows]
      have hbefore : o.clock 0 < expires := hlive.resolve_right (by simp)
      constructor
      · intro heq
        cases heq
        exact ⟨hbefore, rfl, rfl, rfl⟩
      · rintro ⟨-, -, rfl, rfl⟩
        rfl
  | false =>
    rw [hallows, if_neg (by simp)] at hlocal
    refine ⟨fun _ => .inr rfl, fun _ userId scope' => ?_⟩
    rw [hlocal, hremote, hallows]
    simp

/-! ### Thirty days -/

def mintsOnce : Daemon ℚ
  | "alice", .mintBridgeToken "alice" .write 2592000 => .response (.ok (.bridgeToken "cmb_" 2592000))
  | _, _ => .connect "connection refused"

theorem repliesOf_mintsOnce : RepliesOf (afterMint 2592000) mintsOnce := by
  intro user req data h
  unfold mintsOnce at h
  split at h
  · cases h
    exact ⟨0, mintRequest 2592000, rfl, rfl, rfl⟩
  · cases h

def mintUserEnv (name : String) : Option String := if name = "COGNITIVE_MEMORY_HTTP_MINT_USER" then some "alice" else none

def bridge : AppState := ⟨(TokenStore.new (utf8 "cm-http-default-salt-change-me")).mint id (utf8 "cmb_") "alice" .write, []⟩

theorem startup_bridge : startup id mintUserEnv mintsOnce (fun _ _ _ _ => .ok ()) = .ok bridge.tokens := rfl

def bearer : Headers := ⟨some "localhost", some "Bearer cmb_"⟩

theorem agree_until_expiry :
    Agree id Bm25.none .taster bridge mintsOnce bearer { (afterMint 2592000).state with oracle := .at 2591999 } "cmb_" .read ∧
      ¬ Agree id Bm25.none .taster bridge mintsOnce bearer { (afterMint 2592000).state with oracle := .at 2592000 }
        "cmb_" .read := by
  have happ : AppState.taster.sha256 = id ∘ utf8 := rfl
  obtain ⟨scope, expires, hmint, hagree⟩ := validators_agree_iff Function.injective_id Bm25.none (w := World.quiet) rfl
    (List.forall_mem_singleton.mpr rfl) happ [0, 0, 0, 0] mintUserEnv repliesOf_mintsOnce rfl bridge startup_bridge
      "cmb_" (by decide)
  have hexpires : expires = 2592000 := by
    cases scope <;> cases hmint
    rfl
  have hscope : scope = .write := by
    cases scope <;> cases hmint
    rfl
  subst hexpires hscope
  have hpresents : Presents bridge bearer "cmb_" := ⟨rfl, rfl⟩
  refine ⟨(hagree bearer hpresents .read mintsOnce (.at 2591999) rfl).mpr (by decide), fun hlate => ?_⟩
  exact absurd ((hagree bearer hpresents .read mintsOnce (.at 2592000) rfl).mp hlate) (by decide)

/-- After thirty days the bridge still takes the token that the daemon rejects. -/
theorem accepted_when_expired : ¬ ∀ (ts : List (Caller ℚ)) (schedule : List ℕ) (env : String → Option String)
    (ask : Daemon ℚ)
    (mintUser : String) (state : AppState) (token : String) (headers : Headers) (required : Scope) (o : Oracle),
    (∀ t ∈ ts, t.app.sha256 = utf8) → RepliesOf ((accepted World.quiet ts).play (exec Bm25.none) schedule) ask →
    env "COGNITIVE_MEMORY_HTTP_MINT_USER" = some mintUser → startup id env ask (fun _ _ _ _ => .ok ()) = .ok state.tokens →
    (state.tokens.validate id (utf8 token)).isSome → Presents state headers token → o.sqlFault 0 = false →
    Agree id Bm25.none .taster state ask headers
      { ((accepted World.quiet ts).play (exec Bm25.none) schedule).state with oracle := o } token required := by
  intro h
  have hagree := h [mintRequest 2592000] [0, 0, 0, 0] mintUserEnv mintsOnce "alice" bridge "cmb_" bearer .read (.at 2592000)
    (List.forall_mem_singleton.mpr rfl) repliesOf_mintsOnce rfl startup_bridge (by decide) ⟨rfl, rfl⟩ rfl
  obtain ⟨-, row, hfound, hlive, -⟩ := validates_iff.mp ((hagree "alice" .write).mp rfl)
  have hrow : row ∈ [(mintFor 2592000).row utf8 "cmb_"] := List.mem_of_find?_eq_some hfound
  rw [List.mem_singleton.mp hrow] at hlive
  exact absurd hlive (by decide)

end

end
end CognitiveMemory.HttpBridge
