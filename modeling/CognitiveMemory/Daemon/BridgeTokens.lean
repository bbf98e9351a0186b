import CognitiveMemory.Daemon.Coherence
import CognitiveMemory.Daemon.Stream
import CognitiveMemory.Daemon.Writes

/-! Bridge tokens: what a MintBridgeToken leaves in `kv`, and when a ValidateBridgeToken accepts
it. The time to live is a `u64` that the mint casts to an `i64` before it adds it to the clock. -/

namespace CognitiveMemory
open Prog Server
variable {F : Type}

/-! ## The record of a token -/

def scopeStr : BridgeScope → String
  | .read => "read"
  | .write => "write"
  | .admin => "admin"

/-- The text of a record. The map of `serde_json` sorts its keys. -/
def recordText (row : BridgeTokenRow) : List UInt8 :=
  Json.toVec (.obj [("expires_at_unix", .int row.expiresAtUnix), ("scope", .str (scopeStr row.scope)),
    ("user_id", .str row.userId)])

def asI64 : Json → Option ℤ
  | .int n => if n < 2 ^ 63 then some n else none
  | _ => none

/-- What the validator makes of a record: a scope it does not know reads, and no expiry is the
epoch. -/
def readRecord (value : List UInt8) : Except HandlerError (String × BridgeScope × ℤ) :=
  match Json.fromSlice value with
  | none => .error (.invalidPayload "malformed bridge token record")
  | some value =>
    match (get? "user_id" value).bind asStr with
    | none => .error (.invalidPayload "bridge token missing user_id")
    | some userId =>
      let scope := match ((get? "scope" value).bind asStr).getD "read" with
        | "admin" => BridgeScope.admin
        | "write" => .write
        | _ => .read
      .ok (userId, scope, ((get? "expires_at_unix" value).bind asI64).getD 0)

theorem readRecord_recordText {row : BridgeTokenRow} (hlo : -2 ^ 63 ≤ row.expiresAtUnix) (hhi : row.expiresAtUnix < 2 ^ 63) :
    readRecord (recordText row) = .ok (row.userId, row.scope, row.expiresAtUnix) := by
  have hwithin : (Json.obj [("expires_at_unix", .int row.expiresAtUnix), ("scope", .str (scopeStr row.scope)),
      ("user_id", .str row.userId)]).Within 1 := by
    have hexpires : row.expiresAtUnix < 2 ^ 64 := by omega
    simpa [Json.Within] using ⟨hlo, hexpires⟩
  unfold readRecord recordText
  rw [Json.fromSlice_toVec hwithin]
  have hfits : row.expiresAtUnix < 9223372036854775808 := hhi
  cases hscope : row.scope <;> simp [get?, Json.Members.values, asStr, asI64, hfits, scopeStr]

/-! ## Minting -/

structure Mint where
  userId : String
  scope : BridgeScope
  ttlSeconds : ℕ
  now : ℤ

/-- The ranges of the types. -/
structure Mint.Fits (m : Mint) : Prop where
  ttl : m.ttlSeconds < 2 ^ 64
  past : -2 ^ 63 ≤ m.now
  future : m.now < 2 ^ 63

def Mint.expires (m : Mint) : ℤ := Int.bmod (m.now + Int.bmod m.ttlSeconds (2 ^ 64)) (2 ^ 64)

def Mint.row (sha256 : String → List UInt8) (m : Mint) (token : String) : BridgeTokenRow :=
  ⟨sha256 ("cm-daemon-bridge-token-salt" ++ token), m.userId, m.scope, m.expires⟩

theorem Mint.expires_eq (m : Mint) : m.expires = Int.bmod (m.now + m.ttlSeconds) (2 ^ 64) := by
  unfold expires
  simp

theorem Mint.expires_range (m : Mint) : -2 ^ 63 ≤ m.expires ∧ m.expires < 2 ^ 63 := by
  rw [m.expires_eq]
  have hlo := Int.le_bmod (x := m.now + m.ttlSeconds) (m := 2 ^ 64) (by decide)
  have hhi := Int.bmod_lt (x := m.now + m.ttlSeconds) (m := 2 ^ 64) (by decide)
  omega

/-- The sum stays an `i64`, or the token has expired when it is minted. -/
theorem Mint.expires_cases {m : Mint} (h : m.Fits) :
    m.now + m.ttlSeconds < 2 ^ 63 ∧ m.expires = m.now + m.ttlSeconds ∨ 2 ^ 63 ≤ m.now + m.ttlSeconds ∧ m.expires < m.now := by
  obtain ⟨httl, hpast, hfuture⟩ := h
  rw [m.expires_eq]
  by_cases hfits : m.now + m.ttlSeconds < 2 ^ 63
  · refine .inl ⟨hfits, Int.bmod_eq_of_le ?_ ?_⟩ <;> omega
  · refine .inr ⟨by omega, ?_⟩
    rw [← Int.sub_mul_bmod_self_right _ 1, Int.bmod_eq_of_le] <;> omega

/-- A MintBridgeToken that has stored a record has drawn the token, read the clock and answered. -/
theorem ran_mint {app : AppState F} {userId : String} {scope : BridgeScope} {ttlSeconds : ℕ} {h : Seen F}
    {p : HandlerM F (ResponseData F)} (hran : Ran (handleMintBridgeToken app userId scope ttlSeconds) h p) :
    (∀ e ∈ h, e.1.stored e.2 = []) ∧ (∀ token expires, p ≠ .pure (.bridgeToken token expires)) ∨
      ∃ token now u v, h = [⟨.write (.insertBridgeToken (Mint.row app.sha256 ⟨userId, scope, ttlSeconds, now⟩ token)), .ok ()⟩,
          ⟨.clock, now⟩, ⟨.uuid, v⟩, ⟨.uuid, u⟩] ∧
        p = .pure (.bridgeToken token (Mint.expires ⟨userId, scope, ttlSeconds, now⟩)) := by
  rcases ran_cmd hran with ⟨rfl, rfl⟩ | ⟨u, h₁, rfl, hran₁⟩
  · exact .inl ⟨by simp, nofun⟩
  rcases ran_cmd hran₁ with ⟨rfl, rfl⟩ | ⟨v, h₂, rfl, hran₂⟩
  · exact .inl ⟨by simp [Cmd.stored], nofun⟩
  rcases ran_cmd hran₂ with ⟨rfl, rfl⟩ | ⟨now, h₃, rfl, hran₃⟩
  · exact .inl ⟨by simp [Cmd.stored], nofun⟩
  rcases ran_cmd hran₃ with ⟨rfl, rfl⟩ | ⟨answer, h₄, rfl, hran₄⟩
  · exact .inl ⟨by simp [Cmd.stored], nofun⟩
  cases answer with
  | error e =>
    obtain ⟨rfl, rfl⟩ := ran_fail hran₄
    exact .inl ⟨by simp [Cmd.stored], nofun⟩
  | ok =>
    obtain ⟨rfl, rfl⟩ := ran_pure hran₄
    exact .inr ⟨"cmb_" ++ u ++ v, now, u, v, rfl, rfl⟩

/-! ## Runs -/

/-- A MintBridgeToken has answered with this token. -/
def Minted (p : Requests F) (token : String) (m : Mint) : Prop :=
  ∃ i t expires, p.tasks[i]? = some (t, .pure (.bridgeToken token expires)) ∧
    t.request = .diagnostics (.mintBridgeToken m.userId m.scope m.ttlSeconds) ∧ ⟨.clock, m.now⟩ ∈ Pool.seen p.log i

def recorded (log : List (Event (Cmd F) Cmd.Res)) :
    List BridgeTokenRow := log.reverse.flatMap fun e => e.command.stored e.answer

structure Minting [Field F] [LinearOrder F] [Elementary F] (sha256 : String → List UInt8) (ts : List (Caller F))
    (p : Requests F) : Prop where
  remembers : p.Remembers (ts.map fun t => (t, handleRequest t.app t.request t.user))
  table : p.state.db.bridgeTokens = recorded p.log
  keys : (p.state.db.bridgeTokens.map BridgeTokenRow.key).Nodup

theorem mem_stored {c : Cmd F} {r : c.Res} {row : BridgeTokenRow} (h : row ∈ c.stored r) :
    (⟨c, r⟩ : (c : Cmd F) × c.Res) = ⟨.write (.insertBridgeToken row), .ok ()⟩ := by
  cases c with
  | write w =>
    cases w with
    | insertBridgeToken row' =>
      cases r with
      | ok =>
        rw [List.mem_singleton.mp h]
      | error e => cases h
    | _ => cases h
  | _ => cases h

variable [Field F] [LinearOrder F]

theorem stored_fresh {bm25 : Bm25 F} {c : Cmd F} {w : World F} {row : BridgeTokenRow}
    (h : row ∈ c.stored (exec bm25 c w).1) :
    c.stored (exec bm25 c w).1 = [row] ∧ row.key ∉ w.db.bridgeTokens.map BridgeTokenRow.key := by
  have hc : c = .write (.insertBridgeToken row) := congrArg Sigma.fst (mem_stored h)
  subst hc
  simp only [exec, Write.apply] at h ⊢
  split_ifs at h ⊢ with hfault htaken
  · cases h
  · cases h
  · refine ⟨rfl, fun hkey => htaken ?_⟩
    obtain ⟨r, hr, heq⟩ := List.mem_map.mp hkey
    exact List.any_eq_true.mpr ⟨r, hr, beq_iff_eq.mpr heq⟩

variable [Elementary F]

theorem Minting.turn {sha256 : String → List UInt8} {ts : List (Caller F)} {p : Requests F}
    (h : Minting sha256 ts p) (bm25 : Bm25 F) {i : ℕ} {t : Caller F} {c : Cmd F} (hn : p.next? i = some (t, c)) :
    Minting sha256 ts (p.turn (exec bm25) i) := by
  have hremembers := h.remembers.turn (x := exec bm25) i
  obtain ⟨k, -, hturn⟩ := Pool.turn_some (x := exec bm25) hn
  rw [hturn] at hremembers ⊢
  have hgrown : (exec bm25 c p.state).2.db.bridgeTokens = p.state.db.bridgeTokens ++ c.stored (exec bm25 c p.state).1 :=
    exec_tokens bm25 c p.state
  refine ⟨hremembers, ?_, ?_⟩
  · show (exec bm25 c p.state).2.db.bridgeTokens = recorded (_ :: p.log)
    rw [hgrown, h.table, recorded, recorded, List.reverse_cons, List.flatMap_append]
    simp
  · show ((exec bm25 c p.state).2.db.bridgeTokens.map BridgeTokenRow.key).Nodup
    rw [hgrown]
    cases hstored : c.stored (exec bm25 c p.state).1 with
    | nil =>
      rw [List.append_nil]
      exact h.keys
    | cons row rows =>
      have hrow : row ∈ c.stored (exec bm25 c p.state).1 := by
        rw [hstored]
        exact List.mem_cons_self
      obtain ⟨hone, hfresh⟩ := stored_fresh hrow
      rw [← hstored, hone, List.map_append, List.nodup_append]
      refine ⟨h.keys, by simp, ?_⟩
      rintro key hkey key' hkey' rfl
      rw [List.map_singleton, List.mem_singleton] at hkey'
      exact hfresh (hkey' ▸ hkey)

section
variable {sha256 : String → List UInt8} {ts : List (Caller F)} {p : Requests F}

theorem ran_request {t : Caller F} {h : Seen F} {q : HandlerM F (ResponseData F)}
    (hran : Ran (handleRequest t.app t.request t.user) h q) {e : (c : Cmd F) × c.Res} (he : e ∈ h) {row : BridgeTokenRow}
    (hrow : row ∈ e.1.stored e.2) :
    ∃ userId scope ttlSeconds, t.request = .diagnostics (.mintBridgeToken userId scope ttlSeconds) := by
  have hissued := (only_issued t.app t.request t.user).ran hran |>.2 e he
  rw [show e = ⟨.write (.insertBridgeToken row), .ok ()⟩ from mem_stored hrow] at hissued
  exact writes_token hissued

theorem Minting.mem_iff (h : Minting sha256 ts p) (hts : ∀ t ∈ ts, t.app.sha256 = sha256) (row : BridgeTokenRow) :
    row ∈ p.state.db.bridgeTokens ↔ ∃ token m, Minted p token m ∧ row = m.row sha256 token := by
  have hstart : ∀ {i : ℕ} {t : Caller F} {p₀ : HandlerM F (ResponseData F)},
      (ts.map fun t => (t, handleRequest t.app t.request t.user))[i]? = some (t, p₀) →
        t.app.sha256 = sha256 ∧ p₀ = handleRequest t.app t.request t.user := by
    intro i t p₀ hi
    obtain ⟨t', ht', heq⟩ := List.mem_map.mp (List.mem_of_getElem? hi)
    cases heq
    exact ⟨hts t ht', rfl⟩
  rw [h.table, recorded, List.mem_flatMap]
  constructor
  · rintro ⟨e, he, hrow⟩
    rw [List.mem_reverse] at he
    -- only a MintBridgeToken inserts a row, and it is done right after
    obtain ⟨⟨t, q⟩, p₀, htask, hi, hran⟩ := h.remembers.author he
    obtain ⟨hsha, rfl⟩ := hstart hi
    obtain ⟨userId, scope, ttlSeconds, hreq⟩ := ran_request hran (Pool.mem_seen he) hrow
    rw [hreq] at hran
    rcases ran_mint hran with ⟨hnothing, -⟩ | ⟨token, now, u, v, hseen, rfl⟩
    · rw [hnothing _ (Pool.mem_seen he)] at hrow
      cases hrow
    · refine ⟨token, ⟨userId, scope, ttlSeconds, now⟩, ⟨e.task, t, _, htask, hreq, ?_⟩, ?_⟩
      · rw [hseen]
        simp
      · have hevent := Pool.mem_seen he
        rw [mem_stored hrow, hseen] at hevent
        rw [← hsha]
        simpa using hevent
  · rintro ⟨token, m, ⟨i, t, expires, htask, hreq, hclock⟩, rfl⟩
    -- a mint that is answered has stored its row before
    obtain ⟨p₀, hi, hran⟩ := h.remembers.ran i _ htask
    obtain ⟨hsha, rfl⟩ := hstart hi
    rw [hreq] at hran
    rcases ran_mint hran with ⟨-, hunfinished⟩ | ⟨token', now, u, v, hseen, hanswer⟩
    · exact absurd rfl (hunfinished token expires)
    · rw [hseen] at hclock
      obtain rfl : m.now = now := by simpa using hclock
      obtain rfl : token = token' := by
        cases hanswer
        rfl
      have hevent : (⟨.write (.insertBridgeToken (Mint.row t.app.sha256 m token)), .ok ()⟩ : (c : Cmd F) × c.Res) ∈
          Pool.seen p.log i := by
        rw [hseen]
        exact List.mem_cons_self
      obtain ⟨e, he, heq⟩ := List.mem_filterMap.mp hevent
      split at heq
      · refine ⟨e, List.mem_reverse.mpr he, ?_⟩
        obtain ⟨j, c, r⟩ := e
        cases heq
        rw [← hsha]
        exact List.mem_cons_self
      · cases heq

/-- The answer to a MintBridgeToken names the expiry of the record. -/
theorem Minting.answered (h : Minting sha256 ts p) {i : ℕ} {t : Caller F} {token userId : String} {scope : BridgeScope}
    {ttlSeconds : ℕ} {expires : ℤ} (htask : p.tasks[i]? = some (t, .pure (.bridgeToken token expires)))
    (hreq : t.request = .diagnostics (.mintBridgeToken userId scope ttlSeconds)) :
    ∃ now, Minted p token ⟨userId, scope, ttlSeconds, now⟩ ∧ expires = Mint.expires ⟨userId, scope, ttlSeconds, now⟩ := by
  obtain ⟨p₀, hi, hran⟩ := h.remembers.ran i _ htask
  obtain ⟨t', -, heq⟩ := List.mem_map.mp (List.mem_of_getElem? hi)
  cases heq
  rw [hreq] at hran
  rcases ran_mint hran with ⟨-, hunfinished⟩ | ⟨token', now, u, v, hseen, hanswer⟩
  · exact absurd rfl (hunfinished token expires)
  · cases hanswer
    refine ⟨now, ⟨i, t, _, htask, hreq, ?_⟩, rfl⟩
    rw [hseen]
    simp

theorem minting_play {bm25 : Bm25 F} {w : World F} (hw : w.db = .empty) (ts : List (Caller F)) (schedule : List ℕ) :
    Minting sha256 ts ((accepted w ts).play (exec bm25) schedule) := by
  refine Pool.play_invariant (fun p i t c hp hn => hp.turn bm25 hn) ⟨Pool.remembers_start w _, ?_, ?_⟩ schedule
  · show w.db.bridgeTokens = []
    rw [hw]
    rfl
  · show (w.db.bridgeTokens.map BridgeTokenRow.key).Nodup
    rw [hw]
    exact List.nodup_nil

/-! ## Validating -/

/-- A ValidateBridgeToken on this connection accepts the token for this user and scope. -/
def Validates (bm25 : Bm25 F) (app : AppState F) (w : World F) (token : String) (required : BridgeScope) (userId : String)
    (scope : BridgeScope) : Prop :=
  ∃ connection expires,
    ((handleRequest app (.diagnostics (.validateBridgeToken token required)) connection).run (exec bm25) w).1 =
    .ok (.bridgeTokenValidated userId scope expires)

/-- The record is looked up, its expiry compared with the clock, and its scope with the required one. -/
theorem validates_iff {bm25 : Bm25 F} {app : AppState F} {w : World F} {token userId : String}
    {required scope : BridgeScope} :
    Validates bm25 app w token required userId scope ↔ w.oracle.sqlFault 0 = false ∧
      ∃ row, w.db.bridgeTokens.find? (·.key == bridgeTokenHash app token) = some row ∧ w.oracle.clock 0 < row.expiresAtUnix ∧
        bridgeScopeAllows row.scope required = true ∧ userId = row.userId ∧ scope = row.scope := by
  show (∃ _ expires, ((handleValidateBridgeToken app token required).run (exec bm25) w).1 = _) ↔ _
  unfold handleValidateBridgeToken
  cases hf : w.oracle.sqlFault 0 with
  | true => simp [sqlx, run_bind, run_mapError, run_query_fault hf, Except.mapError]
  | false =>
    have hread : (query (.bridgeToken (bridgeTokenHash app token))).run (exec bm25) w =
        (.ok (w.db.bridgeTokens.find? (·.key == bridgeTokenHash app token)), w.answer w.db) := run_query hf rfl
    have hlookup : (sqlx (query (.bridgeToken (bridgeTokenHash app token))) : HandlerM F _).run (exec bm25) w =
        (.ok (w.db.bridgeTokens.find? (·.key == bridgeTokenHash app token)), w.answer w.db) := by
      rw [sqlx, run_mapError, hread]
      rfl
    rw [bind_eq, run_bind_ok _ hlookup]
    cases hrow : w.db.bridgeTokens.find? (·.key == bridgeTokenHash app token) with
    | none => simp
    | some row =>
      have hclock : (w.answer w.db).oracle.clock 0 = w.oracle.clock 0 := rfl
      simp only [bind_eq, unixNow, call_bind, run_command, exec, hclock]
      by_cases hexpired : row.expiresAtUnix ≤ w.oracle.clock 0
      · simp [hexpired]
      · by_cases hallows : bridgeScopeAllows row.scope required = true
        · have hanswer : row.userId = userId ∧ row.scope = scope ↔ userId = row.userId ∧ scope = row.scope :=
            and_congr eq_comm eq_comm
          simp [hexpired, hallows, not_le.mp hexpired, hanswer]
        · simp [hexpired, hallows]

theorem Minting.find (h : Minting sha256 ts p) (hts : ∀ t ∈ ts, t.app.sha256 = sha256) {token : String} {m : Mint}
    (hm : Minted p token m) :
    p.state.db.bridgeTokens.find? (·.key == sha256 ("cm-daemon-bridge-token-salt" ++ token)) = some (m.row sha256 token) := by
  have hrow : m.row sha256 token ∈ p.state.db.bridgeTokens := (h.mem_iff hts _).mpr ⟨token, m, hm, rfl⟩
  cases hfound : p.state.db.bridgeTokens.find? (·.key == sha256 ("cm-daemon-bridge-token-salt" ++ token)) with
  | none => exact absurd (beq_self_eq_true _) (List.find?_eq_none.mp hfound _ hrow)
  | some row =>
    have hkey := List.find?_some hfound
    rw [beq_iff_eq] at hkey
    rw [List.inj_on_of_nodup_map h.keys (List.mem_of_find?_eq_some hfound) hrow hkey]

theorem Minting.validates_iff (h : Minting sha256 ts p) (hts : ∀ t ∈ ts, t.app.sha256 = sha256) {bm25 : Bm25 F}
    {app : AppState F}
    (happ : app.sha256 = sha256) {token : String} {m : Mint} (hm : Minted p token m) {o : Oracle} (hf : o.sqlFault 0 = false)
    (required : BridgeScope) (userId : String) (scope : BridgeScope) :
    Validates bm25 app { p.state with oracle := o } token required userId scope ↔
      o.clock 0 < m.expires ∧ bridgeScopeAllows m.scope required = true ∧ userId = m.userId ∧ scope = m.scope := by
  rw [CognitiveMemory.validates_iff, bridgeTokenHash, happ]
  simp [h.find hts hm, hf, Mint.row]

/-- The window of a token minted with a time to live that the clock can add is the one asked for,
and any other token has expired when it is minted. What was never minted opens nothing. -/
theorem window_iff_fits (hsha : Function.Injective sha256) (bm25 : Bm25 F) {w : World F} (hw : w.db = .empty)
    (hts : ∀ t ∈ ts, t.app.sha256 = sha256) (app : AppState F) (happ : app.sha256 = sha256) (schedule : List ℕ) :
    let p := (accepted w ts).play (exec bm25) schedule
    (∀ token m, Minted p token m → m.Fits →
      ((∀ required o, o.sqlFault 0 = false → m.now ≤ o.clock 0 → ∀ userId scope,
        Validates bm25 app { p.state with oracle := o } token required userId scope ↔
          o.clock 0 < m.now + m.ttlSeconds ∧ bridgeScopeAllows m.scope required = true ∧ userId = m.userId ∧ scope = m.scope) ↔
        m.now + m.ttlSeconds < 2 ^ 63)) ∧
    (∀ token, (∀ m, ¬ Minted p token m) → ∀ required o userId scope,
      ¬ Validates bm25 app { p.state with oracle := o } token required userId scope) ∧
    ∀ row ∈ p.state.db.bridgeTokens, readRecord (recordText row) = .ok (row.userId, row.scope, row.expiresAtUnix) := by
  intro p
  have hminting : Minting sha256 ts p := minting_play hw ts schedule
  refine ⟨fun token m hm hfits => ?_, fun token hnever required o userId scope hvalid => ?_, fun row hrow => ?_⟩
  · constructor
    · intro hwindow
      by_contra hover
      -- a validation in the second of the mint, for a scope that every token has
      let o : Oracle := { Oracle.quiet with clock := fun _ => m.now }
      have hread : bridgeScopeAllows m.scope .read = true := by cases m.scope <;> rfl
      rcases Mint.expires_cases hfits with ⟨hsum, -⟩ | ⟨hsum, hexpired⟩
      · exact hover hsum
      have hopen : m.now < m.now + m.ttlSeconds := by
        have := hfits.future
        omega
      have hvalidates := (hwindow .read o rfl le_rfl m.userId m.scope).mpr ⟨hopen, hread, rfl, rfl⟩
      obtain ⟨hlive, -⟩ := (hminting.validates_iff hts happ hm rfl _ _ _).mp hvalidates
      exact absurd hlive (not_lt.mpr hexpired.le)
    · intro hsum required o hf _ userId scope
      rcases Mint.expires_cases hfits with ⟨-, heq⟩ | ⟨hover, -⟩
      · rw [hminting.validates_iff hts happ hm hf, heq]
      · omega
  · obtain ⟨-, row, hfound, -⟩ := validates_iff.mp hvalid
    obtain ⟨token', m, hm, rfl⟩ := (hminting.mem_iff hts row).mp (List.mem_of_find?_eq_some hfound)
    have hkey := List.find?_some hfound
    rw [beq_iff_eq, bridgeTokenHash, happ] at hkey
    have htoken : token' = token := by
      have hsalted := hsha hkey
      simpa using hsalted
    exact hnever m (htoken ▸ hm)
  · obtain ⟨token, m, -, rfl⟩ := (hminting.mem_iff hts row).mp hrow
    exact readRecord_recordText m.expires_range.1 m.expires_range.2

end

/-! ### An hour, and as long as can be -/

def mintFor (ttlSeconds : ℕ) : Mint := ⟨"alice", .write, ttlSeconds, 0⟩

def mintRequest (ttlSeconds : ℕ) : Caller ℚ := ⟨.taster, "alice", .diagnostics (.mintBridgeToken "alice" .write ttlSeconds)⟩

def afterMint (ttlSeconds : ℕ) : Requests ℚ := (accepted World.quiet [mintRequest ttlSeconds]).play (exec Bm25.none)
    [0, 0, 0, 0]

theorem afterMint_minted (ttlSeconds : ℕ) : Minted (afterMint ttlSeconds) "cmb_" (mintFor ttlSeconds) := by
  refine ⟨0, mintRequest ttlSeconds, _, rfl, rfl, ?_⟩
  exact List.mem_cons_of_mem _ List.mem_cons_self

def Oracle.at (second : ℤ) : Oracle := { Oracle.quiet with clock := fun _ => second }

theorem window_hour :
    Validates Bm25.none .taster { (afterMint 3600).state with oracle := .at 3599 } "cmb_" .read "alice" .write ∧
      ¬ Validates Bm25.none .taster { (afterMint 3600).state with oracle := .at 3600 } "cmb_" .read "alice" .write := by
  have hwindow := ((window_iff_fits utf8_injective Bm25.none (w := World.quiet) rfl
    (List.forall_mem_singleton.mpr rfl) .taster rfl [0, 0, 0, 0]).1 "cmb_" (mintFor 3600) (afterMint_minted 3600)
      ⟨by decide, by decide, by decide⟩).mpr (by decide)
  refine ⟨(hwindow .read (.at 3599) rfl (by decide) _ _).mpr ⟨by decide, rfl, rfl, rfl⟩, fun hvalid => ?_⟩
  exact absurd ((hwindow .read (.at 3600) rfl (by decide) _ _).mp hvalid).1 (by decide)

/-- The longest time to live is one of minus one second. -/
theorem expired_when_minted : ¬ ∀ (w : World ℚ) (ts : List (Caller ℚ)) (schedule : List ℕ), w.db = .empty →
    (∀ t ∈ ts, t.app.sha256 = utf8) → ∀ token m, Minted ((accepted w ts).play (exec Bm25.none) schedule) token m → m.Fits →
      ∀ o : Oracle, o.sqlFault 0 = false → m.now ≤ o.clock 0 → o.clock 0 < m.now + m.ttlSeconds →
        Validates Bm25.none .taster { ((accepted w ts).play (exec Bm25.none) schedule).state with oracle := o } token m.scope
          m.userId m.scope := by
  intro h
  have hvalid := h World.quiet [mintRequest (2 ^ 64 - 1)] [0, 0, 0, 0] rfl (List.forall_mem_singleton.mpr rfl) "cmb_"
    (mintFor (2 ^ 64 - 1)) (afterMint_minted _) ⟨by decide, by decide, by decide⟩ Oracle.quiet rfl le_rfl (by decide)
  obtain ⟨-, row, hfound, hlive, -⟩ := validates_iff.mp hvalid
  have hstored : row.expiresAtUnix = -1 := by
    have hrow : row ∈ [(mintFor (2 ^ 64 - 1)).row utf8 "cmb_"] := List.mem_of_find?_eq_some hfound
    rw [List.mem_singleton.mp hrow]
    decide
  rw [hstored] at hlive
  exact absurd hlive (by decide)

end CognitiveMemory
