import CognitiveMemory.Daemon.Stream

/-! The two sides of the handshake against each other: a client built with one protocol version and
a daemon built with another. Each side reads the other's version with a cast to 32 bits and zero
where there is none. -/

namespace CognitiveMemory.Server
open Framing Wire

/-! ## The daemon -/

def handshakeAt (d : ℕ) (hello : Json) : Handshake :=
  let clientProto := ((get? "protocol_version" hello).bind asU64).elim 0 (· % 2 ^ 32)
  if clientProto ≠ d then .mismatch clientProto d
  else .welcome (((get? "user_id" hello).bind asStr).getD "default")

theorem handshakeAt_ipcProtocolVersion : handshakeAt ipcProtocolVersion = handshake := rfl

def writeLengthPrefixedJson (json : SerdeJson) (value : Json) : Option (List UInt8) :=
  if maxFrameLength < (json.toVec value).length then none else some (frame (json.toVec value))

def welcome (d : ℕ) (daemonVersion sessionId : String) : Json :=
  .obj [("daemon_version", .str daemonVersion), ("kind", .str "Welcome"), ("protocol_version", .int d),
    ("session_id", .str sessionId)]

def rejection (clientVersion daemonVersion : ℕ) : Json :=
  .obj [("error", .obj [("client_version", .int clientVersion), ("daemon_version", .int daemonVersion),
    ("kind", .str "ProtocolMismatch")]), ("kind", .str "Error")]

def replyTo (d : ℕ) (daemonVersion sessionId : String) : Handshake → Json
  | .mismatch clientProto daemonProto => rejection clientProto daemonProto
  | .welcome _ => welcome d daemonVersion sessionId

def Handshake.kept : Handshake → Bool
  | .mismatch .. => false
  | .welcome _ => true

def daemonSide (json : SerdeJson) (d : ℕ) (daemonVersion sessionId : String) (reads : List (List UInt8)) :
    Option (Handshake × Option (List UInt8)) :=
  (readLengthPrefixedJson json none [] reads).map fun (hello, _, _) =>
    (handshakeAt d hello, writeLengthPrefixedJson json (replyTo d daemonVersion sessionId (handshakeAt d hello)))

/-! ## The client -/

structure ProtocolMismatch where
  clientVersion : ℕ
  daemonVersion : ℕ
  deriving DecidableEq

def validateProtocolVersion (own clientVersion : ℕ) : Except ProtocolMismatch Unit :=
  if clientVersion = own then .ok () else .error ⟨clientVersion, own⟩

def hello (c : ℕ) (clientLabel userId : String) : Json :=
  .obj [("client", .str clientLabel), ("kind", .str "Hello"), ("protocol_version", .int c), ("user_id", .str userId)]

def readWelcome (c : ℕ) (answer : Json) : Except ProtocolMismatch Unit :=
  validateProtocolVersion c (((get? "protocol_version" answer).bind asU64).elim 0 (· % 2 ^ 32))

def clientSide (json : SerdeJson) (c : ℕ) (reads : List (List UInt8)) : Option (Except ProtocolMismatch Unit) :=
  (readLengthPrefixedJson json none [] reads).map fun (answer, _, _) => readWelcome c answer

/-! ## The exchange -/

structure Cut where
  reads : List UInt8 → List (List UInt8)
  flatten : ∀ bytes, (reads bytes).flatten = bytes
  nonempty : ∀ bytes, ∀ r ∈ reads bytes, r ≠ []

/-- Hello, its answer, and what each side makes of them. -/
def connect (json : SerdeJson) (c d : ℕ) (clientLabel userId daemonVersion sessionId : String) (up down : Cut) :
    Option (Handshake × Except ProtocolMismatch Unit) := do
  let sent ← writeLengthPrefixedJson json (hello c clientLabel userId)
  let (h, answer) ← daemonSide json d daemonVersion sessionId (up.reads sent)
  let answered ← answer
  let result ← clientSide json c (down.reads answered)
  pure (h, result)

/-- Both sides go on when the versions are the same, and otherwise both give up and the client
knows both versions. -/
def Agreed (c d : ℕ) (h : Handshake) (result : Except ProtocolMismatch Unit) : Prop :=
  ((h.kept ∧ result = .ok ()) ↔ c = d) ∧ (c ≠ d → h.kept = false ∧ result = .error ⟨c, d⟩)

section
variable {json : SerdeJson} {c d : ℕ}

theorem read_written {value : Json} (hvalue : json.fromSlice (json.toVec value) = some value)
    (hfits : (json.toVec value).length ≤ maxFrameLength) (cut : Cut) :
    writeLengthPrefixedJson json value = some (frame (json.toVec value)) ∧
      ∃ rest, readLengthPrefixedJson json none [] (cut.reads (frame (json.toVec value))) = some (value, rest) := by
  have hsame : ∀ k, takeFrame maxFrameLength none ([] ++ k) = takeFrame maxFrameLength none ([] ++ k) := fun _ => rfl
  have hbytes : [] ++ (cut.reads (frame (json.toVec value))).flatten = frame (json.toVec value) ++ [] := by
    rw [cut.flatten, List.nil_append, List.append_nil]
  obtain ⟨dropped, reads', hread, -⟩ := read_hello hfits hvalue hsame hbytes (cut.nonempty _)
  exact ⟨if_neg (Nat.not_lt.mpr hfits), (dropped, reads'), hread⟩

theorem handshakeAt_hello (clientLabel userId : String) : handshakeAt d (hello c clientLabel userId) =
    if c % 2 ^ 32 = d then .welcome userId else .mismatch (c % 2 ^ 32) d := by
  simp [handshakeAt, hello, get?, Json.Members.values, asU64, asStr]

theorem readWelcome_welcome (hd : d < 2 ^ 32) (daemonVersion sessionId : String) :
    readWelcome c (welcome d daemonVersion sessionId) = validateProtocolVersion c d := by
  have hcast : d % 4294967296 = d := Nat.mod_eq_of_lt hd
  simp [readWelcome, welcome, get?, Json.Members.values, asU64, hcast]

theorem readWelcome_rejection (clientVersion daemonVersion : ℕ) :
    readWelcome c (rejection clientVersion daemonVersion) = validateProtocolVersion c 0 := by
  simp [readWelcome, rejection, get?, Json.Members.values]

theorem hello_within (hc : c < 2 ^ 64) (clientLabel userId : String) :
    (hello c clientLabel userId).Within recursionLimit := by
  have hshallow : (hello c clientLabel userId).Within 1 := by
    have hint : (c : ℤ) < 2 ^ 64 := by exact_mod_cast hc
    simp only [hello, Json.Within, List.forall_mem_cons, List.not_mem_nil, false_imp_iff, implies_true, true_and, and_true]
    omega
  exact hshallow.mono (by decide)

theorem reply_within (hd : d < 2 ^ 32) (clientLabel userId daemonVersion sessionId : String) :
    (replyTo d daemonVersion sessionId (handshakeAt d (hello c clientLabel userId))).Within recursionLimit := by
  have hclient : c % 2 ^ 32 < 2 ^ 32 := Nat.mod_lt _ (by decide)
  have hshallow : (replyTo d daemonVersion sessionId (handshakeAt d (hello c clientLabel userId))).Within 2 := by
    rw [handshakeAt_hello]
    split
    · simp only [replyTo, welcome, Json.Within, List.forall_mem_cons, List.not_mem_nil, false_imp_iff, implies_true,
          true_and, and_true]
      omega
    · simp only [replyTo, rejection, Json.Within, List.forall_mem_cons, List.not_mem_nil, false_imp_iff, implies_true, and_true]
      omega
  exact hshallow.mono (by decide)

theorem connect_eq (hjson : json.RoundTrips) (hc : c < 2 ^ 64) (hd : d < 2 ^ 32)
    (clientLabel userId daemonVersion sessionId : String)
      (hhello : (json.toVec (hello c clientLabel userId)).length ≤ maxFrameLength)
    (hreply : (json.toVec (replyTo d daemonVersion sessionId (handshakeAt d (hello c clientLabel userId)))).length ≤
      maxFrameLength)
    (up down : Cut) :
    connect json c d clientLabel userId daemonVersion sessionId up down =
      some (handshakeAt d (hello c clientLabel userId),
        readWelcome c (replyTo d daemonVersion sessionId (handshakeAt d (hello c clientLabel userId)))) := by
  obtain ⟨hsent, rest, hread⟩ := read_written (hjson _ (hello_within hc clientLabel userId)) hhello up
  obtain ⟨hanswered, rest', hread'⟩ :=
      read_written (hjson _ (reply_within hd clientLabel userId daemonVersion sessionId)) hreply down
  have hdaemon : daemonSide json d daemonVersion sessionId (up.reads (frame (json.toVec (hello c clientLabel userId)))) = some
      (handshakeAt d (hello c clientLabel userId),
        some (frame (json.toVec (replyTo d daemonVersion sessionId (handshakeAt d (hello c clientLabel userId)))))) := by
    rw [daemonSide, hread, Option.map_some, ← hanswered]
  have hclient : clientSide json c (down.reads (frame (json.toVec
      (replyTo d daemonVersion sessionId (handshakeAt d (hello c clientLabel userId)))))) = some
        (readWelcome c (replyTo d daemonVersion sessionId (handshakeAt d (hello c clientLabel userId)))) := by
    rw [clientSide, hread', Option.map_some]
  simp [connect, hsent, hdaemon, hclient]

/-- The handshake is as it should be exactly for equal versions: a client that is refused reads
the version zero, and calls it its own. -/
theorem agreed_iff_same (hjson : json.RoundTrips) (hc : c < 2 ^ 64) (hd : d < 2 ^ 32)
    (clientLabel userId daemonVersion sessionId : String)
      (hhello : (json.toVec (hello c clientLabel userId)).length ≤ maxFrameLength)
    (hreply : (json.toVec (replyTo d daemonVersion sessionId (handshakeAt d (hello c clientLabel userId)))).length ≤
      maxFrameLength)
    (up down : Cut) :
    ∃ h result, connect json c d clientLabel userId daemonVersion sessionId up down = some (h, result) ∧
      (Agreed c d h result ↔ c = d) := by
  refine ⟨_, _, connect_eq hjson hc hd clientLabel userId daemonVersion sessionId hhello hreply up down, ?_⟩
  rw [handshakeAt_hello]
  constructor
  · rintro ⟨-, hrefused⟩
    by_contra hne
    obtain ⟨hkept, hresult⟩ := hrefused hne
    split at hkept
    · cases hkept
    · rename_i hversion
      rw [if_neg hversion] at hresult
      simp only [replyTo, readWelcome_rejection, validateProtocolVersion] at hresult
      -- the error names zero as the client's version and the client's as the daemon's
      split at hresult
      · cases hresult
      · rename_i hzero
        injection hresult with hmismatch
        injection hmismatch with hclient hdaemon
        exact hne (by omega)
  · rintro rfl
    rw [if_pos (Nat.mod_eq_of_lt hd)]
    have hresult : readWelcome c (welcome c daemonVersion sessionId) = .ok () := by
      rw [readWelcome_welcome hd]
      exact if_pos rfl
    exact ⟨by simpa [Handshake.kept, replyTo] using hresult, fun hne => absurd rfl hne⟩

def Cut.whole : Cut where
  reads bytes := if bytes = [] then [] else [bytes]
  flatten bytes := by
    split
    · rename_i h
      exact h.symm
    · simp
  nonempty bytes r hr := by
    split at hr
    · cases hr
    · rename_i h
      rwa [List.mem_singleton.mp hr]

theorem agreed_ones :
    ∃ h result, connect .compact 1 1 "cm-cli/0.1.0" "default" "0.1.0" "01H" .whole .whole = some (h, result) ∧
    Agreed 1 1 h result := by
  obtain ⟨h, result, hconnect, hagreed⟩ := agreed_iff_same SerdeJson.compact_roundTrips (c := 1) (d := 1) (by decide) (by decide)
    "cm-cli/0.1.0" "default" "0.1.0" "01H" (by decide +kernel) (by decide +kernel) .whole .whole
  exact ⟨h, result, hconnect, hagreed.mpr rfl⟩

/-- A client of version 2 learns that its own version is 0 and the daemon's is 2. -/
theorem versions_lost : ¬ ∀ (json : SerdeJson) (c d : ℕ) (clientLabel userId daemonVersion sessionId : String)
    (up down : Cut)
    (h : Handshake) (result : Except ProtocolMismatch Unit), json.RoundTrips → c < 2 ^ 64 → d < 2 ^ 32 →
    connect json c d clientLabel userId daemonVersion sessionId up down = some (h, result) → Agreed c d h result := by
  intro hall
  have hconnect := connect_eq SerdeJson.compact_roundTrips (c := 2) (d := 1) (by decide) (by decide)
    "cm-cli/0.1.0" "default" "0.1.0" "01H" (by decide +kernel) (by decide +kernel) .whole .whole
  have hagreed := hall _ _ _ _ _ _ _ _ _ _ _ SerdeJson.compact_roundTrips (by decide) (by decide) hconnect
  have hresult := (hagreed.2 (by decide)).2
  rw [handshakeAt_hello, if_neg (by decide), replyTo, readWelcome_rejection] at hresult
  exact absurd hresult (by decide)

end
end CognitiveMemory.Server
