import CognitiveMemory.Daemon.Connection
import CognitiveMemory.Daemon.Dispatch
import CognitiveMemory.Protocol.Codec

/-! The bytes of a connection: the handshake of `handle_connection`, which reads the Hello frame
with a buffer of its own, and the frames behind it that the request loop decodes. -/

namespace CognitiveMemory.Server
open Framing Wire Wire.IpcCodec

/-! ## The handshake -/

def ipcProtocolVersion : ℕ := 1

/-- `serde_json::Value::get`; in a map the last of several members of a name stays. -/
def get? (name : String) : Json → Option Json
  | .obj o => (Json.Members.values o name).getLast?
  | _ => none

def asU64 : Json → Option ℕ
  | .int n => if 0 ≤ n then some n.toNat else none
  | _ => none

def asStr : Json → Option String
  | .str s => some s
  | _ => none

inductive Handshake
  | mismatch (clientVersion daemonVersion : ℕ)
  | welcome (userId : String)
  deriving DecidableEq

/-- The version is cut to 32 bits. -/
def handshake (hello : Json) : Handshake :=
  let clientProto := ((get? "protocol_version" hello).bind asU64).elim 0 (· % 2 ^ 32)
  if clientProto ≠ ipcProtocolVersion then .mismatch clientProto ipcProtocolVersion
  else .welcome (((get? "user_id" hello).bind asStr).getD "default")

/-- `read_length_prefixed_json`: the document, what its buffer holds behind it, and the reads still
to come. A read of no bytes is the end of the stream. -/
def readLengthPrefixedJson (json : SerdeJson) (s : Option ℕ) (buf : List UInt8) (reads : List (List UInt8)) :
    Option (Json × List UInt8 × List (List UInt8)) :=
  match takeFrame maxFrameLength s buf, reads with
  | .item p _ rest, reads => (json.fromSlice p).map fun hello => (hello, rest, reads)
  | .more s buf, r :: reads => if r = [] then none else readLengthPrefixedJson json s (buf ++ r) reads
  | _, _ => none
termination_by structural reads

inductive Session
  | refused (clientVersion : ℕ)
  | served (userId : String) (stream : Drained IpcMessage (Option ℕ) UInt8) (dropped : List UInt8)

/-- A client that is refused is not read any further. -/
def Session.of (h : Handshake) (stream : Drained IpcMessage (Option ℕ) UInt8) (dropped : List UInt8) : Session :=
  match h with
  | .mismatch clientVersion _ => .refused clientVersion
  | .welcome userId => .served userId stream dropped

/-- `handle_connection`; the handshake's buffer is gone when the codec takes over the stream. -/
def handleConnection (json : SerdeJson) (reads : List (List UInt8)) : Option Session :=
  (readLengthPrefixedJson json none [] reads).map fun (hello, dropped, reads) =>
    .of (handshake hello) ((decoder json).feed none [] reads) dropped

/-- A read ends where the bytes `b` do. -/
def CutAfter (b : List UInt8) (reads : List (List UInt8)) : Prop := ∃ k, (reads.take k).flatten = b

variable {json : SerdeJson} {h rest : List UInt8} {hello : Json} {reads : List (List UInt8)}

/-- The read of the Hello frame when the bytes `pre` have come, whatever the cuts. -/
theorem read_hello (hh : h.length ≤ maxFrameLength) (hhello : json.fromSlice h = some hello) {s : Option ℕ}
    {buf pre : List UInt8}
    (hsame : ∀ c, takeFrame maxFrameLength s (buf ++ c) = takeFrame maxFrameLength none (pre ++ c))
    (hbytes : pre ++ reads.flatten = frame h ++ rest) (hreads : ∀ r ∈ reads, r ≠ []) :
    ∃ dropped reads', readLengthPrefixedJson json s buf reads = some (hello, dropped, reads') ∧
      dropped ++ reads'.flatten = rest ∧ (dropped = [] ↔ ∃ k, pre ++ (reads.take k).flatten = frame h) := by
  induction reads generalizing s buf pre with
  | nil =>
    have hitem := decode_frame maxFrameLength_lt hh rest
    rw [← hbytes, List.flatten_nil] at hitem
    have hhere : takeFrame maxFrameLength s buf = .item h none rest := by
      have hnone := hsame []
      rw [List.append_nil] at hnone
      exact hnone.trans hitem
    rw [List.flatten_nil, List.append_nil] at hbytes
    refine ⟨rest, [], ?_, List.append_nil rest, ?_⟩
    · unfold readLengthPrefixedJson
      simp only [hhere, hhello, Option.map_some]
    · simp [hbytes]
  | cons r reads ih =>
    have hhere : takeFrame maxFrameLength s buf = takeFrame maxFrameLength none pre := by
      have hnone := hsame []
      rwa [List.append_nil, List.append_nil] at hnone
    by_cases hlong : (frame h).length ≤ pre.length
    · -- the frame is whole; what is behind it in the buffer is dropped
      obtain ⟨dropped, rfl⟩ : frame h <+: pre :=
        List.prefix_of_prefix_length_le ⟨rest, hbytes.symm⟩ (List.prefix_append _ _) hlong
      have hitem : takeFrame maxFrameLength s buf = .item h none dropped :=
        hhere.trans (decode_frame maxFrameLength_lt hh dropped)
      refine ⟨dropped, r :: reads, ?_, ?_, ?_⟩
      · unfold readLengthPrefixedJson
        simp only [hitem, hhello, Option.map_some]
      · rw [List.append_assoc] at hbytes
        exact List.append_cancel_left hbytes
      · constructor
        · rintro rfl
          exact ⟨0, by simp⟩
        · rintro ⟨k, hk⟩
          rw [List.append_assoc] at hk
          exact (List.append_eq_nil_iff.mp (List.self_eq_append_right.mp hk.symm)).1
    · obtain ⟨c, hc⟩ : pre <+: frame h :=
        List.prefix_of_prefix_length_le (List.prefix_append _ _) ⟨rest, hbytes.symm⟩ (by omega)
      have hne : c ≠ [] := by
        rintro rfl
        rw [List.append_nil] at hc
        exact hlong (by rw [hc])
      have hwhole : (lengthDelimited maxFrameLength).decode none (pre ++ c) = .item h none [] := by
        have hitem := decode_frame maxFrameLength_lt hh []
        rwa [List.append_nil, ← hc] at hitem
      obtain ⟨s', buf', hmore⟩ := Decoder.part_more hwhole hne
      have hmore' : takeFrame maxFrameLength s buf = .more s' buf' := hhere.trans hmore
      have hsame' : ∀ c, takeFrame maxFrameLength s' (buf' ++ r ++ c) = takeFrame maxFrameLength none (pre ++ r ++ c) := by
        intro c
        rw [List.append_assoc, List.append_assoc, ← hsame]
        have happend := (lengthDelimited maxFrameLength).append s buf (r ++ c)
        rw [show (lengthDelimited maxFrameLength).decode s buf = .more s' buf' from hmore'] at happend
        exact happend.symm
      rw [List.flatten_cons, ← List.append_assoc] at hbytes
      obtain ⟨dropped, reads', hread, hrest, hcut⟩ :=
        ih hsame' hbytes fun r' hr' => hreads r' (List.mem_cons_of_mem r hr')
      refine ⟨dropped, reads', ?_, hrest, hcut.trans ?_⟩
      · unfold readLengthPrefixedJson
        simp only [hmore', hreads r List.mem_cons_self, if_false]
        exact hread
      · constructor
        · rintro ⟨k, hk⟩
          exact ⟨k + 1, by rw [List.take_succ_cons, List.flatten_cons, ← List.append_assoc, hk]⟩
        · rintro ⟨k, hk⟩
          cases k with
          | zero => exact absurd (by rw [← hk]; simp) hlong
          | succ k => exact ⟨k, by rw [← hk, List.take_succ_cons, List.flatten_cons, ← List.append_assoc]⟩

theorem session_of_reads (hh : h.length ≤ maxFrameLength) (hhello : json.fromSlice h = some hello)
    (hbytes : reads.flatten = frame h ++ rest) (hreads : ∀ r ∈ reads, r ≠ []) :
    ∃ dropped stream, handleConnection json reads = some (.of (handshake hello) stream dropped) ∧
      (dropped = [] ↔ CutAfter (frame h) reads) ∧ (dropped = [] → stream = (decoder json).drain none rest) := by
  have hsame : ∀ c, takeFrame maxFrameLength none ([] ++ c) = takeFrame maxFrameLength none ([] ++ c) := fun _ => rfl
  obtain ⟨dropped, reads', hread, hrest, hcut⟩ := read_hello hh hhello hsame hbytes hreads
  refine ⟨dropped, (decoder json).feed none [] reads', ?_, ?_, ?_⟩
  · rw [handleConnection, hread, Option.map_some]
  · simp only [List.nil_append] at hcut
    exact hcut
  · rintro rfl
    rw [Decoder.feed_eq_drain (IpcCodec.resting_empty json), ← hrest]

theorem whole_of_cutAfter {ps : List (List UInt8)} {ms : List IpcMessage} (hhello : json.fromSlice h = some hello)
    (hms : List.Forall₂ (fun p m => message? json p = some m) ps ms) (hh : h.length ≤ maxFrameLength)
    (hps : ∀ p ∈ ps, p.length ≤ maxFrameLength) (hreads : ∀ r ∈ reads, r ≠ [])
    (hbytes : reads.flatten = frame h ++ (ps.map frame).flatten) (hcut : CutAfter (frame h) reads) :
    handleConnection json reads = some (.of (handshake hello) ⟨ms, some (none, [])⟩ []) := by
  obtain ⟨dropped, stream, hsession, hiff, hstream⟩ := session_of_reads hh hhello hbytes hreads
  obtain rfl := hiff.mpr hcut
  rw [hsession, hstream rfl]
  congr 2
  exact drain_frames maxFrameLength_lt hms hps

/-- However the stream is cut, the handshake is the same. All messages behind an accepted Hello
are served, and no byte is dropped, exactly when a read ends where the Hello frame does. -/
theorem served_iff_cutAfter (json : SerdeJson) {h : List UInt8} {hello : Json} {ps : List (List UInt8)}
    {ms : List IpcMessage} {reads : List (List UInt8)} (hhello : json.fromSlice h = some hello)
    (hms : List.Forall₂ (fun p m => message? json p = some m) ps ms) (hh : h.length ≤ maxFrameLength)
    (hps : ∀ p ∈ ps, p.length ≤ maxFrameLength) (hreads : ∀ r ∈ reads, r ≠ [])
    (hbytes : reads.flatten = frame h ++ (ps.map frame).flatten) :
    handleConnection json reads = some (.of (handshake hello) ⟨ms, some (none, [])⟩ []) ↔
      (∃ v w, handshake hello = .mismatch v w) ∨ CutAfter (frame h) reads := by
  obtain ⟨dropped, stream, hsession, hiff, -⟩ := session_of_reads hh hhello hbytes hreads
  constructor
  · intro hserved
    cases hhandshake : handshake hello with
    | mismatch v w => exact .inl ⟨v, w, rfl⟩
    | welcome user =>
      rw [hsession, hhandshake] at hserved
      exact .inr (hiff.mp (Session.served.inj (Option.some.inj hserved)).2.2)
  · rintro (⟨v, w, hmismatch⟩ | hcut)
    · rw [hsession, hmismatch]
      rfl
    · exact whole_of_cutAfter hhello hms hh hps hreads hbytes hcut

theorem served_in_one_read (hhello : json.fromSlice h = some hello) (hh : h.length ≤ maxFrameLength) (rest : List UInt8) :
    handleConnection json [frame h ++ rest] = some (.of (handshake hello) ⟨[], some (none, [])⟩ rest) := by
  have hempty : takeFrame maxFrameLength none [] = .more none [] := rfl
  have hitem : takeFrame maxFrameLength none (frame h ++ rest) = .item h none rest := decode_frame maxFrameLength_lt hh rest
  have hsome : frame h ++ rest ≠ [] := by simp [frame, bigEndian]
  have hread : readLengthPrefixedJson json none [] [frame h ++ rest] = some (hello, rest, []) := by
    unfold readLengthPrefixedJson
    simp only [hempty, hsome, if_false, List.nil_append]
    unfold readLengthPrefixedJson
    simp only [hitem, hhello, Option.map_some]
  have hstream : (decoder json).feed none [] [] = ⟨[], some (none, [])⟩ := rfl
  rw [handleConnection, hread, Option.map_some]
  simp only [hstream]

def aliceHello : Json := .obj [("protocol_version", .int 1), ("user_id", .str "alice")]

def statusRequest : IpcMessage := ⟨1, .request (.diagnostics .status)⟩

theorem aliceHello_read : SerdeJson.compact.fromSlice (Json.toVec aliceHello) = some aliceHello := by
  have hwithin : aliceHello.Within 1 := by simp [aliceHello, Json.Within]
  exact Json.fromSlice_toVec hwithin

theorem statusRequest_read :
    List.Forall₂ (fun p m => message? .compact p = some m) [payload .compact statusRequest] [statusRequest] :=
  .cons (message_payload SerdeJson.compact_roundTrips statusRequest) .nil

theorem served_apart :
    handleConnection .compact [frame (Json.toVec aliceHello), frame (payload .compact statusRequest)] =
      some (.of (handshake aliceHello) ⟨[statusRequest], some (none, [])⟩ []) := by
  refine (served_iff_cutAfter .compact aliceHello_read statusRequest_read (by decide +kernel) (by decide +kernel) ?_ ?_).mpr ?_
  · simp [frame, bigEndian]
  · simp
  · exact .inr ⟨1, by simp⟩

/-- The same bytes in two reads and in one: the request is lost. -/
theorem cut_matters : ¬ ∀ (json : SerdeJson) (h : List UInt8) (hello : Json) (ps : List (List UInt8)) (ms : List IpcMessage)
    (reads reads' : List (List UInt8)), json.RoundTrips → json.fromSlice h = some hello →
    List.Forall₂ (fun p m => message? json p = some m) ps ms → h.length ≤ maxFrameLength → (∀ p ∈ ps, p.length ≤ maxFrameLength) →
    (∀ r ∈ reads, r ≠ []) → (∀ r ∈ reads', r ≠ []) → reads.flatten = frame h ++ (ps.map frame).flatten →
    reads'.flatten = reads.flatten → handleConnection json reads' = handleConnection json reads := by
  intro hsame
  have hwelcome : handshake aliceHello = .welcome "alice" := by decide +kernel
  let h := frame (Json.toVec aliceHello)
  let p := frame (payload .compact statusRequest)
  have hh : (Json.toVec aliceHello).length ≤ maxFrameLength := by decide +kernel
  have hp : ∀ p ∈ [payload .compact statusRequest], p.length ≤ maxFrameLength := by decide +kernel
  have htwo : ∀ r ∈ [h, p], r ≠ [] := by simp [h, p, frame, bigEndian]
  have hone : ∀ r ∈ [h ++ p], r ≠ [] := by simp [h, p, frame, bigEndian]
  have hbytes : [h, p].flatten = h ++ ([payload .compact statusRequest].map frame).flatten := by simp [h, p]
  have hequal := hsame .compact _ _ _ _ [h, p] [h ++ p] SerdeJson.compact_roundTrips aliceHello_read statusRequest_read hh hp
    htwo hone hbytes (by simp)
  rw [served_in_one_read aliceHello_read hh p,
      whole_of_cutAfter aliceHello_read statusRequest_read hh hp htwo hbytes ⟨1, by simp [h]⟩,
    hwelcome] at hequal
  -- the one read serves no message, the two serve one
  exact nomatch congrArg Drained.items (Session.served.inj (Option.some.inj hequal)).2.1

/-! ## Requests of a later version -/

def knownOps : String → List String
  | "Diagnostics" => List.ofFn fun i => (diagnosticsVariants i).name
  | "Memory" => List.ofFn fun i => (memoryVariants i).name
  | "Lifecycle" => List.ofFn fun i => (lifecycleVariants i).name
  | _ => []

def knownBuckets : List String := ["Diagnostics", "Memory", "Lifecycle"]

/-- An `IpcMessage` of kind Request whose body names a bucket and an operation that this build does
not know together. -/
structure UnknownRequest (doc : Json) (id : UInt64) (bucket op : String) : Prop where
  unknown : op ∉ knownOps bucket
  reads : ∃ o payload body : Json.Members, doc = .obj o ∧ o.values "id" = [.int id.toNat] ∧ o.values "payload" = [.obj payload] ∧
    payload.values "kind" = [.str "Request"] ∧ payload.values "body" = [.obj body] ∧
    body.values "bucket" = [.str bucket] ∧ body.values "op" = [.str op]

variable {o payload b : Json.Members} {id : UInt64} {bucket op : String}

theorem de_envelope (hid : o.values "id" = [.int id.toNat]) (hpayload : o.values "payload" = [.obj payload]) :
    ipcMessage.codec.de (.obj o) = (ipcPayload.de payload).map (IpcMessage.mk id) := by
  have hread : (Json.Field.required ipcPayload.codec).read (some (.obj payload)) = ipcPayload.de payload := rfl
  have hfields : ipcMessage.codec.de (.obj o) =
      (Json.Fields.field (.field (.build IpcMessage.mk) "id" (.required Json.Codec.u64) IpcMessage.id) "payload"
        (.required ipcPayload.codec) IpcMessage.payload).de o := rfl
  rw [← Json.Codec.u64_ser] at hid
  rw [hfields, Json.Fields.de_field, Json.Fields.de_field, Json.Fields.de_build, Json.Fields.readField_one hid,
    Json.Fields.readField_one hpayload, Json.Field.read_required, hread]
  rfl

theorem de_request (hkind : payload.values "kind" = [.str "Request"]) (hbody : payload.values "body" = [.obj b]) :
    ipcPayload.de payload = (Wire.request.de b).map .request := by
  have hnames : Function.Injective fun i => (ipcPayloadVariants i).name := by decide +kernel
  have hvalues : Json.Members.values (payload.filter fun m => m.1 ≠ "kind") "body" = [.obj b] := by
    rw [Json.Object.values_untagged (by decide), hbody]
  have hread : ipcPayload.de payload = ((body Wire.request).de (payload.filter fun m => m.1 ≠ "kind")).map .request := by
    rw [ipcPayload, Json.Object.de_tagged hkind]
    exact Json.Object.readVariant_name hnames 0
  have hfield : (body Wire.request).de (payload.filter fun m => m.1 ≠ "kind") = Wire.request.de b := by
    show (Json.Fields.field (.build id) "body" (.required Wire.request.codec) id).de _ = _
    rw [Json.Fields.de_field, Json.Fields.de_build, Json.Fields.readField_one hvalues]
    exact Option.map_id' 
  rw [hread, hfield]

theorem request_names : Function.Injective fun i => (requestVariants i).name := by decide +kernel

theorem de_unknownBucket (hbucket : b.values "bucket" = [.str bucket]) (h : bucket ∉ knownBuckets) :
    Wire.request.de b = some .unknownBucket := by
  rw [Wire.request, Json.Object.de_tagged hbucket]
  by_cases hname : bucket = "UnknownBucket"
  · rw [hname]
    exact Json.Object.readVariant_name request_names 3
  · refine Json.Object.readVariant_other fun i hi => ?_
    have hnames : ∀ i, (requestVariants i).name ∈ knownBuckets ∨ (requestVariants i).name = "UnknownBucket" := by decide +kernel
    exact (hi ▸ hnames i).elim h hname

theorem de_unknownOp (hbucket : b.values "bucket" = [.str bucket]) (hop : b.values "op" = [.str op])
    (h : bucket ∈ knownBuckets) (hunknown : op ∉ knownOps bucket) : Wire.request.de b = none := by
  have hvalues : Json.Members.values (b.filter fun m => m.1 ≠ "bucket") "op" = [.str op] := by
    rw [Json.Object.values_untagged (by decide), hop]
  have hother {α : Type} {n : ℕ} {vs : Fin n → Json.Variant α} (hvs : op ∉ List.ofFn fun i => (vs i).name) (o' : Json.Members) :
      Json.Object.readVariant vs none op o' = none :=
    Json.Object.readVariant_other fun i hi => hvs (List.mem_ofFn.mpr ⟨i, hi⟩)
  rw [Wire.request, Json.Object.de_tagged hbucket]
  simp only [knownBuckets, List.mem_cons, List.not_mem_nil, or_false] at h
  obtain rfl | rfl | rfl := h
  · have hnone : diagnosticsRequest.de (b.filter fun m => m.1 ≠ "bucket") = none := by
      rw [diagnosticsRequest, Json.Object.de_tagged hvalues]
      exact hother hunknown _
    exact (Json.Object.readVariant_name request_names 0).trans (Option.map_eq_none_iff.mpr hnone)
  · have hnone : memoryRequest.de (b.filter fun m => m.1 ≠ "bucket") = none := by
      rw [memoryRequest, Json.Object.de_tagged hvalues]
      exact hother hunknown _
    exact (Json.Object.readVariant_name request_names 1).trans (Option.map_eq_none_iff.mpr hnone)
  · have hnone : lifecycleRequest.de (b.filter fun m => m.1 ≠ "bucket") = none := by
      rw [lifecycleRequest, Json.Object.de_tagged hvalues]
      exact hother hunknown _
    exact (Json.Object.readVariant_name request_names 2).trans (Option.map_eq_none_iff.mpr hnone)

def Input.ofFrame (json : SerdeJson) (fits : IpcMessage → Bool) (payload : List UInt8) : Input :=
  match message? json payload with
  | some ⟨id, .request (.memory (.subscribe args))⟩ => .subscribe id.toNat args.replaySnapshot
  | some message => .request ⟨message.id.toNat, fits message⟩
  | none => .decodeError

/-- The frame is answered with `InvalidPayload` under the id, and the loop goes on to the frames
behind it with one request more at work. -/
def Tolerates (F : Type) [Field F] [LinearOrder F] [Elementary F] (json : SerdeJson) (payload : List UInt8)
    (id : UInt64) : Prop :=
  ∃ message, message? json payload = some message ∧
    (∀ (texts : Texts) (app : AppState F) (user : String), ∃ e : ResponseError,
      e.kind = .invalidPayload ∧ dispatch texts app user message = .pure ⟨id, .error e⟩) ∧
    ∀ (fits : IpcMessage → Bool) (c : Connection), c.acceptRequests → ¬ c.ended → ∀ following : List (List UInt8),
      run c ((payload :: following).map (Input.ofFrame json fits)) =
        run { c with
          tasks := c.tasks ++ [⟨id.toNat, fits message⟩]
          decoded := c.decoded ++ [⟨id.toNat, fits message⟩] } (following.map (Input.ofFrame json fits))

variable {F : Type} [Field F] [LinearOrder F] [Elementary F]

/-- A request this build does not know is answered, and the connection goes on, exactly when it is
the bucket that is unknown. -/
theorem tolerates_iff_unknownBucket {json : SerdeJson} {doc : Json} {payload : List UInt8} {id : UInt64} {bucket op : String}
    (hdoc : json.fromSlice payload = some doc) (h : UnknownRequest doc id bucket op) :
    Tolerates F json payload id ↔ bucket ∉ knownBuckets := by
  obtain ⟨o, p, b, rfl, hid, hpayload, hkind, hbody, hbucket, hop⟩ := h.reads
  have hmessage : message? json payload = (Wire.request.de b).map fun req => ⟨id, .request req⟩ := by
    rw [message?, hdoc, Option.bind_some, de_envelope hid hpayload, de_request hkind hbody, Option.map_map]
    rfl
  constructor
  · rintro ⟨message, hread, -⟩ hknown
    rw [hmessage, de_unknownOp hbucket hop hknown h.unknown] at hread
    cases hread
  · intro hunknown
    rw [de_unknownBucket hbucket hunknown] at hmessage
    refine ⟨⟨id, .request .unknownBucket⟩, hmessage, fun texts app user => ⟨_, rfl, rfl⟩, ?_⟩
    intro fits c haccept hended following
    have hinput : Input.ofFrame json fits payload = .request ⟨id.toNat, fits ⟨id, .request .unknownBucket⟩⟩ := by
      rw [Input.ofFrame, hmessage]
      rfl
    rw [List.map_cons, run, List.foldlM_cons, hinput]
    simp only [turn, hended, haccept, if_true]
    rfl

def laterBody (bucket op : String) : Json.Members := [("bucket", .str bucket), ("op", .str op), ("window", .int 7)]

def laterRequest (bucket op : String) : Json :=
  .obj [("id", .int 9), ("payload", .obj [("kind", .str "Request"), ("body", .obj (laterBody bucket op))])]

theorem laterRequest_read (bucket op : String) :
    SerdeJson.compact.fromSlice (Json.toVec (laterRequest bucket op)) = some (laterRequest bucket op) := by
  have hwithin : (laterRequest bucket op).Within 3 := by simp [laterRequest, laterBody, Json.Within]
  exact Json.fromSlice_toVec hwithin

theorem laterRequest_unknown {bucket op : String} (h : op ∉ knownOps bucket) :
    UnknownRequest (laterRequest bucket op) 9 bucket op :=
  ⟨h, _, [("kind", .str "Request"), ("body", .obj (laterBody bucket op))], laterBody bucket op, rfl,
    by simp [Json.Members.values], by simp [Json.Members.values], by simp [Json.Members.values],
    by simp [Json.Members.values], by simp [laterBody, Json.Members.values], by simp [laterBody, Json.Members.values]⟩

theorem tolerates_laterBucket : Tolerates ℚ .compact (Json.toVec (laterRequest "Insights" "Summarize")) 9 :=
  (tolerates_iff_unknownBucket (laterRequest_read _ _) (laterRequest_unknown (by decide))).mpr (by decide)

/-- A later operation of the memory bucket is a decode error. -/
theorem refuses_laterOp : ¬ ∀ (json : SerdeJson) (doc : Json) (payload : List UInt8) (id : UInt64) (bucket op : String),
    json.RoundTrips → json.fromSlice payload = some doc → UnknownRequest doc id bucket op → Tolerates ℚ json payload id := by
  intro htolerates
  have hunknown : UnknownRequest (laterRequest "Memory" "Merge") 9 "Memory" "Merge" := laterRequest_unknown (by decide +kernel)
  obtain ⟨message, hmessage, -⟩ := htolerates _ _ _ _ _ _ SerdeJson.compact_roundTrips (laterRequest_read _ _) hunknown
  obtain ⟨o, p, b, hobj, hid, hpayload, hkind, hbody, hbucket, hop⟩ := hunknown.reads
  rw [message?, laterRequest_read, hobj, Option.bind_some, de_envelope hid hpayload, de_request hkind hbody,
    de_unknownOp hbucket hop (by decide) hunknown.unknown] at hmessage
  cases hmessage

end CognitiveMemory.Server
