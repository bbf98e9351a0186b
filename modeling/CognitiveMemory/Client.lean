import Mathlib.Data.List.Basic
import Mathlib.Data.List.Nodup
import Mathlib.Data.List.TakeWhile

/-! The client crate: one `Client`, the calls made on it one after the other, and a server that
answers every request it has received once, in any order. -/

namespace CognitiveMemory.Client

inductive IpcPayload (Req Resp Ev : Type)
  | request (r : Req)
  | response (r : Resp)
  | event (e : Ev)
  deriving DecidableEq

structure IpcMessage (Req Resp Ev : Type) where
  id : ℕ
  payload : IpcPayload Req Resp Ev
  deriving DecidableEq

inductive ClientError (Req Resp Ev : Type)
  | io
  | idMismatch (expected got : ℕ)
  | unexpectedPayload (payload : IpcPayload Req Resp Ev)
  | timeout
  deriving DecidableEq

variable {Req Resp Ev : Type}

/-- One turn of the loop in `request_inner`; `none` is its `continue`. -/
def replyTurn (id : ℕ) (reply : IpcMessage Req Resp Ev) : Option (Except (ClientError Req Resp Ev) Resp) :=
  match reply.payload with
  | .event _ => none
  | payload =>
    if reply.id ≠ id then some (.error (.idMismatch id reply.id))
    else match payload with
      | .response resp => some (.ok resp)
      | other => some (.error (.unexpectedPayload other))

/-- The await points of `request_inner`: room in the write buffer, the flush, the next frame. -/
inductive Stage
  | ready
  | flushing
  | awaiting
  deriving DecidableEq

structure Call (Req : Type) where
  id : ℕ
  request : Req
  stage : Stage

/-- The client, the server and the two directions of the socket. What stands after `wire` is a
record of the run that no step reads. -/
structure System (Req Resp Ev : Type) where
  nextId : ℕ
  current : Option (Call Req)
  /-- Encoded frames the socket has not taken yet; a dropped `send` leaves its frame here. -/
  writeBuf : List (ℕ × Req)
  received : List (ℕ × Req)
  wire : List (IpcMessage Req Resp Ev)
  answered : List (ℕ × Resp)
  completed : List (ℕ × Req)
  timedOut : List ℕ
  results : List (ℕ × Except (ClientError Req Resp Ev) Resp)

def System.init : System Req Resp Ev := ⟨1, none, [], [], [], [], [], [], []⟩

def System.finish (s : System Req Resp Ev) (c : Call Req) (r : Except (ClientError Req Resp Ev) Resp) :
    System Req Resp Ev :=
  { s with current := none, completed := s.completed ++ [(c.id, c.request)], results := s.results ++ [(c.id, r)] }

inductive Move (Req Resp Ev : Type)
  | call (req : Req)
  | encode
  | write
  | sent
  | answer (id : ℕ) (resp : Resp)
  | event (e : Ev)
  | read
  | timeout

def step (fits : Req → Bool) (s : System Req Resp Ev) : Move Req Resp Ev → Option (System Req Resp Ev)
  | .call req =>
    match s.current with
    | none => some { s with nextId := s.nextId + 1, current := some ⟨s.nextId, req, .ready⟩ }
    | some _ => none
  | .encode =>
    match s.current with
    | some ⟨id, req, .ready⟩ =>
      if fits req then
        some { s with current := some ⟨id, req, .flushing⟩, writeBuf := s.writeBuf ++ [(id, req)] }
      else some (s.finish ⟨id, req, .ready⟩ (.error .io))
    | _ => none
  | .write =>
    match s.current, s.writeBuf with
    | some c, frame :: rest =>
      if c.stage = .awaiting then none else some { s with writeBuf := rest, received := s.received ++ [frame] }
    | _, _ => none
  | .sent =>
    match s.current, s.writeBuf with
    | some ⟨id, req, .flushing⟩, [] => some { s with current := some ⟨id, req, .awaiting⟩ }
    | _, _ => none
  | .answer id resp =>
    if s.received.any (·.1 == id) then
      some { s with
        received := s.received.filter (·.1 != id)
        wire := s.wire ++ [⟨id, .response resp⟩]
        answered := s.answered ++ [(id, resp)] }
    else none
  | .event e => some { s with wire := s.wire ++ [⟨0, .event e⟩] }
  | .read =>
    match s.current, s.wire with
    | some ⟨id, req, .awaiting⟩, reply :: rest =>
      match replyTurn id reply with
      | none => some { s with wire := rest }
      | some r => some ({ s with wire := rest }.finish ⟨id, req, .awaiting⟩ r)
    | _, _ => none
  | .timeout =>
    match s.current with
    | some c => some { s with
        current := none
        timedOut := s.timedOut ++ [c.id]
        results := s.results ++ [(c.id, .error .timeout)] }
    | none => none

def run (fits : Req → Bool) (moves : List (Move Req Resp Ev)) : Option (System Req Resp Ev) :=
  moves.foldlM (step fits) .init

/-- Every call that did not time out returned the response the server gave to that call. -/
def Correlated (s : System Req Resp Ev) : Prop :=
  ∀ p ∈ s.results, p.2 = .error .timeout ∨ ∃ resp, p.2 = .ok resp ∧ (p.1, resp) ∈ s.answered

def AnsweredAhead (answered : List (ℕ × Resp)) (a b : ℕ) : Prop :=
  a ∈ (answered.map Prod.fst).takeWhile (· != b)

/-- No call that returned was too large for a frame, and none had the answer to an earlier,
timed-out call ahead of its own. -/
structure Orderly (fits : Req → Bool) (s : System Req Resp Ev) : Prop where
  small : ∀ c ∈ s.completed, fits c.2 = true
  first : ∀ c ∈ s.completed, ∀ t ∈ s.timedOut, t < c.1 → ¬ AnsweredAhead s.answered t c.1

/-! ## What a step does -/

inductive Steps (fits : Req → Bool) (s : System Req Resp Ev) : System Req Resp Ev → Prop
  | call (req : Req) (h : s.current = none) :
      Steps fits s { s with nextId := s.nextId + 1, current := some ⟨s.nextId, req, .ready⟩ }
  | encode (id : ℕ) (req : Req) (h : s.current = some ⟨id, req, .ready⟩) (hf : fits req = true) :
      Steps fits s { s with current := some ⟨id, req, .flushing⟩, writeBuf := s.writeBuf ++ [(id, req)] }
  | refuse (id : ℕ) (req : Req) (h : s.current = some ⟨id, req, .ready⟩) (hf : fits req = false) :
      Steps fits s (s.finish ⟨id, req, .ready⟩ (.error .io))
  | write (frame : ℕ × Req) (rest : List (ℕ × Req)) (h : s.writeBuf = frame :: rest) :
      Steps fits s { s with writeBuf := rest, received := s.received ++ [frame] }
  | sent (id : ℕ) (req : Req) (h : s.current = some ⟨id, req, .flushing⟩) :
      Steps fits s { s with current := some ⟨id, req, .awaiting⟩ }
  | answer (id : ℕ) (resp : Resp) (h : id ∈ s.received.map Prod.fst) :
      Steps fits s { s with
        received := s.received.filter (·.1 != id)
        wire := s.wire ++ [⟨id, .response resp⟩]
        answered := s.answered ++ [(id, resp)] }
  | event (e : Ev) : Steps fits s { s with wire := s.wire ++ [⟨0, .event e⟩] }
  | skip (reply : IpcMessage Req Resp Ev) (rest : List (IpcMessage Req Resp Ev)) (e : Ev)
      (hw : s.wire = reply :: rest) (he : reply.payload = .event e) : Steps fits s { s with wire := rest }
  | read (id : ℕ) (req : Req) (reply : IpcMessage Req Resp Ev) (rest : List (IpcMessage Req Resp Ev))
      (r : Except (ClientError Req Resp Ev) Resp) (h : s.current = some ⟨id, req, .awaiting⟩)
      (hw : s.wire = reply :: rest) (hr : replyTurn id reply = some r) :
      Steps fits s ({ s with wire := rest }.finish ⟨id, req, .awaiting⟩ r)
  | timeout (c : Call Req) (h : s.current = some c) :
      Steps fits s { s with
        current := none
        timedOut := s.timedOut ++ [c.id]
        results := s.results ++ [(c.id, .error .timeout)] }

theorem replyTurn_eq_none {id : ℕ} {reply : IpcMessage Req Resp Ev} (h : replyTurn id reply = none) :
    ∃ e, reply.payload = .event e := by
  unfold replyTurn at h
  split at h
  · exact ⟨_, ‹_›⟩
  · split at h
    · cases h
    · split at h <;> cases h

theorem steps_of_step {fits : Req → Bool} {s s' : System Req Resp Ev} {m : Move Req Resp Ev}
    (h : step fits s m = some s') : Steps fits s s' := by
  cases m with
  | call req =>
    simp only [step] at h
    split at h <;> cases h
    exact .call req ‹_›
  | encode =>
    simp only [step] at h
    split at h
    · rename_i id req hc
      split at h <;> cases h
      · exact .encode id req hc ‹_›
      · exact .refuse id req hc (by simpa using ‹¬ fits req = true›)
    · cases h
  | write =>
    simp only [step] at h
    split at h
    · split at h <;> cases h
      exact .write _ _ ‹_›
    · cases h
  | sent =>
    simp only [step] at h
    split at h <;> cases h
    exact .sent _ _ ‹_›
  | answer id resp =>
    simp only [step] at h
    split at h <;> cases h
    exact .answer id resp (by simp_all)
  | event e =>
    cases h
    exact .event e
  | read =>
    simp only [step] at h
    split at h
    · split at h <;> cases h
      · obtain ⟨e, he⟩ := replyTurn_eq_none ‹_›
        exact .skip _ _ e ‹_› he
      · exact .read _ _ _ _ _ ‹_› ‹_› ‹_›
    · cases h
  | timeout =>
    simp only [step] at h
    split at h <;> cases h
    exact .timeout _ ‹_›

/-! ## What holds in every run -/

def System.sentIds (s : System Req Resp Ev) : List ℕ :=
  s.answered.map Prod.fst ++ (s.received.map Prod.fst ++ s.writeBuf.map Prod.fst)

def System.completedIds (s : System Req Resp Ev) : List ℕ := s.completed.map Prod.fst

structure Sound (fits : Req → Bool) (s : System Req Resp Ev) : Prop where
  nodup : s.sentIds.Nodup
  settled : ∀ id ∈ s.sentIds, id ∈ s.completedIds ∨ id ∈ s.timedOut ∨ ∃ c, s.current = some c ∧ c.id = id
  ended : ∀ id, id ∈ s.completedIds ∨ id ∈ s.timedOut → id < s.nextId
  apart : ∀ id ∈ s.completedIds, id ∉ s.timedOut
  now : ∀ c, s.current = some c → c.id + 1 = s.nextId ∧ c.id ∉ s.completedIds ∧ c.id ∉ s.timedOut
  unsent : ∀ c, s.current = some c → c.stage = .ready → c.id ∉ s.sentIds
  small : ∀ c, s.current = some c → c.stage ≠ .ready → fits c.request = true
  frames : ∀ m ∈ s.wire, (∃ e, m.payload = .event e) ∨ ∃ r, m.payload = .response r ∧ (m.id, r) ∈ s.answered
  oks : ∀ p ∈ s.results, ∀ r, p.2 = .ok r → (p.1, r) ∈ s.answered

theorem sound_init (fits : Req → Bool) : Sound fits (System.init : System Req Resp Ev) := by
  constructor <;> simp [System.init, System.sentIds, System.completedIds]

theorem replyTurn_ok {id : ℕ} {reply : IpcMessage Req Resp Ev} {resp : Resp} (h : replyTurn id reply = some (.ok resp)) :
    reply.id = id ∧ reply.payload = .response resp := by
  unfold replyTurn at h
  split at h
  · cases h
  · split at h
    · cases h
    · split at h <;> cases h
      exact ⟨by simp_all, ‹_›⟩

theorem Sound.sent_lt {fits : Req → Bool} {s : System Req Resp Ev} (hs : Sound fits s) :
    ∀ id ∈ s.sentIds, id < s.nextId := by
  intro id hid
  rcases hs.settled id hid with h | h | ⟨c, hc, rfl⟩
  · exact hs.ended id (.inl h)
  · exact hs.ended id (.inr h)
  · have := (hs.now c hc).1
    omega

theorem perm_sentIds_answer {fits : Req → Bool} {s : System Req Resp Ev} (hs : Sound fits s) {id : ℕ} (resp : Resp)
    (h : id ∈ s.received.map Prod.fst) :
    (System.sentIds { s with
      received := s.received.filter (·.1 != id)
      wire := s.wire ++ [⟨id, .response resp⟩]
      answered := s.answered ++ [(id, resp)] }).Perm s.sentIds := by
  have hnd : (s.received.map Prod.fst).Nodup := (List.nodup_append.mp (List.nodup_append.mp hs.nodup).2.1).1
  have hrec : (id :: (s.received.filter (·.1 != id)).map Prod.fst).Perm (s.received.map Prod.fst) := by
    have hf : (s.received.filter (·.1 != id)).map Prod.fst = (s.received.map Prod.fst).erase id := by
      rw [hnd.erase_eq_filter, List.filter_map]
      rfl
    rw [hf]
    exact (List.perm_cons_erase h).symm
  simp only [System.sentIds, List.map_append, List.map_cons, List.map_nil, List.append_assoc]
  exact (hrec.append_right _).append_left _

theorem Sound.leave {fits : Req → Bool} {s : System Req Resp Ev} (hs : Sound fits s) {c : Call Req}
    (h : s.current = some c) (i : ℕ) (hi : i ∈ s.sentIds) :
    i ∈ s.completedIds ∨ i ∈ s.timedOut ∨ i = c.id := by
  rcases hs.settled i hi with h' | h' | ⟨c', hc, rfl⟩
  · exact .inl h'
  · exact .inr (.inl h')
  · rw [h] at hc
    cases hc
    exact .inr (.inr rfl)

theorem Sound.finish {fits : Req → Bool} {s : System Req Resp Ev} (hs : Sound fits s) {c : Call Req}
    (h : s.current = some c) {r : Except (ClientError Req Resp Ev) Resp}
    (hr : ∀ resp, r = .ok resp → (c.id, resp) ∈ s.answered) : Sound fits (s.finish c r) := by
  obtain ⟨hnow, hnc, hnt⟩ := hs.now c h
  have hids : (s.finish c r).completedIds = s.completedIds ++ [c.id] := by
    simp [System.completedIds, System.finish]
  refine ⟨hs.nodup, fun i hi => ?_, fun i hi => ?_, ?_, nofun, nofun, nofun, hs.frames, ?_⟩
  · rw [hids]
    rcases hs.leave h i hi with h' | h' | rfl
    · exact .inl (List.mem_append_left _ h')
    · exact .inr (.inl h')
    · exact .inl (by simp)
  · rw [hids] at hi
    rcases hi with hi | hi
    · rcases List.mem_append.mp hi with hi | hi
      · exact hs.ended i (.inl hi)
      · rw [List.mem_singleton.mp hi]
        exact Nat.lt_of_succ_le hnow.le
    · exact hs.ended i (.inr hi)
  · rw [hids]
    intro i hi
    rcases List.mem_append.mp hi with hi | hi
    · exact hs.apart i hi
    · rw [List.mem_singleton.mp hi]
      exact hnt
  · intro p hp resp hpr
    rcases List.mem_append.mp hp with hp | hp
    · exact hs.oks p hp resp hpr
    · rw [List.mem_singleton.mp hp] at hpr ⊢
      exact hr resp hpr

theorem Sound.dropFrame {fits : Req → Bool} {s : System Req Resp Ev} (hs : Sound fits s)
    {reply : IpcMessage Req Resp Ev} {rest : List (IpcMessage Req Resp Ev)} (hw : s.wire = reply :: rest) :
    Sound fits { s with wire := rest } :=
  ⟨hs.nodup, hs.settled, hs.ended, hs.apart, hs.now, hs.unsent, hs.small,
    fun m hm => hs.frames m (hw ▸ List.mem_cons_of_mem _ hm), hs.oks⟩

section
variable {fits : Req → Bool} {s : System Req Resp Ev}

theorem Sound.call (hs : Sound fits s) (h : s.current = none) (req : Req) :
    Sound fits { s with nextId := s.nextId + 1, current := some ⟨s.nextId, req, .ready⟩ } := by
  refine ⟨hs.nodup, fun id hid => ?_, fun id hid => (hs.ended id hid).trans (Nat.lt_succ_self _), hs.apart, ?_, ?_, ?_,
    hs.frames, hs.oks⟩
  · rcases hs.settled id hid with h' | h' | ⟨c, hc, -⟩
    · exact .inl h'
    · exact .inr (.inl h')
    · rw [h] at hc
      cases hc
  · rintro _ ⟨⟩
    have hnew : ¬ (s.nextId ∈ s.completedIds ∨ s.nextId ∈ s.timedOut) := fun hold => absurd (hs.ended _ hold) (lt_irrefl _)
    exact ⟨rfl, fun h' => hnew (.inl h'), fun h' => hnew (.inr h')⟩
  · rintro _ ⟨⟩ - hid
    exact absurd (hs.sent_lt _ hid) (lt_irrefl _)
  · rintro _ ⟨⟩ hne
    exact absurd rfl hne

/-- Encoding moves the frame to the write buffer, which counts as sent. -/
theorem Sound.encode (hs : Sound fits s) {id : ℕ} {req : Req} (h : s.current = some ⟨id, req, .ready⟩)
    (hf : fits req = true) :
    Sound fits { s with current := some ⟨id, req, .flushing⟩, writeBuf := s.writeBuf ++ [(id, req)] } := by
  have hsent : System.sentIds { s with current := some ⟨id, req, .flushing⟩, writeBuf := s.writeBuf ++ [(id, req)] } =
      s.sentIds ++ [id] := by simp [System.sentIds]
  refine ⟨?_, fun i hi => ?_, hs.ended, hs.apart, ?_, ?_, ?_, hs.frames, hs.oks⟩
  · rw [hsent]
    exact hs.nodup.append (List.nodup_singleton id) (by simpa using hs.unsent _ h rfl)
  · rw [hsent] at hi
    rcases List.mem_append.mp hi with hi | hi
    · rcases hs.leave h i hi with h' | h' | rfl
      · exact .inl h'
      · exact .inr (.inl h')
      · exact .inr (.inr ⟨_, rfl, rfl⟩)
    · exact .inr (.inr ⟨_, rfl, (List.mem_singleton.mp hi).symm⟩)
  · rintro _ ⟨⟩
    exact hs.now ⟨id, req, .ready⟩ h
  · rintro _ ⟨⟩ hst
    cases hst
  · rintro _ ⟨⟩ -
    exact hf

/-- The frame goes from the buffer to the daemon, and stays sent. -/
theorem Sound.write (hs : Sound fits s) {frame : ℕ × Req} {rest : List (ℕ × Req)} (h : s.writeBuf = frame :: rest) :
    Sound fits { s with writeBuf := rest, received := s.received ++ [frame] } := by
  have hsent : System.sentIds { s with writeBuf := rest, received := s.received ++ [frame] } = s.sentIds := by
    simp [System.sentIds, h]
  refine ⟨?_, fun i hi => hs.settled i (hsent ▸ hi), hs.ended, hs.apart, hs.now, fun c hc hst hi => ?_, hs.small, hs.frames, hs.oks⟩
  · rw [hsent]
    exact hs.nodup
  · rw [hsent] at hi
    exact hs.unsent c hc hst hi

theorem Sound.sent (hs : Sound fits s) {id : ℕ} {req : Req} (h : s.current = some ⟨id, req, .flushing⟩) :
    Sound fits { s with current := some ⟨id, req, .awaiting⟩ } := by
  refine ⟨hs.nodup, fun i hi => ?_, hs.ended, hs.apart, ?_, ?_, ?_, hs.frames, hs.oks⟩
  · rcases hs.leave h i hi with h' | h' | rfl
    · exact .inl h'
    · exact .inr (.inl h')
    · exact .inr (.inr ⟨_, rfl, rfl⟩)
  · rintro _ ⟨⟩
    exact hs.now ⟨id, req, .flushing⟩ h
  · rintro _ ⟨⟩ hst
    cases hst
  · rintro _ ⟨⟩ -
    exact hs.small ⟨id, req, .flushing⟩ h (by simp)

/-- Answers come in any order: the sent ids are only permuted. -/
theorem Sound.answer (hs : Sound fits s) {id : ℕ} (h : id ∈ s.received.map Prod.fst) (resp : Resp) :
    Sound fits { s with
      received := s.received.filter (·.1 != id)
      wire := s.wire ++ [⟨id, .response resp⟩]
      answered := s.answered ++ [(id, resp)] } := by
  have hperm := perm_sentIds_answer hs resp h
  refine ⟨hperm.nodup_iff.mpr hs.nodup, fun i hi => hs.settled i (hperm.mem_iff.mp hi), hs.ended, hs.apart, hs.now,
    fun c hc hst hi => hs.unsent c hc hst (hperm.mem_iff.mp hi), hs.small, fun m hm => ?_,
    fun p hp r hr => List.mem_append_left _ (hs.oks p hp r hr)⟩
  rcases List.mem_append.mp hm with hm | hm
  · rcases hs.frames m hm with h' | ⟨r, hr, hmem⟩
    · exact .inl h'
    · exact .inr ⟨r, hr, List.mem_append_left _ hmem⟩
  · rw [List.mem_singleton.mp hm]
    exact .inr ⟨resp, rfl, by simp⟩

theorem Sound.event (hs : Sound fits s) (e : Ev) : Sound fits { s with wire := s.wire ++ [⟨0, .event e⟩] } := by
  refine ⟨hs.nodup, hs.settled, hs.ended, hs.apart, hs.now, hs.unsent, hs.small, fun m hm => ?_, hs.oks⟩
  rcases List.mem_append.mp hm with hm | hm
  · exact hs.frames m hm
  · rw [List.mem_singleton.mp hm]
    exact .inl ⟨e, rfl⟩

/-- A read that succeeds took a frame the daemon wrote for this id. -/
theorem Sound.read (hs : Sound fits s) {id : ℕ} {req : Req} {reply : IpcMessage Req Resp Ev}
    {rest : List (IpcMessage Req Resp Ev)} {r : Except (ClientError Req Resp Ev) Resp} (h : s.current = some ⟨id, req, .awaiting⟩)
    (hw : s.wire = reply :: rest) (hr : replyTurn id reply = some r) :
    Sound fits ({ s with wire := rest }.finish ⟨id, req, .awaiting⟩ r) := by
  refine (hs.dropFrame hw).finish h ?_
  rintro resp rfl
  obtain ⟨rfl, hp⟩ := replyTurn_ok hr
  rcases hs.frames reply (hw ▸ List.mem_cons_self) with ⟨e, he⟩ | ⟨resp', hresp, hmem⟩
  · rw [hp] at he
    cases he
  · rw [hp] at hresp
    cases hresp
    exact hmem

/-- The call given up moves to the timed out ones, and was never completed. -/
theorem Sound.timeout (hs : Sound fits s) {c : Call Req} (h : s.current = some c) :
    Sound fits { s with
      current := none
      timedOut := s.timedOut ++ [c.id]
      results := s.results ++ [(c.id, .error .timeout)] } := by
  obtain ⟨hnow, hnc, hnt⟩ := hs.now c h
  refine ⟨hs.nodup, fun i hi => ?_, fun i hi => ?_, fun i hi hit => ?_, nofun, nofun, nofun, hs.frames, fun p hp r hr => ?_⟩
  · rcases hs.leave h i hi with h' | h' | rfl
    · exact .inl h'
    · exact .inr (.inl (List.mem_append_left _ h'))
    · exact .inr (.inl (by simp))
  · rcases hi with hi | hi
    · exact hs.ended i (.inl hi)
    · rcases List.mem_append.mp hi with hi | hi
      · exact hs.ended i (.inr hi)
      · rw [List.mem_singleton.mp hi]
        exact Nat.lt_of_succ_le hnow.le
  · rcases List.mem_append.mp hit with hit | hit
    · exact hs.apart i hi hit
    · exact hnc (List.mem_singleton.mp hit ▸ hi)
  · rcases List.mem_append.mp hp with hp | hp
    · exact hs.oks p hp r hr
    · rw [List.mem_singleton.mp hp] at hr
      cases hr

theorem Sound.step {s' : System Req Resp Ev} (hs : Sound fits s) (h : Steps fits s s') : Sound fits s' := by
  cases h with
  | call req h => exact hs.call h req
  | encode id req h hf => exact hs.encode h hf
  | refuse id req h hf => exact hs.finish h nofun
  | write frame rest h => exact hs.write h
  | sent id req h => exact hs.sent h
  | answer id resp h => exact hs.answer h resp
  | event e => exact hs.event e
  | skip reply rest e hw he => exact hs.dropFrame hw
  | read id req reply rest r h hw hr => exact hs.read h hw hr
  | timeout c h => exact hs.timeout h

end

/-! ## Calls and answers, matched in order -/

def System.wireIds (s : System Req Resp Ev) : List ℕ :=
  s.wire.filterMap fun m => match m.payload with
    | .event _ => none
    | _ => some m.id

def Failed (s : System Req Resp Ev) : Prop := ∃ p ∈ s.results, ∃ e, p.2 = .error e ∧ e ≠ .timeout

theorem correlated_iff {fits : Req → Bool} {s : System Req Resp Ev} (hs : Sound fits s) :
    Correlated s ↔ ¬ Failed s := by
  constructor
  · rintro h ⟨p, hp, e, he, hne⟩
    rcases h p hp with h' | ⟨r, hr, -⟩
    · rw [he] at h'
      cases h'
      exact hne rfl
    · rw [he] at hr
      cases hr
  · intro h p hp
    cases hr : p.2 with
    | ok r => exact .inr ⟨r, rfl, hs.oks p hp r hr⟩
    | error e =>
      by_cases he : e = .timeout
      · exact .inl (by rw [he])
      · exact absurd ⟨p, hp, e, hr, he⟩ h

/-- As long as no call failed, the calls that returned took the answers in their order and
left the rest on the wire; a failure shows in the order of the answers. -/
def Matched (fits : Req → Bool) (s : System Req Resp Ev) : Prop :=
  (¬ Failed s ∧ Orderly fits s ∧ s.answered.map Prod.fst = s.completedIds ++ s.wireIds) ∨
    (Failed s ∧ ¬ Orderly fits s)

theorem answeredAhead_append {l : List (ℕ × Resp)} {a b : ℕ} (h : AnsweredAhead l a b) (l' : List (ℕ × Resp)) :
    AnsweredAhead (l ++ l') a b := by
  unfold AnsweredAhead at h ⊢
  rw [List.map_append, List.takeWhile_append]
  split
  · exact List.mem_append_left _ ((List.takeWhile_subset _) h)
  · exact h

theorem answeredAhead_append_iff {l l' : List (ℕ × Resp)} {a b : ℕ} (hb : b ∈ l.map Prod.fst) :
    AnsweredAhead (l ++ l') a b ↔ AnsweredAhead l a b := by
  unfold AnsweredAhead
  rw [List.map_append, List.takeWhile_append, if_neg]
  intro hlen
  have hall := List.takeWhile_eq_self_iff.mp ((List.takeWhile_sublist _).eq_of_length hlen)
  simpa using hall b hb

theorem Steps.grows {fits : Req → Bool} {s s' : System Req Resp Ev} (h : Steps fits s s') :
    s.completed ⊆ s'.completed ∧ s.timedOut ⊆ s'.timedOut ∧ s.results ⊆ s'.results ∧
      ∃ l, s'.answered = s.answered ++ l := by
  cases h with
  | answer id resp h => exact ⟨List.Subset.refl _, List.Subset.refl _, List.Subset.refl _, _, rfl⟩
  | refuse | read =>
    exact ⟨List.subset_append_left _ _, List.Subset.refl _, List.subset_append_left _ _, [], by simp [System.finish]⟩
  | timeout c h =>
    exact ⟨List.Subset.refl _, List.subset_append_left _ _, List.subset_append_left _ _, [], by simp⟩
  | _ => exact ⟨List.Subset.refl _, List.Subset.refl _, List.Subset.refl _, [], by simp⟩

theorem matched_of_failed {fits : Req → Bool} {s s' : System Req Resp Ev} (h : Steps fits s s') (hf : Failed s)
    (ho : ¬ Orderly fits s) : Matched fits s' := by
  obtain ⟨hc, ht, hr, l, ha⟩ := h.grows
  obtain ⟨p, hp, he⟩ := hf
  refine .inr ⟨⟨p, hr hp, he⟩, fun ho' => ho ⟨fun c hcm => ho'.small c (hc hcm), fun c hcm t htm hlt hah => ?_⟩⟩
  exact ho'.first c (hc hcm) t (ht htm) hlt (ha ▸ answeredAhead_append hah l)

theorem Matched.read {fits : Req → Bool} {s : System Req Resp Ev} (hs : Sound fits s) (hnf : ¬ Failed s)
    (ho : Orderly fits s) (hm : s.answered.map Prod.fst = s.completedIds ++ s.wireIds) {id : ℕ} {req : Req}
    {reply : IpcMessage Req Resp Ev} {rest : List (IpcMessage Req Resp Ev)} {r : Except (ClientError Req Resp Ev) Resp}
    (h : s.current = some ⟨id, req, .awaiting⟩) (hw : s.wire = reply :: rest) (hr : replyTurn id reply = some r) :
    Matched fits ({ s with wire := rest }.finish ⟨id, req, .awaiting⟩ r) := by
  obtain ⟨hnow, hnc, hnt⟩ := hs.now _ h
  obtain ⟨resp, hresp, hmem⟩ : ∃ resp, reply.payload = .response resp ∧ (reply.id, resp) ∈ s.answered := by
    rcases hs.frames reply (hw ▸ List.mem_cons_self) with ⟨e, he⟩ | h'
    · simp [replyTurn, he] at hr
    · exact h'
  have hwire : s.wireIds = reply.id :: System.wireIds { s with wire := rest } := by
    simp [System.wireIds, hw, hresp]
  rw [hwire] at hm
  -- an id is answered once, so what is ahead of it in the log is ahead of it on the wire
  have hnd : (s.completedIds ++ reply.id :: System.wireIds { s with wire := rest }).Nodup :=
    hm ▸ (List.nodup_append.mp hs.nodup).1
  have hpre : ∀ b, b ∉ s.completedIds → ∀ a, AnsweredAhead s.answered a b ↔
      a ∈ s.completedIds ++ (reply.id :: System.wireIds { s with wire := rest }).takeWhile (· != b) := by
    intro b hb a
    unfold AnsweredAhead
    rw [hm, List.takeWhile_append_of_pos]
    intro x hx
    have hxb : x ≠ b := fun hxb => hb (hxb ▸ hx)
    simpa using hxb
  -- the frame is the answer to this call, or to an earlier one that timed out
  by_cases hid : reply.id = id
  · have hok : r = .ok resp := by simpa [replyTurn, hresp, hid, eq_comm] using hr
    subst hok
    refine .inl ⟨?_, ⟨?_, ?_⟩, ?_⟩
    · rintro ⟨p, hp, e, he, hne⟩
      rcases List.mem_append.mp hp with hp | hp
      · exact hnf ⟨p, hp, e, he, hne⟩
      · rw [List.mem_singleton.mp hp] at he
        cases he
    · intro c hc
      rcases List.mem_append.mp hc with hc | hc
      · exact ho.small c hc
      · rw [List.mem_singleton.mp hc]
        exact hs.small _ h (by simp)
    · intro c hc t ht hlt hah
      rcases List.mem_append.mp hc with hc | hc
      · exact ho.first c hc t ht hlt hah
      · rw [List.mem_singleton.mp hc] at hah
        have hmem' := (hpre id hnc t).mp hah
        simp only [hid, List.takeWhile_cons, bne_self_eq_false, Bool.false_eq_true, if_false, List.append_nil] at hmem'
        exact hs.apart t hmem' ht
    · simp only [System.finish, System.completedIds, List.map_append, List.map_cons, List.map_nil] at hm ⊢
      rw [hm, hid]
      simp [System.wireIds]
  · have herr : r = .error (.idMismatch id reply.id) := by simpa [replyTurn, hresp, hid, eq_comm] using hr
    subst herr
    refine .inr ⟨⟨_, List.mem_append_right _ List.mem_cons_self, _, rfl, by simp⟩, fun ho' => ?_⟩
    have hsent : reply.id ∈ s.sentIds := List.mem_append_left _ (List.mem_map_of_mem hmem)
    have hnotc : reply.id ∉ s.completedIds := fun hin =>
      (List.nodup_append.mp hnd).2.2 _ hin _ List.mem_cons_self rfl
    -- an id that was sent, is not completed and is not this one has timed out
    have htimed : reply.id ∈ s.timedOut := by
      rcases hs.leave h _ hsent with h' | h' | h'
      · exact absurd h' hnotc
      · exact h'
      · exact absurd h' hid
    have hlt : reply.id < id := by
      have := hs.sent_lt _ hsent
      simp only at hnow
      omega
    refine ho'.first (id, req) (List.mem_append_right _ List.mem_cons_self) reply.id htimed hlt ?_
    exact (hpre id hnc reply.id).mpr (by simp [hid])

theorem Matched.step {fits : Req → Bool} {s s' : System Req Resp Ev} (hs : Sound fits s) (hmt : Matched fits s)
    (h : Steps fits s s') : Matched fits s' := by
  obtain ⟨hf, ho, hm⟩ | ⟨hf, ho⟩ := hmt
  -- once a call failed by itself, it stays failed
  swap
  · exact matched_of_failed h hf ho
  have hcompleted : ∀ c ∈ s.completed, c.1 ∈ s.answered.map Prod.fst := fun c hc =>
    hm ▸ List.mem_append_left _ (List.mem_map_of_mem hc)
  cases h with
  | call req h => exact .inl ⟨hf, ⟨ho.small, ho.first⟩, hm⟩
  | encode id req h hfit => exact .inl ⟨hf, ⟨ho.small, ho.first⟩, hm⟩
  | refuse id req h hfit =>
    -- a request too large for a frame fails, and then the calls are not orderly
    refine .inr ⟨⟨_, List.mem_append_right _ List.mem_cons_self, _, rfl, by simp⟩, fun ho' => ?_⟩
    have hfit' := ho'.small (id, req) (List.mem_append_right _ List.mem_cons_self)
    simp only at hfit'
    rw [hfit] at hfit'
    cases hfit'
  | write frame rest h => exact .inl ⟨hf, ⟨ho.small, ho.first⟩, hm⟩
  | sent id req h => exact .inl ⟨hf, ⟨ho.small, ho.first⟩, hm⟩
  | answer id resp h =>
    refine .inl ⟨hf, ⟨ho.small, fun c hc t ht hlt hah => ?_⟩, ?_⟩
    · exact ho.first c hc t ht hlt ((answeredAhead_append_iff (hcompleted c hc)).mp hah)
    · simp only [System.wireIds, System.completedIds, List.map_append, List.filterMap_append] at hm ⊢
      rw [hm]
      simp
  | event e =>
    refine .inl ⟨hf, ⟨ho.small, ho.first⟩, ?_⟩
    simpa [System.wireIds, System.completedIds] using hm
  | skip reply rest e hw he =>
    refine .inl ⟨hf, ⟨ho.small, ho.first⟩, ?_⟩
    simpa [System.wireIds, System.completedIds, hw, he] using hm
  | read id req reply rest r h hw hr => exact Matched.read hs hf ho hm h hw hr
  | timeout c h =>
    have hnow := (hs.now c h).1
    refine .inl ⟨?_, ⟨ho.small, fun d hd t ht hlt hah => ?_⟩, hm⟩
    · rintro ⟨p, hp, e, he, hne⟩
      rcases List.mem_append.mp hp with hp | hp
      · exact hf ⟨p, hp, e, he, hne⟩
      · rw [List.mem_singleton.mp hp] at he
        cases he
        exact hne rfl
    · rcases List.mem_append.mp ht with ht | ht
      · exact ho.first d hd t ht hlt hah
      · rw [List.mem_singleton.mp ht] at hlt
        have := hs.ended d.1 (.inl (List.mem_map_of_mem hd))
        omega

theorem run_matched {fits : Req → Bool} (moves : List (Move Req Resp Ev)) {s s' : System Req Resp Ev}
    (hs : Sound fits s) (hm : Matched fits s) (h : moves.foldlM (step fits) s = some s') :
    Sound fits s' ∧ Matched fits s' := by
  induction moves generalizing s with
  | nil =>
    cases h
    exact ⟨hs, hm⟩
  | cons m moves ih =>
    rw [List.foldlM_cons] at h
    obtain ⟨s₁, h1, h2⟩ := Option.bind_eq_some_iff.mp h
    have hst := steps_of_step h1
    exact ih (hs.step hst) (hm.step hs hst) h2

/-- In every run, every call that returned has its own response exactly when none of them was
too large to send and none had the answer to an earlier, timed-out call ahead of its own. -/
theorem correlated_iff_orderly {fits : Req → Bool} {moves : List (Move Req Resp Ev)} {s : System Req Resp Ev}
    (h : run fits moves = some s) : Correlated s ↔ Orderly fits s := by
  have hinit : Matched fits (System.init : System Req Resp Ev) :=
    .inl ⟨fun ⟨_, hp, _⟩ => absurd hp List.not_mem_nil, ⟨nofun, nofun⟩, rfl⟩
  obtain ⟨hs, hm⟩ := run_matched moves (sound_init fits) hinit h
  rw [correlated_iff hs]
  rcases hm with ⟨hf, ho, -⟩ | ⟨hf, ho⟩
  · exact iff_of_true hf ho
  · exact iff_of_false (not_not_intro hf) ho

/-- The first call times out unanswered; an event and the second call's own answer follow, and
the late answer stays on the wire. -/
theorem correlated_unanswered : ∃ s : System Unit String Unit,
    run (fun _ => true) [.call (), .encode, .write, .sent, .timeout, .call (), .encode, .write, .sent,
      .event (), .answer 2 "two", .read, .read, .answer 1 "one"] = some s ∧ Correlated s := by
  have hrun : run (fun _ => true) [.call (), .encode, .write, .sent, .timeout, .call (), .encode, .write, .sent,
      .event (), .answer 2 "two", .read, .read, .answer 1 "one"] =
      some (⟨3, none, [], [], [⟨1, .response "one"⟩], [(2, "two"), (1, "one")], [(2, ())], [1],
        [(1, .error .timeout), (2, .ok "two")]⟩ : System Unit String Unit) := rfl
  exact ⟨_, hrun, (correlated_iff_orderly hrun).mpr ⟨by simp, by simp [AnsweredAhead]⟩⟩

/-- The same two calls, the late answer first: the second call ends in `IdMismatch`. -/
theorem idMismatch_after_timeout : ∃ s : System Unit String Unit,
    run (fun _ => true) [.call (), .encode, .write, .sent, .timeout, .answer 1 "one", .call (), .encode, .write, .sent,
      .answer 2 "two", .read] = some s ∧ (2, .error (.idMismatch 2 1)) ∈ s.results ∧ ¬ Correlated s := by
  have hrun : run (fun _ => true) [.call (), .encode, .write, .sent, .timeout, .answer 1 "one", .call (), .encode,
      .write, .sent, .answer 2 "two", .read] =
      some (⟨3, none, [], [], [⟨2, .response "two"⟩], [(1, "one"), (2, "two")], [(2, ())], [1],
        [(1, .error .timeout), (2, .error (.idMismatch 2 1))]⟩ : System Unit String Unit) := rfl
  refine ⟨_, hrun, by simp, fun h => ?_⟩
  rcases h (2, .error (.idMismatch 2 1)) (by simp) with h' | ⟨r, hr, -⟩
  · cases h'
  · cases hr

end CognitiveMemory.Client
