import CognitiveMemory.Client
import CognitiveMemory.Daemon.Dispatch
import CognitiveMemory.Daemon.Instants
import CognitiveMemory.Daemon.Lanes
import CognitiveMemory.Daemon.ReadYourWrites
import CognitiveMemory.Lib.Arrivals

/-! Clients and the daemon together: calls on any number of connections, their requests in the pool of the
daemon as they come in, and the answers on their way back. -/

namespace CognitiveMemory.Client
variable {Req Resp Ev : Type}

def Move.made : Move Req Resp Ev → List Req
  | .call req => [req]
  | _ => []

def Move.answers : Move Req Resp Ev → Prop
  | .answer .. | .event _ => True
  | _ => False

structure Recorded (made : List Req) (s : System Req Resp Ev) : Prop where
  next : s.nextId = made.length + 1
  current : ∀ c, s.current = some c → (c.request, c.id) ∈ made.zipIdx 1
  frames : ∀ f ∈ s.writeBuf ++ s.received, (f.2, f.1) ∈ made.zipIdx 1

theorem recorded_init : Recorded [] (.init : System Req Resp Ev) := ⟨rfl, nofun, nofun⟩

variable {made : List Req} {s s' : System Req Resp Ev}

theorem Recorded.call (h : Recorded made s) (req : Req) : Recorded (made ++ [req])
    { s with nextId := s.nextId + 1, current := some ⟨s.nextId, req, .ready⟩ } := by
  have hgrows : (made ++ [req]).zipIdx 1 = made.zipIdx 1 ++ [(req, s.nextId)] := by
    rw [List.zipIdx_append, h.next, Nat.add_comm made.length 1]
    rfl
  refine ⟨?_, ?_, fun f hf => ?_⟩
  · rw [List.length_append, h.next]
    rfl
  · rintro _ ⟨⟩
    rw [hgrows]
    exact List.mem_append_right _ (List.mem_singleton_self _)
  · rw [hgrows]
    exact List.mem_append_left _ (h.frames f hf)

theorem made_cases {fits : Req → Bool} {m : Move Req Resp Ev} (hs : step fits s m = some s') :
    (∃ req, m = .call req ∧ s' = { s with nextId := s.nextId + 1, current := some ⟨s.nextId, req, .ready⟩ }) ∨
      m.made = [] ∧ s'.nextId = s.nextId := by
  cases m with
  | call req =>
    simp only [step] at hs
    split at hs <;> cases hs
    exact .inl ⟨req, rfl, rfl⟩
  | event e =>
    cases hs
    exact .inr ⟨rfl, rfl⟩
  | encode | write | sent | answer | read | timeout =>
    simp only [step] at hs
    repeat' split at hs
    all_goals
      cases hs
      try exact .inr ⟨rfl, rfl⟩

theorem Recorded.rest {fits : Req → Bool} (h : Recorded made s) (hs : Steps fits s s') (hnext : s'.nextId = s.nextId) :
    Recorded made s' := by
  obtain ⟨hn, hc, hf⟩ := h
  cases hs with
  | call => exact absurd hnext (Nat.succ_ne_self _)
  | encode id req hcur _ =>
    have hnow := hc _ hcur
    refine ⟨hn, ?_, fun f hf' => ?_⟩
    · rintro _ ⟨⟩
      exact hnow
    · simp only [List.mem_append, List.mem_singleton] at hf' hf
      obtain (hbuf | rfl) | hrec := hf'
      · exact hf f (.inl hbuf)
      · exact hnow
      · exact hf f (.inr hrec)
  | refuse => exact ⟨hn, nofun, hf⟩
  | write frame rest hbuf =>
    refine ⟨hn, hc, fun f hf' => hf f ?_⟩
    rw [hbuf]
    simp only [List.mem_append, List.mem_cons, List.not_mem_nil, or_false] at hf' ⊢
    tauto
  | sent id req hcur =>
    have hnow := hc _ hcur
    refine ⟨hn, ?_, hf⟩
    rintro _ ⟨⟩
    exact hnow
  | answer id resp _ =>
    refine ⟨hn, hc, fun f hf' => hf f ?_⟩
    obtain hbuf | hrec := List.mem_append.mp hf'
    · exact List.mem_append_left _ hbuf
    · exact List.mem_append_right _ (List.mem_filter.mp hrec).1
  | event | skip => exact ⟨hn, hc, hf⟩
  | read | timeout => exact ⟨hn, nofun, hf⟩

theorem Recorded.step {fits : Req → Bool} {m : Move Req Resp Ev} (h : Recorded made s) (hs : step fits s m = some s') :
    Recorded (made ++ m.made) s' := by
  obtain ⟨req, rfl, rfl⟩ | ⟨hnone, hnext⟩ := made_cases hs
  · exact h.call req
  · rw [hnone, List.append_nil]
    exact h.rest (steps_of_step hs) hnext

/-- Only the daemon's end answers and announces; what comes in there was waiting to be written. -/
theorem answered_step {fits : Req → Bool} {m : Move Req Resp Ev} (hs : Client.step fits s m = some s') (hm : ¬ m.answers) :
    s'.answered = s.answered ∧ ∃ frames, s'.received = s.received ++ frames ∧ ∀ f ∈ frames, f ∈ s.writeBuf := by
  cases m with
  | answer | event => exact (hm trivial).elim
  | write =>
    simp only [Client.step] at hs
    split at hs
    · rename_i c frame rest hcurrent hbuf
      split at hs <;> cases hs
      refine ⟨rfl, [frame], rfl, fun f hf => ?_⟩
      rw [hbuf, List.mem_singleton.mp hf]
      exact List.mem_cons_self
    · cases hs
  | call | encode | sent | read | timeout =>
    simp only [Client.step] at hs
    repeat' split at hs
    all_goals
      cases hs
      try exact ⟨rfl, [], (List.append_nil _).symm, fun f hf => absurd hf List.not_mem_nil⟩

/-- An answer is to a frame that has come in, and takes it away. -/
theorem answer_step {fits : Req → Bool} {id : ℕ} {resp : Resp} (hs : Client.step fits s (.answer id resp) = some s') :
    s'.answered = s.answered ++ [(id, resp)] ∧ id ∈ s.received.map Prod.fst ∧
      ∀ j, j ∈ s'.received.map Prod.fst ↔ j ∈ s.received.map Prod.fst ∧ j ≠ id := by
  simp only [Client.step] at hs
  split at hs <;> cases hs
  rename_i hany
  refine ⟨rfl, by simpa using hany, fun j => ?_⟩
  simp only [List.mem_map, List.mem_filter, bne_iff_ne]
  constructor
  · rintro ⟨f, ⟨hf, hne⟩, rfl⟩
    exact ⟨⟨f, hf, rfl⟩, hne⟩
  · rintro ⟨⟨f, hf, rfl⟩, hne⟩
    exact ⟨f, ⟨hf, hne⟩, rfl⟩

end CognitiveMemory.Client

namespace CognitiveMemory.Network
open Prog
variable {F : Type}

/-! ## Connections to one daemon -/

inductive Reply (F : Type)
  | subscribed
  | dispatched (result : Except Wire.ResponseError (ResponseData F))

/-- As `dispatch` answers what a handler came to. -/
def Reply.of (texts : Texts) (r : Except HandlerError (ResponseData F)) : Reply F :=
  .dispatched (r.mapError fun e => ⟨errorKindFor e, e.text texts, false⟩)

theorem Reply.of_ok {texts : Texts} {r : Except HandlerError (ResponseData F)} {response : ResponseData F}
    (h : Reply.dispatched (.ok response) = .of texts r) : r = .ok response := by
  cases r with
  | error e => cases h
  | ok response' =>
    cases h
    rfl

abbrev Side (F : Type) := Client.System Wire.Request (Reply F) Wire.Event

/-- The daemon, the users the connections said Hello for, and which requests and answers fit a frame. -/
structure Setting (F : Type) where
  app : AppState F
  bm25 : Bm25 F
  texts : Texts
  users : ℕ → String
  fits : Wire.Request → Bool
  fitsReply : Reply F → Bool

/-- The flags of the request loop of a connection. -/
structure Line where
  acceptRequests : Bool
  canSend : Bool
  shutdownRequested : Bool
  subscribed : Bool
  ended : Bool

def Line.new : Line := ⟨true, true, false, false, false⟩

/-- `calls` holds the connection and the id behind each task of the pool, `lost` those of the tasks joined
without an answer. -/
structure State (F : Type) where
  sides : ℕ → Side F
  lines : ℕ → Line
  calls : List (ℕ × ℕ)
  lost : List (ℕ × ℕ)
  pool : Requests F

/-- A move at a connection, a frame read by the daemon, a turn of a task, a task joined, and what ends the loop
of a connection. `snapshot` is the event read for a subscription that asks for one, if it could be. Tasks that
a loop drops when it ends may still take turns. -/
inductive Move (F : Type)
  | client (k : ℕ) (m : Client.Move Wire.Request (Reply F) Wire.Event)
  | accept (k : ℕ) (snapshot : Option Wire.Event)
  | task (i : ℕ)
  | reply (i : ℕ)
  | eof (k : ℕ)
  | decodeError (k : ℕ)
  | shutdown (k : ℕ)

def State.start (w : World F) : State F := ⟨fun _ => .init, fun _ => .new, [], [], .start w []⟩

def State.set (s : State F) (k : ℕ) (side : Side F) : State F := { s with sides := Function.update s.sides k side }

def State.line (s : State F) (k : ℕ) (line : Line) : State F := { s with lines := Function.update s.lines k line }

def State.lose (s : State F) (k id : ℕ) : State F := { s with lost := s.lost ++ [(k, id)] }

/-- The requests of a connection whose tasks have not been joined. -/
def State.working (s : State F) (k : ℕ) : List ℕ :=
  (s.calls.filter fun call => call.1 = k ∧ call.2 ∈ (s.sides k).received.map Prod.fst ∧ call ∉ s.lost).map Prod.snd

/-- The check at the foot of the loop. -/
def State.leave (s : State F) (k : ℕ) : State F :=
  if !(s.lines k).acceptRequests && (s.working k).isEmpty then s.line k { s.lines k with ended := true } else s

def State.listens (s : State F) (k : ℕ) : Bool := !(s.lines k).ended && (s.lines k).acceptRequests

def State.frame? (s : State F) (k : ℕ) : Option (ℕ × Wire.Request) :=
  (s.sides k).received.find? fun f => !s.calls.contains (k, f.1)

section
variable [Field F] [LinearOrder F]

def Setting.caller (g : Setting F) (k : ℕ) (req : Wire.Request) : Caller F := ⟨g.app, g.users k, req.request⟩

def subscription? : Wire.Request → Option Wire.SubscribeArgs
  | .memory (.subscribe args) => some args
  | _ => none

/-- An event goes out on a connection. -/
def announce (side : Side F) : Option Wire.Event → Side F
  | some e => { side with wire := side.wire ++ [⟨0, .event e⟩] }
  | none => side

variable [Elementary F]

/-- A subscription is answered at once, anything else is a task from now on. -/
def State.accept (g : Setting F) (s : State F) (k : ℕ) (snapshot : Option Wire.Event) : Option (State F) :=
  if s.listens k then
    match s.frame? k with
    | none => none
    | some (id, req) =>
      match subscription? req with
      | some args => (Client.step g.fits (s.sides k) (.answer id .subscribed)).map fun side =>
          (s.set k (announce side (if args.replaySnapshot then snapshot else none))).line k
            { s.lines k with subscribed := true }
      | none => some { s with
          calls := s.calls ++ [(k, id)]
          pool := s.pool.enter [(g.caller k req, handleRequest g.app req.request (g.users k))] }
  else none

/-- The answer of a task that has ended goes where its request came from, unless it does not fit a frame, or
one before it did not. -/
def State.reply (g : Setting F) (s : State F) (i : ℕ) : Option (State F) :=
  match s.calls[i]?, s.pool.tasks[i]?.bind fun task => task.2.ended? with
  | some (k, id), some r =>
    if (s.lines k).ended || !(s.working k).contains id then none
    else if !(s.lines k).canSend then some ((s.lose k id).leave k)
    else if g.fitsReply (.of g.texts r) then
      (Client.step g.fits (s.sides k) (.answer id (.of g.texts r))).map fun side => (s.set k side).leave k
    else some (((s.lose k id).line k { s.lines k with canSend := false, acceptRequests := false }).leave k)
  | _, _ => none

def step (g : Setting F) (s : State F) : Move F → Option (State F)
  | .client _ (.answer ..) => none
  | .client k (.event e) =>
    if (s.lines k).ended || !(s.lines k).subscribed then none else some ((s.set k (announce (s.sides k) (some e))).leave k)
  | .client k m => (Client.step g.fits (s.sides k) m).map (s.set k)
  | .accept k snapshot => s.accept g k snapshot
  | .task i => if i < s.pool.tasks.length then some { s with pool := s.pool.turn (exec g.bm25) i } else none
  | .reply i => s.reply g i
  | .eof k => if s.listens k && (s.frame? k).isNone then some (s.line k { s.lines k with ended := true }) else none
  | .decodeError k => if s.listens k then some (s.line k { s.lines k with ended := true }) else none
  | .shutdown k =>
    if (s.lines k).ended || (s.lines k).shutdownRequested then none
    else some ((s.line k { s.lines k with shutdownRequested := true, acceptRequests := false }).leave k)

def run (g : Setting F) (s : State F) (moves : List (Move F)) : Option (State F) := moves.foldlM (step g) s

/-! ## What a move does -/

def State.callers (s : State F) : List (Caller F) := s.pool.tasks.map Prod.fst

def Move.made (k : ℕ) : Move F → List Wire.Request
  | .client k' m => if k' = k then m.made else []
  | _ => []

def made (k : ℕ) (moves : List (Move F)) : List Wire.Request := moves.flatMap (·.made k)

def turns (moves : List (Move F)) : List ℕ := moves.filterMap fun
  | .task i => some i
  | _ => none

structure State.Joins (s : State F) (i k id : ℕ) (t : Caller F) (r : Except HandlerError (ResponseData F)) : Prop where
  call : s.calls[i]? = some (k, id)
  task : s.pool.tasks[i]? = some (t, ofExcept r)
  live : (s.lines k).ended = false
  working : id ∈ s.working k

inductive Steps (g : Setting F) (s : State F) : Move F → State F → Prop
  | client (k : ℕ) (m : Client.Move Wire.Request (Reply F) Wire.Event) (side : Side F) (hm : ¬ m.answers)
      (h : Client.step g.fits (s.sides k) m = some side) : Steps g s (.client k m) (s.set k side)
  | event (k : ℕ) (e : Wire.Event) (hlive : (s.lines k).ended = false) (hsub : (s.lines k).subscribed = true) :
      Steps g s (.client k (.event e)) ((s.set k (announce (s.sides k) (some e))).leave k)
  | subscribe (k id : ℕ) (args : Wire.SubscribeArgs) (snapshot : Option Wire.Event) (side : Side F) (hlistens : s.listens k = true)
      (hframe : s.frame? k = some (id, .memory (.subscribe args)))
      (h : Client.step g.fits (s.sides k) (.answer id .subscribed) = some side) :
      Steps g s (.accept k snapshot) ((s.set k (announce side (if args.replaySnapshot then snapshot else none))).line k
        { s.lines k with subscribed := true })
  | accept (k id : ℕ) (req : Wire.Request) (snapshot : Option Wire.Event) (hlistens : s.listens k = true)
      (hframe : s.frame? k = some (id, req)) (hsub : subscription? req = none) : Steps g s (.accept k snapshot) { s with
        calls := s.calls ++ [(k, id)]
        pool := s.pool.enter [(g.caller k req, handleRequest g.app req.request (g.users k))] }
  | task (i : ℕ) (hi : i < s.pool.tasks.length) : Steps g s (.task i) { s with pool := s.pool.turn (exec g.bm25) i }
  | reply (i k id : ℕ) (t : Caller F) (r : Except HandlerError (ResponseData F)) (side : Side F)
      (hjoins : s.Joins i k id t r) (hsends : (s.lines k).canSend = true) (hfits : g.fitsReply (.of g.texts r) = true)
      (h : Client.step g.fits (s.sides k) (.answer id (.of g.texts r)) = some side) :
      Steps g s (.reply i) ((s.set k side).leave k)
  | mute (i k id : ℕ) (t : Caller F) (r : Except HandlerError (ResponseData F)) (hjoins : s.Joins i k id t r)
      (hmute : (s.lines k).canSend = false) : Steps g s (.reply i) ((s.lose k id).leave k)
  | oversize (i k id : ℕ) (t : Caller F) (r : Except HandlerError (ResponseData F)) (hjoins : s.Joins i k id t r)
      (hsends : (s.lines k).canSend = true) (hfits : g.fitsReply (.of g.texts r) = false) :
      Steps g s (.reply i) (((s.lose k id).line k { s.lines k with canSend := false, acceptRequests := false }).leave k)
  | eof (k : ℕ) (hlistens : s.listens k = true) (hread : s.frame? k = none) :
      Steps g s (.eof k) (s.line k { s.lines k with ended := true })
  | decodeError (k : ℕ) (hlistens : s.listens k = true) : Steps g s (.decodeError k) (s.line k { s.lines k with ended := true })
  | shutdown (k : ℕ) (hlive : (s.lines k).ended = false) (hfirst : (s.lines k).shutdownRequested = false) :
      Steps g s (.shutdown k) ((s.line k { s.lines k with shutdownRequested := true, acceptRequests := false }).leave k)

theorem joins_of_reply {g : Setting F} {s s' : State F} {i : ℕ} (h : s.reply g i = some s') : Steps g s (.reply i) s' := by
  unfold State.reply at h
  split at h
  · rename_i k id r hcall hended
    obtain ⟨⟨t, prog⟩, htask, hprog⟩ := Option.bind_eq_some_iff.mp hended
    obtain rfl := ended?_some hprog
    split at h
    · cases h
    rename_i hjoin
    simp only [Bool.or_eq_true, Bool.not_eq_true', List.contains_eq_mem, decide_eq_false_iff_not, not_or, Bool.not_eq_true,
      not_not] at hjoin
    have hjoins : s.Joins i k id t r := ⟨hcall, htask, hjoin.1, hjoin.2⟩
    split at h
    · rename_i hmute
      cases h
      exact .mute i k id t r hjoins (by simpa using hmute)
    rename_i hsends
    split at h
    · rename_i hfits
      obtain ⟨side, hside, rfl⟩ := Option.map_eq_some_iff.mp h
      exact .reply i k id t r side hjoins (by simpa using hsends) hfits hside
    · rename_i hfits
      cases h
      exact .oversize i k id t r hjoins (by simpa using hsends) (by simpa using hfits)
  · cases h

theorem accepts_of_accept {g : Setting F} {s s' : State F} {k : ℕ} {snapshot : Option Wire.Event}
    (h : s.accept g k snapshot = some s') : Steps g s (.accept k snapshot) s' := by
  unfold State.accept at h
  split at h
  · rename_i hlistens
    split at h
    · cases h
    · rename_i id req hframe
      split at h
      · rename_i args hsub
        obtain ⟨side, hside, rfl⟩ := Option.map_eq_some_iff.mp h
        obtain rfl : req = .memory (.subscribe args) := by
          unfold subscription? at hsub
          split at hsub <;> cases hsub
          rfl
        exact .subscribe k id args snapshot side hlistens hframe hside
      · rename_i hsub
        cases h
        exact .accept k id req snapshot hlistens hframe hsub
  · cases h

theorem steps_of_step {g : Setting F} {s s' : State F} {m : Move F} (h : step g s m = some s') : Steps g s m s' := by
  cases m with
  | client k m =>
    have hclient (hm : ¬ m.answers) (h : (Client.step g.fits (s.sides k) m).map (s.set k) = some s') :
        Steps g s (.client k m) s' := by
      obtain ⟨side, hside, rfl⟩ := Option.map_eq_some_iff.mp h
      exact .client k m side hm hside
    cases m with
    | answer => cases h
    | event e =>
      simp only [step] at h
      split at h
      · cases h
      · rename_i hopen
        simp only [Bool.or_eq_true, Bool.not_eq_true', not_or, Bool.not_eq_true, Bool.not_eq_false] at hopen
        cases h
        exact .event k e hopen.1 hopen.2
    | _ => exact hclient id h
  | accept k snapshot => exact accepts_of_accept h
  | task i =>
    simp only [step] at h
    split at h
    · rename_i hi
      cases h
      exact .task i hi
    · cases h
  | reply i => exact joins_of_reply h
  | eof k =>
    simp only [step] at h
    split at h
    · rename_i hopen
      obtain ⟨hlistens, hread⟩ := Bool.and_eq_true_iff.mp hopen
      cases h
      exact .eof k hlistens (Option.isNone_iff_eq_none.mp hread)
    · cases h
  | decodeError k =>
    simp only [step] at h
    split at h
    · rename_i hlistens
      cases h
      exact .decodeError k hlistens
    · cases h
  | shutdown k =>
    simp only [step] at h
    split at h
    · cases h
    · rename_i hopen
      simp only [Bool.or_eq_true, not_or, Bool.not_eq_true] at hopen
      cases h
      exact .shutdown k hopen.1 hopen.2

end

theorem State.set_self {s : State F} {k : ℕ} {side : Side F} : (s.set k side).sides k = side := Function.update_self ..

theorem State.set_ne {s : State F} {k k' : ℕ} {side : Side F} (h : k' ≠ k) : (s.set k side).sides k' = s.sides k' :=
  Function.update_of_ne h ..

theorem State.set_set {s : State F} {k : ℕ} {side side' : Side F} : (s.set k side).set k side' = s.set k side' :=
  congrArg (fun sides => { s with sides }) (Function.update_idem ..)

theorem State.leave_eq (s : State F) (k : ℕ) : ∃ lines, s.leave k = { s with lines } := by
  unfold State.leave
  split
  · exact ⟨_, rfl⟩
  · exact ⟨s.lines, rfl⟩

theorem turns_append (before after : List (Move F)) : turns (before ++ after) = turns before ++ turns after :=
  List.filterMap_append

theorem made_snoc (k : ℕ) (moves : List (Move F)) (m : Move F) : made k (moves ++ [m]) = made k moves ++ m.made k := by
  rw [made, List.flatMap_append, List.flatMap_singleton]
  rfl

theorem numbered_snoc {k id : ℕ} {req : Wire.Request} {moves : List (Move F)} (h : (req, id) ∈ (made k moves).zipIdx 1)
    (m : Move F) : (req, id) ∈ (made k (moves ++ [m])).zipIdx 1 := by
  rw [made_snoc, List.zipIdx_append]
  exact List.mem_append_left _ h

/-! ## Calls and tasks -/

/-- The call with this number on a connection was a subscription, or its task has ended and this is the answer. -/
def State.Answers (g : Setting F) (s : State F) (moves : List (Move F)) (k id : ℕ) (reply : Reply F) : Prop :=
  (reply = .subscribed ∧ ∃ args, (.memory (.subscribe args), id) ∈ (made k moves).zipIdx 1) ∨
    ∃ (i : ℕ) (t : Caller F) (r : Except HandlerError (ResponseData F)), s.calls[i]? = some (k, id) ∧
      s.pool.tasks[i]? = some (t, Prog.ofExcept r) ∧ reply = .of g.texts r

/-- A task is there for a call of its connection, on behalf of its user. -/
def Setting.Serves [Field F] (g : Setting F) (moves : List (Move F)) (call : ℕ × ℕ) (t : Caller F) : Prop :=
  ∃ req, (req, call.2) ∈ (made call.1 moves).zipIdx 1 ∧ t = g.caller call.1 req

structure Linked [Field F] [LinearOrder F] [Elementary F] (g : Setting F) (w : World F) (moves : List (Move F))
    (s : State F) : Prop where
  sound : ∀ k, Client.Sound g.fits (s.sides k)
  recorded : ∀ k, Client.Recorded (made k moves) (s.sides k)
  played : s.pool = (accepted w s.callers).play (exec g.bm25) (turns moves)
  there : ∀ i ∈ turns moves, i < s.callers.length
  calls : List.Forall₂ (g.Serves moves) s.calls s.callers
  once : s.calls.Nodup
  answers : ∀ k id reply, (id, reply) ∈ (s.sides k).answered → s.Answers g moves k id reply

variable {g : Setting F} {w : World F} {moves : List (Move F)} {s s' : State F} {m : Move F}

theorem linked_start [Field F] [LinearOrder F] [Elementary F] (g : Setting F) (w : World F) : Linked g w [] (.start w) where
  sound _ := Client.sound_init g.fits
  recorded _ := Client.recorded_init
  played := rfl
  there _ hi := (List.not_mem_nil hi).elim
  calls := .nil
  once := List.nodup_nil
  answers _ _ _ hmem := (List.not_mem_nil hmem).elim

theorem Setting.Serves.snoc [Field F] {call : ℕ × ℕ} {t : Caller F} (h : g.Serves moves call t) (m : Move F) :
    g.Serves (moves ++ [m]) call t := by
  obtain ⟨req, hreq, ht⟩ := h
  exact ⟨req, numbered_snoc hreq m, ht⟩

theorem State.Answers.snoc {k id : ℕ} {reply : Reply F} (h : s.Answers g moves k id reply) (m : Move F)
    (hcalls : ∀ (i : ℕ) call, s.calls[i]? = some call → s'.calls[i]? = some call)
    (hended : ∀ (i : ℕ) t r, s.pool.tasks[i]? = some (t, Prog.ofExcept r) → s'.pool.tasks[i]? = some (t, Prog.ofExcept r)) :
    s'.Answers g (moves ++ [m]) k id reply := by
  obtain ⟨hreply, args, hargs⟩ | ⟨i, t, r, hcall, htask, hreply⟩ := h
  · exact .inl ⟨hreply, args, numbered_snoc hargs m⟩
  · exact .inr ⟨i, t, r, hcalls i _ hcall, hended i t r htask, hreply⟩

theorem State.Answers.aside {k id : ℕ} {reply : Reply F} (h : s.Answers g moves k id reply) (m : Move F) (k' : ℕ)
    (side : Side F) : (s.set k' side).Answers g (moves ++ [m]) k id reply :=
  h.snoc m (fun _ _ hc => hc) fun _ _ _ ht => ht

section
variable [Field F] [LinearOrder F] [Elementary F]

theorem Linked.side (h : Linked g w moves s) {k : ℕ} {m : Client.Move Wire.Request (Reply F) Wire.Event} {move : Move F}
    {side : Side F} (hside : Client.step g.fits (s.sides k) m = some side)
    (hmade : ∀ k', move.made k' = if k' = k then m.made else []) (hidle : turns [move] = [])
    (hanswers : ∀ id reply, (id, reply) ∈ side.answered → (s.set k side).Answers g (moves ++ [move]) k id reply) :
    Linked g w (moves ++ [move]) (s.set k side) := by
  have hturns : turns (moves ++ [move]) = turns moves := by rw [turns_append, hidle, List.append_nil]
  refine ⟨fun k' => ?_, fun k' => ?_, ?_, ?_, ?_, h.once, fun k' id reply hmem => ?_⟩
  · by_cases hk : k' = k
    · subst hk
      rw [State.set_self]
      exact (h.sound k').step (Client.steps_of_step hside)
    · rw [State.set_ne hk]
      exact h.sound k'
  · rw [made_snoc, hmade]
    by_cases hk : k' = k
    · subst hk
      rw [State.set_self, if_pos rfl]
      exact (h.recorded k').step hside
    · rw [State.set_ne hk, if_neg hk, List.append_nil]
      exact h.recorded k'
  · rw [hturns]
    exact h.played
  · rw [hturns]
    exact h.there
  · exact h.calls.imp fun _ _ hserves => hserves.snoc move
  · by_cases hk : k' = k
    · subst hk
      rw [State.set_self] at hmem
      exact hanswers id reply hmem
    · rw [State.set_ne hk] at hmem
      exact (h.answers k' id reply hmem).aside move k side

theorem Linked.relined (h : Linked g w moves s) (lines : ℕ → Line) (lost : List (ℕ × ℕ)) :
    Linked g w moves { s with lines, lost } :=
  ⟨h.sound, h.recorded, h.played, h.there, h.calls, h.once, h.answers⟩

theorem Linked.leave (h : Linked g w moves s) (k : ℕ) : Linked g w moves (s.leave k) := by
  obtain ⟨lines, hlines⟩ := s.leave_eq k
  rw [hlines]
  exact h.relined lines s.lost

theorem Linked.idle (h : Linked g w moves s) (hmade : ∀ k, m.made k = []) (hidle : turns [m] = []) :
    Linked g w (moves ++ [m]) s := by
  have hturns : turns (moves ++ [m]) = turns moves := by rw [turns_append, hidle, List.append_nil]
  refine ⟨h.sound, fun k => ?_, ?_, ?_, ?_, h.once, fun k id reply hmem => ?_⟩
  · rw [made_snoc, hmade, List.append_nil]
    exact h.recorded k
  · rw [hturns]
    exact h.played
  · rw [hturns]
    exact h.there
  · exact h.calls.imp fun _ _ hserves => hserves.snoc m
  · exact (h.answers k id reply hmem).snoc m (fun _ _ hc => hc) fun _ _ _ ht => ht

theorem Linked.announce (h : Linked g w moves s) (k : ℕ) (event : Option Wire.Event) :
    Linked g w moves (s.set k (announce (s.sides k) event)) := by
  cases event with
  | none =>
    have hsame : s.set k (Network.announce (s.sides k) none) = s :=
      congrArg (fun sides => { s with sides }) (Function.update_eq_self ..)
    rw [hsame]
    exact h
  | some e =>
    have hside : Client.step g.fits (s.sides k) (.event e) = some (Network.announce (s.sides k) (some e)) := rfl
    refine ⟨fun k' => ?_, fun k' => ?_, h.played, h.there, h.calls, h.once, fun k' id reply hmem => ?_⟩
    · by_cases hk : k' = k
      · subst hk
        rw [State.set_self]
        exact (h.sound k').step (Client.steps_of_step hside)
      · rw [State.set_ne hk]
        exact h.sound k'
    · by_cases hk : k' = k
      · subst hk
        rw [State.set_self]
        have hrecorded := (h.recorded k').step hside
        exact (List.append_nil (made k' moves)) ▸ hrecorded
      · rw [State.set_ne hk]
        exact h.recorded k'
    · by_cases hk : k' = k
      · subst hk
        rw [State.set_self] at hmem
        exact h.answers k' id reply hmem
      · rw [State.set_ne hk] at hmem
        exact h.answers k' id reply hmem

omit [Field F] [LinearOrder F] [Elementary F] in
theorem frame?_some {k id : ℕ} {req : Wire.Request} (h : s.frame? k = some (id, req)) :
    (id, req) ∈ (s.sides k).received ∧ (k, id) ∉ s.calls := by
  obtain ⟨hnew, -⟩ := List.find?_eq_some_iff_append.mp h
  refine ⟨List.mem_of_find?_eq_some h, fun hold => ?_⟩
  rw [List.contains_iff_mem.mpr hold] at hnew
  exact Bool.false_ne_true hnew

theorem Linked.numbered (h : Linked g w moves s) {k id : ℕ} {req : Wire.Request} (hframe : s.frame? k = some (id, req)) :
    (req, id) ∈ (made k moves).zipIdx 1 :=
  (h.recorded k).frames _ (List.mem_append_right _ (frame?_some hframe).1)

theorem Linked.answer (h : Linked g w moves s) (move : Move F) {k id : ℕ} {reply : Reply F} {side : Side F}
    (hside : Client.step g.fits (s.sides k) (.answer id reply) = some side) (hmade : ∀ k', move.made k' = [])
    (hidle : turns [move] = []) (hreply : (s.set k side).Answers g (moves ++ [move]) k id reply) :
    Linked g w (moves ++ [move]) (s.set k side) := by
  refine h.side hside (fun k' => ?_) hidle fun id' reply' hmem => ?_
  · rw [hmade]
    exact (ite_self _).symm
  · rw [(Client.answer_step hside).1] at hmem
    obtain hold | hnew := List.mem_append.mp hmem
    · exact (h.answers k id' reply' hold).aside move k side
    · obtain ⟨rfl, rfl⟩ := Prod.mk.inj (List.mem_singleton.mp hnew)
      exact hreply

theorem Linked.entered (h : Linked g w moves s) (more : List (Caller F)) :
    (accepted w (s.callers ++ more)).play (exec g.bm25) (turns moves) =
      s.pool.enter (more.map fun t => (t, handleRequest t.app t.request t.user)) := by
  have hthere : ∀ i ∈ turns moves, i < (accepted w s.callers).tasks.length := by
    intro i hi
    simpa [accepted, Pool.start] using h.there i hi
  rw [accepted, List.map_append, ← Pool.start_enter, ← accepted, Pool.play_enter _ hthere, ← h.played]

theorem Linked.accept (h : Linked g w moves s) {k id : ℕ} {req : Wire.Request} (hframe : s.frame? k = some (id, req))
    (snapshot : Option Wire.Event) : Linked g w (moves ++ [.accept k snapshot]) { s with
      calls := s.calls ++ [(k, id)]
      pool := s.pool.enter [(g.caller k req, handleRequest g.app req.request (g.users k))] } := by
  let late := [(g.caller k req, handleRequest g.app req.request (g.users k))]
  have hcallers : (s.pool.enter late).tasks.map Prod.fst = s.callers ++ [g.caller k req] := List.map_append
  have hturns : turns (moves ++ [.accept k snapshot]) = turns moves := (turns_append ..).trans (List.append_nil _)
  have hmade (k' : ℕ) : made k' (moves ++ [.accept k snapshot]) = made k' moves := (made_snoc ..).trans (List.append_nil _)
  refine ⟨h.sound, fun k' => ?_, ?_, fun i hi => ?_, ?_, ?_, fun k' id' reply hmem => ?_⟩
  · rw [hmade]
    exact h.recorded k'
  · show s.pool.enter late = (accepted w ((s.pool.enter late).tasks.map Prod.fst)).play (exec g.bm25)
      (turns (moves ++ [.accept k snapshot]))
    rw [hturns, hcallers]
    exact (h.entered [g.caller k req]).symm
  · rw [hturns] at hi
    show i < ((s.pool.enter late).tasks.map Prod.fst).length
    rw [hcallers, List.length_append]
    exact Nat.lt_add_right _ (h.there i hi)
  · show List.Forall₂ _ (s.calls ++ [(k, id)]) ((s.pool.enter late).tasks.map Prod.fst)
    rw [hcallers]
    refine List.rel_append (h.calls.imp fun _ _ hserves => hserves.snoc _) (.cons ⟨req, ?_, rfl⟩ .nil)
    exact numbered_snoc (h.numbered hframe) _
  · exact h.once.append (List.nodup_singleton _) (List.disjoint_singleton.mpr (frame?_some hframe).2)
  · refine (h.answers k' id' reply hmem).snoc _ (fun i call hcall => ?_) fun i t r htask => Pool.ended_enter late htask
    exact (List.getElem?_append_left (List.getElem?_eq_some_iff.mp hcall).1).trans hcall

theorem Linked.task (h : Linked g w moves s) {i : ℕ} (hi : i < s.pool.tasks.length) :
    Linked g w (moves ++ [.task i]) { s with pool := s.pool.turn (exec g.bm25) i } := by
  have hcallers : (s.pool.turn (exec g.bm25) i).tasks.map Prod.fst = s.callers := Pool.labels_turn s.pool i
  have hturns : turns (moves ++ [.task i]) = turns moves ++ [i] := turns_append ..
  have hmade (k : ℕ) : made k (moves ++ [.task i]) = made k moves := (made_snoc ..).trans (List.append_nil _)
  refine ⟨h.sound, fun k => ?_, ?_, fun j hj => ?_, ?_, h.once, fun k id reply hmem => ?_⟩
  · rw [hmade]
    exact h.recorded k
  · show s.pool.turn (exec g.bm25) i = (accepted w ((s.pool.turn (exec g.bm25) i).tasks.map Prod.fst)).play (exec g.bm25) _
    rw [hcallers, hturns, Pool.play_append, ← h.played]
    rfl
  · show j < ((s.pool.turn (exec g.bm25) i).tasks.map Prod.fst).length
    rw [hcallers]
    rw [hturns] at hj
    obtain hold | hnew := List.mem_append.mp hj
    · exact h.there j hold
    · rw [List.mem_singleton.mp hnew, State.callers, List.length_map]
      exact hi
  · show List.Forall₂ _ s.calls ((s.pool.turn (exec g.bm25) i).tasks.map Prod.fst)
    rw [hcallers]
    exact h.calls.imp fun _ _ hserves => hserves.snoc _
  · exact (h.answers k id reply hmem).snoc _ (fun _ _ hc => hc) fun j t r htask => Pool.ended_turn htask i

theorem Linked.step (h : Linked g w moves s) (hstep : step g s m = some s') : Linked g w (moves ++ [m]) s' := by
  cases steps_of_step hstep with
  | client k m side hm hside =>
    refine h.side hside (fun k' => if_congr eq_comm rfl rfl) rfl fun id reply hmem => ?_
    rw [(Client.answered_step hside hm).1] at hmem
    exact (h.answers k id reply hmem).aside _ k side
  | event k e _ _ => exact ((h.announce k (some e)).idle (m := .client k (.event e)) (fun k' => ite_self []) rfl).leave k
  | subscribe k id args snapshot side _ hframe hside =>
    have hanswered := h.answer (.accept k snapshot) hside (fun _ => rfl) rfl
      (.inl ⟨rfl, args, numbered_snoc (h.numbered hframe) _⟩)
    have hannounced := hanswered.announce k (if args.replaySnapshot then snapshot else none)
    rw [State.set_set, State.set_self] at hannounced
    exact hannounced.relined _ _
  | accept k id req snapshot _ hframe _ => exact h.accept hframe snapshot
  | task i hi => exact h.task hi
  | reply i k id t r side hjoins _ _ hside =>
    exact (h.answer _ hside (fun _ => rfl) rfl (.inr ⟨i, t, r, hjoins.call, hjoins.task, rfl⟩)).leave k
  | mute i k id => exact ((h.idle (fun _ => rfl) rfl).relined _ _).leave k
  | oversize i k id => exact ((h.idle (fun _ => rfl) rfl).relined _ _).leave k
  | eof | decodeError => exact (h.idle (fun _ => rfl) rfl).relined _ _
  | shutdown k => exact ((h.idle (fun _ => rfl) rfl).relined _ _).leave k

theorem Linked.onward (h : Linked g w moves s) {more : List (Move F)} (hrun : run g s more = some s') :
    Linked g w (moves ++ more) s' := by
  induction more generalizing moves s with
  | nil =>
    cases hrun
    rw [List.append_nil]
    exact h
  | cons m more ih =>
    obtain ⟨s₁, hstep, hrest⟩ := Option.bind_eq_some_iff.mp hrun
    have hlinked := ih (h.step hstep) hrest
    rwa [List.append_assoc] at hlinked

/-- Whatever clients call and however the daemon gets on with it: the pool is what the requests accepted come
to by the turns taken, had they stood there from the start; there is one task at most for a call, with what
was called on behalf of the user of its connection; and what a call returns is what its task came to. -/
theorem calls_answered (g : Setting F) (w : World F) (moves : List (Move F)) {s : State F}
    (hrun : run g (.start w) moves = some s) :
    s.pool = (accepted w s.callers).play (exec g.bm25) (turns moves) ∧ s.calls.Nodup ∧
      List.Forall₂ (g.Serves moves) s.calls s.callers ∧
      ∀ k id reply, (id, .ok reply) ∈ (s.sides k).results → s.Answers g moves k id reply := by
  have hlinked : Linked g w moves s := (linked_start g w).onward hrun
  refine ⟨hlinked.played, hlinked.once, hlinked.calls, fun k id reply hmem => ?_⟩
  exact hlinked.answers k id reply ((hlinked.sound k).oks _ hmem reply rfl)

/-! ## One household -/

def household : Setting ℚ where
  app := .flat
  bm25 := .none
  texts := ⟨fun _ => "", fun _ => ""⟩
  users _ := "alice"
  fits _ := true
  fitsReply _ := true

def saveTea : Wire.Request := .memory (.store ⟨"alice", "tea", "semantic", "fact", "{}", none⟩)

def calling (k : ℕ) (req : Wire.Request) : List (Move ℚ) :=
  [.client k (.call req), .client k .encode, .client k .write, .client k .sent, .accept k none]

def teaSaved : List (Move ℚ) := calling 0 saveTea ++ List.replicate 9 (.task 0) ++ [.reply 0, .client 0 .read]

theorem teaSaved_run : ∃ s, run household (.start World.quiet) teaSaved = some s ∧
    (s.sides 0).results = [(1, .ok (.dispatched (.ok (.memoryStored "mem_"))))] ∧ (s.sides 1).nextId = 1 :=
  ⟨_, rfl, rfl, rfl⟩

theorem tea_answered : ∃ s, run household (.start World.quiet) teaSaved = some s ∧
    s.Answers household teaSaved 0 1 (.dispatched (.ok (.memoryStored "mem_"))) := by
  obtain ⟨s, hrun, hresults, -⟩ := teaSaved_run
  obtain ⟨-, -, -, hanswers⟩ := calls_answered household World.quiet teaSaved hrun
  refine ⟨s, hrun, hanswers 0 1 _ ?_⟩
  rw [hresults]
  exact List.mem_singleton_self _

/-! ## Moments of a run -/

theorem Steps.grows (h : Steps g s m s') : s.calls <+: s'.calls ∧ s.callers <+: s'.callers := by
  have hleave (s : State F) (k : ℕ) : (s.leave k).calls = s.calls ∧ (s.leave k).callers = s.callers := by
    obtain ⟨lines, hlines⟩ := s.leave_eq k
    rw [hlines]
    exact ⟨rfl, rfl⟩
  cases h with
  | client | subscribe | eof | decodeError => exact ⟨List.prefix_rfl, List.prefix_rfl⟩
  | event | reply | mute | oversize | shutdown =>
    rw [(hleave _ _).1, (hleave _ _).2]
    exact ⟨List.prefix_rfl, List.prefix_rfl⟩
  | accept k id req =>
    refine ⟨List.prefix_append _ _, ?_⟩
    rw [State.callers, State.callers, Pool.enter, List.map_append]
    exact List.prefix_append _ _
  | task i =>
    refine ⟨List.prefix_rfl, ?_⟩
    rw [State.callers, State.callers, Pool.labels_turn]

theorem grows_run {more : List (Move F)} (h : run g s more = some s') : s.calls <+: s'.calls ∧ s.callers <+: s'.callers := by
  induction more generalizing s with
  | nil =>
    cases h
    exact ⟨List.prefix_rfl, List.prefix_rfl⟩
  | cons m more ih =>
    obtain ⟨s₁, hstep, hrest⟩ := Option.bind_eq_some_iff.mp h
    obtain ⟨hcalls, hcallers⟩ := (steps_of_step hstep).grows
    obtain ⟨hcalls', hcallers'⟩ := ih hrest
    exact ⟨hcalls.trans hcalls', hcallers.trans hcallers'⟩

theorem run_append (before after : List (Move F)) :
    run g s (before ++ after) = (run g s before).bind fun s₁ => run g s₁ after :=
  List.foldlM_append

theorem Linked.among (h : Linked g w moves s) {ts : List (Caller F)} (hts : s.callers <+: ts) :
    ∃ late, (accepted w ts).play (exec g.bm25) (turns moves) = s.pool.enter late := by
  obtain ⟨more, rfl⟩ := hts
  exact ⟨_, h.entered more⟩

end

theorem turn_at {js : List ℕ} {i : ℕ} (h : js ++ [i] <+: turns moves) :
    ∃ during rest, moves = during ++ .task i :: rest ∧ turns during = js := by
  obtain ⟨tail, htail⟩ := h
  rw [List.append_assoc] at htail
  obtain ⟨first, second, hmoves, hfirst, hsecond⟩ := List.filterMap_eq_append_iff.mp htail.symm
  obtain ⟨idle, m, rest, rfl, hidle, hm, -⟩ := List.filterMap_eq_cons_iff.mp hsecond
  obtain rfl : m = .task i := by
    cases m <;> cases hm
    rfl
  refine ⟨first ++ idle, rest, ?_, ?_⟩
  · rw [hmoves, List.append_assoc]
  · rw [turns_append]
    have hnone : turns idle = [] := List.filterMap_eq_nil_iff.mpr hidle
    rw [hnone, List.append_nil]
    exact hfirst

theorem turns_ne {i : ℕ} {first first' rest rest' : List (Move F)} (h : first ++ rest = first' ++ .task i :: rest')
    (hrest : rest = [] ∨ ∃ more, rest = .task i :: more) (hne : first' ≠ first) : turns first' ≠ turns first := by
  have hlonger {a b tail : List (Move F)} (hab : b = a ++ .task i :: tail) : turns a ≠ turns b := by
    rw [hab, turns_append]
    exact fun heq => absurd (List.self_eq_append_right.mp heq) (by simp [turns])
  obtain ⟨mid, hmid, htail⟩ | ⟨mid, hmid, htail⟩ := List.append_eq_append_iff.mp h
  · cases mid with
    | nil => exact absurd (hmid.trans (List.append_nil _)) hne
    | cons m mid =>
      obtain rfl | ⟨more, rfl⟩ := hrest
      · cases htail
      · obtain ⟨rfl, -⟩ := List.cons.inj htail
        exact (hlonger hmid).symm
  · cases mid with
    | nil => exact absurd ((hmid.trans (List.append_nil _)).symm) hne
    | cons m mid =>
      obtain ⟨rfl, -⟩ := List.cons.inj htail
      exact hlonger hmid

theorem numbered_unique {k id : ℕ} {req req' : Wire.Request} (h : (req, id) ∈ (made k moves).zipIdx 1)
    (h' : (req', id) ∈ (made k moves).zipIdx 1) : req = req' := by
  obtain ⟨-, hget⟩ := List.mk_mem_zipIdx_iff_le_and_getElem?_sub.mp h
  obtain ⟨-, hget'⟩ := List.mk_mem_zipIdx_iff_le_and_getElem?_sub.mp h'
  exact Option.some.inj (hget.symm.trans hget')

variable [Field F] [LinearOrder F] [Elementary F]

theorem Linked.caller (h : Linked g w moves s) {i k id : ℕ} {req : Wire.Request} (hcall : s.calls[i]? = some (k, id))
    (hreq : (req, id) ∈ (made k moves).zipIdx 1) : s.callers[i]? = some (g.caller k req) := by
  have hlt : i < s.callers.length := by
    rw [← h.calls.length_eq]
    exact (List.getElem?_eq_some_iff.mp hcall).1
  obtain ⟨req', hreq', ht⟩ := h.calls.get (List.getElem?_eq_some_iff.mp hcall).1 hlt
  have hget : s.calls.get ⟨i, (List.getElem?_eq_some_iff.mp hcall).1⟩ = (k, id) := (List.getElem?_eq_some_iff.mp hcall).2
  rw [hget] at hreq' ht
  rw [List.getElem?_eq_getElem hlt]
  refine congrArg some (ht.trans ?_)
  rw [numbered_unique hreq hreq']

variable {s₀ : State F} {before after : List (Move F)}

/-- The pool again, with all requests there before the first turn. -/
theorem Linked.replayed (h : Linked g w (before ++ after) s) :
    ((accepted w s.callers).play (exec g.bm25) (turns before)).play (exec g.bm25) (turns after) = s.pool := by
  rw [← Pool.play_append, ← turns_append]
  exact h.played.symm

theorem Linked.late (h₀ : Linked g w before s₀) (hrun : run g s₀ after = some s) {k id i : ℕ}
    (hcall : s.calls[i]? = some (k, id)) (hlate : (s₀.sides k).nextId ≤ id) : s₀.callers.length ≤ i := by
  by_contra hlt
  have hlt : i < s₀.calls.length := by
    rw [h₀.calls.length_eq]
    exact Nat.lt_of_not_le hlt
  obtain ⟨more, hmore⟩ := (grows_run hrun).1
  rw [← hmore, List.getElem?_append_left hlt] at hcall
  obtain ⟨hi, hget⟩ := List.getElem?_eq_some_iff.mp hcall
  obtain ⟨req, hreq, -⟩ := h₀.calls.get hi (h₀.calls.length_eq ▸ hi)
  rw [show s₀.calls.get ⟨i, hi⟩ = (k, id) from hget] at hreq
  dsimp only at hreq
  have hbound := (List.mk_mem_zipIdx_iff_le_and_getElem?_sub.mp hreq).2
  have hid := (List.getElem?_eq_some_iff.mp hbound).1
  have hnext := (h₀.recorded k).next
  omega

theorem Linked.unbegun (h₀ : Linked g w before s₀) {ts : List (Caller F)} {i : ℕ} {t : Caller F} (ht : ts[i]? = some t)
    (hi : s₀.callers.length ≤ i) :
    ((accepted w ts).play (exec g.bm25) (turns before)).tasks[i]? = some (t, handleRequest t.app t.request t.user) := by
  have hwaits : i ∉ turns before := fun hmem => absurd (h₀.there i hmem) (Nat.not_lt.mpr hi)
  rw [Pool.play_waiting hwaits]
  show (ts.map _)[i]? = _
  rw [List.getElem?_map, ht]
  rfl

theorem Linked.returned (h : Linked g w moves s) {k id : ℕ} {req : Wire.Request}
    {result : Except Wire.ResponseError (ResponseData F)} (hreq : (req, id) ∈ (made k moves).zipIdx 1)
    (hresult : (id, .ok (.dispatched result)) ∈ (s.sides k).results) :
    ∃ (i : ℕ) (r : Except HandlerError (ResponseData F)), s.calls[i]? = some (k, id) ∧
      s.callers[i]? = some (g.caller k req) ∧ s.pool.tasks[i]? = some (g.caller k req, Prog.ofExcept r) ∧
      Reply.dispatched result = .of g.texts r := by
  obtain ⟨hsub, -⟩ | ⟨i, t, r, hcall, htask, hreply⟩ := h.answers k id _ ((h.sound k).oks _ hresult _ rfl)
  · cases hsub
  · have hcaller := h.caller hcall hreq
    have hlabel : s.callers[i]? = some t := by
      rw [State.callers, List.getElem?_map, htask]
      rfl
    obtain rfl := Option.some.inj (hlabel.symm.trans hcaller)
    exact ⟨i, r, hcall, hcaller, htask, hreply⟩

/-- What a client was told it had stored, every client of the same user is told by every call made after that,
while none of that user's requests rewords it. -/
theorem calls_read_writes (g : Setting F) {w : World F} (hreach : Reachable g.bm25 anyCaller anyStep w)
    (h₀ : run g (.start w) before = some s₀) (h : run g s₀ after = some s) {k id : ℕ} {req : Wire.Request}
    {response : ResponseData F} {mid : String} {n : Note} (hreq : (req, id) ∈ (made k before).zipIdx 1)
    (htold : (id, .ok (.dispatched (.ok response))) ∈ (s₀.sides k).results)
    (hstored : (req.request : Request F).stored response mid n) (hkept : Unreworded s.callers (g.users k) mid) :
    s.pool.state.db.notebook (g.users k) mid = some n ∧
      ∀ (k' id' : ℕ) (req' : Wire.Request) (result : Except Wire.ResponseError (ResponseData F)), g.users k' = g.users k →
        (req', id') ∈ (made k' (before ++ after)).zipIdx 1 → (s₀.sides k').nextId ≤ id' →
        (req'.request : Request F).asks (g.users k) mid → (id', .ok (.dispatched result)) ∈ (s.sides k').results →
        ∃ answer, Reply.dispatched result = .of g.texts answer ∧ Tells mid n answer := by
  have hlinked₀ : Linked g w before s₀ := (linked_start g w).onward h₀
  have hlinked : Linked g w (before ++ after) s := hlinked₀.onward h
  obtain ⟨i, r, hcall, -, htask, hreply⟩ := hlinked₀.returned hreq htold
  obtain ⟨late, hlate⟩ := hlinked₀.among (grows_run h).2
  obtain rfl := Reply.of_ok hreply
  have hdone : ((accepted w s.callers).play (exec g.bm25) (turns before)).tasks[i]? =
      some (g.caller k req, Prog.pure response) := by
    rw [hlate]
    exact Pool.ended_enter late htask
  obtain ⟨hstand, habides⟩ := stored_stands hreach s.callers (turns before) hdone hstored hkept
  obtain ⟨hnote, htells⟩ := stand_told hstand hkept habides (turns after)
  rw [hlinked.replayed] at hnote htells
  refine ⟨hnote, fun k' id' req' result huser hreq' hafter hasks hresult => ?_⟩
  obtain ⟨j, answer, hcall', hcaller', htask', hreply'⟩ := hlinked.returned hreq' hresult
  have hbegin := hlinked₀.unbegun hcaller' (hlinked₀.late h hcall' hafter)
  exact ⟨answer, hreply', htells j _ answer hbegin huser hasks htask'⟩

def askTea : Wire.Request := .memory (.get ⟨"alice", "mem_"⟩)

def teaAsked : List (Move ℚ) := calling 1 askTea ++ List.replicate 3 (.task 1) ++ [.reply 1, .client 1 .read]

theorem teaAsked_run : ∃ s₀ s data, run household (.start World.quiet) teaSaved = some s₀ ∧
    run household s₀ teaAsked = some s ∧
    (s₀.sides 0).results = [(1, .ok (.dispatched (.ok (.memoryStored "mem_"))))] ∧ (s₀.sides 1).nextId = 1 ∧
    (s.sides 1).results = [(1, .ok (.dispatched (.ok (.memory data))))] ∧
    s.callers = [household.caller 0 saveTea, household.caller 1 askTea] :=
  ⟨_, _, _, rfl, rfl, rfl, rfl, rfl, rfl⟩

/-- Another client of hers is told of the tea. -/
theorem tea_told : ∃ s₀ s data, run household (.start World.quiet) teaSaved = some s₀ ∧
    run household s₀ teaAsked = some s ∧ (1, .ok (.dispatched (.ok (.memory data)))) ∈ (s.sides 1).results ∧
    data.id = "mem_" ∧ data.note = ⟨"tea", "fact", "{}"⟩ := by
  obtain ⟨s₀, s, data, h₀, h, hsaved, hnext, hasked, hcallers⟩ := teaAsked_run
  have hmem : (1, .ok (.dispatched (.ok (.memory data)))) ∈ (s.sides 1).results := by
    rw [hasked]
    exact List.mem_singleton_self _
  have hkept : Unreworded s.callers (household.users 0) "mem_" := by
    rw [hcallers]
    simp [Unreworded, household, Setting.caller, saveTea, askTea, Wire.Request.request, Wire.MemoryRequest.request,
      Request.rewords]
  have hstored : (saveTea.request : Request ℚ).stored (.memoryStored "mem_") "mem_" ⟨"tea", "fact", "{}"⟩ := ⟨rfl, rfl⟩
  have htold : (1, .ok (.dispatched (.ok (.memoryStored "mem_")))) ∈ (s₀.sides 0).results := by
    rw [hsaved]
    exact List.mem_singleton_self _
  obtain ⟨-, hlater⟩ := calls_read_writes household quiet_start.reachable h₀ h (List.mem_singleton_self (saveTea, 1)) htold
    hstored hkept
  obtain ⟨answer, hreply, htells⟩ := hlater 1 1 askTea _ rfl (List.mem_singleton_self (askTea, 1)) hnext.le ⟨rfl, rfl⟩ hmem
  refine ⟨s₀, s, data, h₀, h, hmem, ?_⟩
  obtain rfl := Reply.of_ok hreply
  exact htells

/-- The store at a moment of a run, from the pool at which all requests stand, and what a turn does to it. -/
theorem Linked.moment (h₀ : Linked g w before s₀) {during rest : List (Move F)} {s₁ : State F}
    (h₁ : run g s₀ during = some s₁) (hrest : run g s₁ rest = some s) {i : ℕ} (hi : i < s₁.pool.tasks.length) :
    let p := (accepted w s.callers).play (exec g.bm25) (turns before)
    (p.play (exec g.bm25) (turns during)).state = s₁.pool.state ∧
      (p.play (exec g.bm25) (turns during ++ [i])).state = (s₁.pool.turn (exec g.bm25) i).state := by
  intro p
  obtain ⟨late, hlate⟩ := (h₀.onward h₁).among (grows_run hrest).2
  have hp : p.play (exec g.bm25) (turns during) = s₁.pool.enter late := by
    rw [← hlate, turns_append, Pool.play_append]
  rw [Pool.play_snoc, hp, Pool.turn_enter late hi]
  exact ⟨rfl, rfl⟩

theorem task_there {i : ℕ} {rest : List (Move F)} (h : run g s (.task i :: rest) = some s') : i < s.pool.tasks.length := by
  obtain ⟨s₁, hstep, -⟩ := Option.bind_eq_some_iff.mp h
  cases steps_of_step hstep with
  | task _ hi => exact hi

/-- A call of one statement that has returned took effect at one instant after it was made: there a turn of its
task does to the store what serving it alone there and then does, with the answer that was returned, and to the
notebook what request and answer say; no other turn of its task did anything to the store. -/
theorem call_at_once (g : Setting F) {w : World F} (hreach : Reachable g.bm25 anyCaller anyStep w)
    (h₀ : run g (.start w) before = some s₀) (h : run g s₀ after = some s) {k id : ℕ} {req : Wire.Request}
    {result : Except Wire.ResponseError (ResponseData F)} (hreq : (req, id) ∈ (made k (before ++ after)).zipIdx 1)
    (hafter : (s₀.sides k).nextId ≤ id) (hbrief : (req.request : Request F).brief)
    (hresult : (id, .ok (.dispatched result)) ∈ (s.sides k).results) :
    ∃ (i : ℕ) (r : Except HandlerError (ResponseData F)) (during rest : List (Move F)) (s₁ : State F)
      (alone alone' : World F),
      s.calls[i]? = some (k, id) ∧ Reply.dispatched result = .of g.texts r ∧
      after = during ++ rest ∧ (rest = [] ∨ ∃ more, rest = .task i :: more) ∧ run g s₀ during = some s₁ ∧
      serving g.bm25 (g.caller k req, r) alone alone' ∧ alone.db = s₁.pool.state.db ∧
      alone'.db = (s₁.pool.turn (exec g.bm25) i).state.db ∧ notes (g.caller k req, r) alone.db.notebook alone'.db.notebook ∧
      ∀ during' rest' s', after = during' ++ .task i :: rest' → during' ≠ during → run g s₀ during' = some s' →
        (s'.pool.turn (exec g.bm25) i).state.db = s'.pool.state.db := by
  have hlinked₀ : Linked g w before s₀ := (linked_start g w).onward h₀
  have hlinked : Linked g w (before ++ after) s := hlinked₀.onward h
  obtain ⟨i, r, hcall, hcaller, htask, hreply⟩ := hlinked.returned hreq hresult
  have hbegin := hlinked₀.unbegun hcaller (hlinked₀.late h hcall hafter)
  let p := (accepted w s.callers).play (exec g.bm25) (turns before)
  have hended : (p.play (exec g.bm25) (turns after)).tasks[i]? = some (g.caller k req, Prog.ofExcept r) := by
    rw [hlinked.replayed]
    exact htask
  obtain ⟨js, hjs, htouch, o, hcould⟩ := Pool.acts_at_once (draws_exec_world g.bm25) (stating_request hbrief) hbegin hended
  obtain ⟨during, rest, hsplit, hrest, rfl⟩ : ∃ during rest, after = during ++ rest ∧
      (rest = [] ∨ ∃ more, rest = .task i :: more) ∧ turns during = js := by
    obtain hturn | rfl := hjs
    · obtain ⟨during, rest, hsplit, hduring⟩ := turn_at hturn
      exact ⟨during, _, hsplit, .inr ⟨rest, rfl⟩, hduring⟩
    · exact ⟨after, [], (List.append_nil _).symm, .inl rfl, rfl⟩
  obtain ⟨s₁, h₁, hfrom⟩ : ∃ s₁, run g s₀ during = some s₁ ∧ run g s₁ rest = some s := by
    rw [hsplit, run_append] at h
    exact Option.bind_eq_some_iff.mp h
  have hthere : i < s₁.pool.tasks.length := by
    obtain rfl | ⟨more, rfl⟩ := hrest
    · cases hfrom
      exact (List.getElem?_eq_some_iff.mp htask).1
    · exact task_there hfrom
  obtain ⟨hdb, hdb'⟩ := hlinked₀.moment h₁ hfrom hthere
  let alone : World F := ⟨s₁.pool.state.db, [], o⟩
  obtain ⟨hanswer, hdone⟩ := hcould alone (congrArg World.db hdb).symm rfl
  have hserved : serving g.bm25 (g.caller k req, r) alone ((g.caller k req).serve g.bm25 alone) := Prod.ext hanswer rfl
  have hkeyed : alone.db.Keyed := by
    have hintact := intact_accepted hreach s₁.callers (turns (before ++ during))
    rw [← (hlinked₀.onward h₁).played] at hintact
    exact hintact.ids
  refine ⟨i, r, during, rest, s₁, alone, _, hcall, hreply, hsplit, hrest, h₁, hserved, rfl,
    hdone.trans (congrArg World.db hdb'), (serving_refines g.bm25).step _ _ _ hkeyed hserved,
    fun during' rest' s' hsplit' hne h' => ?_⟩
  have hfrom' : run g s' (.task i :: rest') = some s := by
    rw [hsplit', run_append, h'] at h
    exact h
  obtain ⟨hdb₂, hdb₂'⟩ := hlinked₀.moment h' hfrom' (task_there hfrom')
  have hother : turns during' ++ [i] <+: turns after := by
    rw [hsplit', turns_append]
    exact ⟨turns rest', List.append_assoc _ [i] _⟩
  have hsame := htouch _ hother (turns_ne (hsplit.symm.trans hsplit') hrest hne)
  rwa [hdb₂, hdb₂'] at hsame

def dropTea : Wire.Request := .memory (.delete ⟨"alice", "mem_"⟩)

def teaDropped : List (Move ℚ) := calling 1 dropTea ++ [.task 1, .reply 1, .client 1 .read]

theorem teaDropped_run : ∃ s₀ s, run household (.start World.quiet) teaSaved = some s₀ ∧
    run household s₀ teaDropped = some s ∧ (s₀.sides 1).nextId = 1 ∧
    (s.sides 1).results = [(1, .ok (.dispatched (.ok (.affected 1))))] :=
  ⟨_, _, rfl, rfl, rfl, rfl⟩

/-- Her tea is deleted at one instant of the call. -/
theorem tea_dropped_at_once : ∃ s₀ s during rest s₁ alone alone', run household (.start World.quiet) teaSaved = some s₀ ∧
    run household s₀ teaDropped = some s ∧ teaDropped = during ++ rest ∧ run household s₀ during = some s₁ ∧
    serving household.bm25 (household.caller 1 dropTea, .ok (.affected 1)) alone alone' ∧ alone.db = s₁.pool.state.db := by
  obtain ⟨s₀, s, h₀, h, hnext, hdropped⟩ := teaDropped_run
  have hmem : (1, .ok (.dispatched (.ok (.affected 1)))) ∈ (s.sides 1).results := by
    rw [hdropped]
    exact List.mem_singleton_self _
  obtain ⟨i, r, during, rest, s₁, alone, alone', -, hreply, hsplit, -, h₁, hserved, hdb, -⟩ := call_at_once household
    quiet_start.reachable h₀ h (List.mem_singleton_self (dropTea, 1)) hnext.le rfl hmem
  obtain rfl := Reply.of_ok hreply
  exact ⟨s₀, s, during, rest, s₁, alone, alone', h₀, h, hsplit, h₁, hserved, hdb⟩

end CognitiveMemory.Network
