import CognitiveMemory.Daemon.Connection
import CognitiveMemory.Daemon.Network

/-! What goes on at one connection among all others, as a run of its request loop. -/

namespace CognitiveMemory.Network
variable {F : Type}

def Setting.fitsAt (g : Setting F) (last : State F) (k id : ℕ) : Bool :=
  match last.pool.tasks[last.calls.idxOf (k, id)]?.bind fun task => task.2.ended? with
  | some r => g.fitsReply (.of g.texts r)
  | none => true

/-- A call to the loop of its connection, in a run that ends in `last`. -/
def Setting.request (g : Setting F) (last : State F) (k id : ℕ) : Server.Request := ⟨id, g.fitsAt last k id⟩

/-- What a move is to the loop of this connection. -/
def Move.input (g : Setting F) (last : State F) (k : ℕ) (s : State F) : Move F → Option Server.Input
  | .accept k' snapshot =>
    if k' = k then (s.frame? k).map fun f =>
      match subscription? f.2 with
      | some args => .subscribe f.1 (args.replaySnapshot && snapshot.isSome)
      | none => .request (g.request last k f.1)
    else none
  | .reply i => s.calls[i]?.bind fun call => if call.1 = k then some (.joined ((s.working k).idxOf call.2)) else none
  | .client k' (.event _) => if k' = k then some .event else none
  | .eof k' => if k' = k then some .eof else none
  | .decodeError k' => if k' = k then some .decodeError else none
  | .shutdown k' => if k' = k then some .shutdown else none
  | .client .. | .task _ => none

/-- What a run is to the loop of this connection. -/
def inputs [Field F] [LinearOrder F] [Elementary F] (g : Setting F) (last : State F) (k : ℕ) (s : State F) :
    List (Move F) → List Server.Input
  | [] => []
  | m :: moves => (m.input g last k s).toList ++ ((step g s m).map fun s' => inputs g last k s' moves).getD []

variable {g : Setting F} {w : World F} {moves : List (Move F)} {last s s' : State F} {m : Move F} {k : ℕ}

/-! ## Tasks that have not been joined -/

def State.atWork (s : State F) (k id : ℕ) : Prop := id ∈ (s.sides k).received.map Prod.fst ∧ (k, id) ∉ s.lost

theorem mem_working {id : ℕ} : id ∈ s.working k ↔ (k, id) ∈ s.calls ∧ s.atWork k id := by
  simp only [State.working, State.atWork, List.mem_map, List.mem_filter, decide_eq_true_eq]
  constructor
  · rintro ⟨⟨k', id'⟩, ⟨hcall, rfl, hthere⟩, rfl⟩
    exact ⟨hcall, hthere⟩
  · rintro ⟨hcall, hthere⟩
    exact ⟨(k, id), ⟨hcall, rfl, hthere⟩, rfl⟩

theorem nodup_working (h : s.calls.Nodup) (k : ℕ) : (s.working k).Nodup := by
  refine (h.filter _).map_on fun x hx y hy hsame => ?_
  have hx := (List.mem_filter.mp hx).2
  have hy := (List.mem_filter.mp hy).2
  simp only [decide_eq_true_eq] at hx hy
  exact Prod.ext (hx.1.trans hy.1.symm) hsame

theorem working_filter (s : State F) (k : ℕ) {p : ℕ → Bool} (hcalls : s'.calls = s.calls)
    (h : ∀ id, (k, id) ∈ s.calls → (s'.atWork k id ↔ s.atWork k id ∧ p id = true)) : s'.working k = (s.working k).filter p := by
  rw [State.working, State.working, hcalls, List.filter_map, List.filter_filter]
  refine congrArg _ (List.filter_congr fun call hcall => ?_)
  by_cases hk : call.1 = k
  · obtain ⟨k', id⟩ := call
    obtain rfl : k' = k := hk
    have hid := h id hcall
    rw [← Bool.decide_coe (_ && _), decide_eq_decide]
    simp only [State.atWork] at hid
    simp only [true_and, hid, Bool.and_eq_true, decide_eq_true_eq]
    exact and_comm
  · simp [hk]

theorem working_congr {s : State F} (s' : State F) (hcalls : s'.calls = s.calls)
    (h : ∀ id, (k, id) ∈ s.calls → (s'.atWork k id ↔ s.atWork k id)) :
    s'.working k = s.working k := by
  rw [working_filter s k (p := fun _ => true) hcalls fun id hid => by simp [h id hid], List.filter_true]

theorem working_erase (honce : s.calls.Nodup) (s' : State F) (id : ℕ) (hcalls : s'.calls = s.calls)
    (h : ∀ j, (k, j) ∈ s.calls → (s'.atWork k j ↔ s.atWork k j ∧ j ≠ id)) : s'.working k = (s.working k).erase id := by
  rw [(nodup_working honce k).erase_eq_filter]
  exact working_filter s k hcalls fun j hj => by simp [h j hj]

theorem State.leave_working (s : State F) (k k' : ℕ) : (s.leave k').working k = s.working k := by
  obtain ⟨lines, hlines⟩ := s.leave_eq k'
  rw [hlines]
  rfl

theorem State.leave_ne {k' : ℕ} (hk : k' ≠ k) (s : State F) : (s.leave k').lines k = s.lines k := by
  unfold State.leave
  split
  · exact Function.update_of_ne hk.symm ..
  · rfl

/-! ## The loop -/

/-- The request loop has the same flags, is at work on what this connection has in the pool, and has sent its
answers. -/
structure Looping (g : Setting F) (last s : State F) (k : ℕ) (c : Server.Connection) : Prop where
  ended : c.ended = (s.lines k).ended
  accepts : c.acceptRequests = (s.lines k).acceptRequests
  sends : c.canSend = (s.lines k).canSend
  shutdown : c.shutdownRequested = (s.lines k).shutdownRequested
  subscribed : c.subscribed = (s.lines k).subscribed
  tasks : c.tasks = (s.working k).map (g.request last k)
  wire : c.responses = (s.sides k).answered.map Prod.fst
  begun : ∀ id, (k, id) ∈ s.calls → id ∈ (s.sides k).answered.map Prod.fst ∨ id ∈ (s.sides k).received.map Prod.fst
  lost : ∀ id, (k, id) ∈ s.lost → (k, id) ∈ s.calls

variable {c c' : Server.Connection}

theorem Looping.elsewhere (h : Looping g last s k c) (hline : s'.lines k = s.lines k) (hside : s'.sides k = s.sides k)
    (hworking : s'.working k = s.working k) (hcalls : ∀ id, (k, id) ∈ s'.calls ↔ (k, id) ∈ s.calls)
    (hlost : ∀ id, (k, id) ∈ s'.lost → (k, id) ∈ s.lost) : Looping g last s' k c := by
  refine ⟨?_, ?_, ?_, ?_, ?_, ?_, ?_, fun id hid => ?_, fun id hid => (hcalls id).mpr (h.lost id (hlost id hid))⟩
  · rw [hline]
    exact h.ended
  · rw [hline]
    exact h.accepts
  · rw [hline]
    exact h.sends
  · rw [hline]
    exact h.shutdown
  · rw [hline]
    exact h.subscribed
  · rw [hworking]
    exact h.tasks
  · rw [hside]
    exact h.wire
  · rw [hside]
    exact h.begun id ((hcalls id).mp hid)

theorem Looping.other (h : Looping g last s k c) {k' : ℕ} (hk : k' ≠ k) (side : Side F) :
    Looping g last (s.set k' side) k c := by
  have hside : (s.set k' side).sides k = s.sides k := State.set_ne hk.symm
  refine h.elsewhere rfl hside (working_congr _ rfl fun id _ => ?_) (fun _ => .rfl) fun _ => id
  rw [State.atWork, State.atWork, hside]
  rfl

theorem Looping.otherLine (h : Looping g last s k c) {k' : ℕ} (hk : k' ≠ k) (line : Line) :
    Looping g last (s.line k' line) k c :=
  h.elsewhere (Function.update_of_ne hk.symm ..) rfl rfl (fun _ => .rfl) fun _ => id

theorem Looping.otherLost (h : Looping g last s k c) {k' : ℕ} (hk : k' ≠ k) (id : ℕ) :
    Looping g last (s.lose k' id) k c := by
  have hlost : ∀ j, (k, j) ∈ (s.lose k' id).lost ↔ (k, j) ∈ s.lost := fun j => by simp [State.lose, Ne.symm hk]
  refine h.elsewhere rfl rfl (working_congr _ rfl fun j _ => ?_) (fun _ => .rfl) fun j => (hlost j).mp
  rw [State.atWork, State.atWork, hlost]
  rfl

theorem Looping.otherLeave (h : Looping g last s k c) {k' : ℕ} (hk : k' ≠ k) : Looping g last (s.leave k') k c := by
  obtain ⟨lines, hlines⟩ := s.leave_eq k'
  refine h.elsewhere (State.leave_ne hk s) ?_ (s.leave_working k k') ?_ ?_
  all_goals
    rw [hlines]
    try exact fun _ => .rfl
    try exact fun _ => id

theorem Looping.leave (h : Looping g last s k c) : Looping g last (s.leave k) k c.leave := by
  have hempty : c.tasks.isEmpty = (s.working k).isEmpty := by rw [h.tasks, List.isEmpty_map]
  unfold State.leave Server.Connection.leave
  rw [hempty, h.accepts]
  split
  · have hline : (s.line k { s.lines k with ended := true }).lines k = { s.lines k with ended := true } := Function.update_self ..
    refine ⟨?_, ?_, ?_, ?_, ?_, h.tasks, h.wire, h.begun, h.lost⟩
    · rw [hline]
    · rw [hline]
    · rw [hline]
      exact h.sends
    · rw [hline]
      exact h.shutdown
    · rw [hline]
      exact h.subscribed
  · exact h

theorem Looping.client (h : Looping g last s k c) (hsound : Client.Sound g.fits (s.sides k)) {side : Side F}
    {m : Client.Move Wire.Request (Reply F) Wire.Event} (hm : ¬ m.answers)
    (hside : Client.step g.fits (s.sides k) m = some side) : Looping g last (s.set k side) k c := by
  obtain ⟨hanswered, frames, hreceived, hframes⟩ := Client.answered_step hside hm
  -- no task is there for a frame that comes in only now
  have hnew (id : ℕ) (hcall : (k, id) ∈ s.calls) : id ∉ frames.map Prod.fst := by
    intro hmem
    obtain ⟨f, hf, rfl⟩ := List.mem_map.mp hmem
    have hbuf : f.1 ∈ (s.sides k).writeBuf.map Prod.fst := List.mem_map_of_mem (hframes f hf)
    obtain ⟨-, hlater, hapart⟩ := List.nodup_append'.mp hsound.nodup
    obtain ⟨-, -, hapart'⟩ := List.nodup_append'.mp hlater
    obtain hold | hold := h.begun f.1 hcall
    · exact hapart hold (List.mem_append_right _ hbuf)
    · exact hapart' hold hbuf
  have hworking : (s.set k side).working k = s.working k := by
    refine working_congr _ rfl fun id hcall => ?_
    have hlate := hnew id hcall
    rw [State.atWork, State.set_self, hreceived, List.map_append, List.mem_append]
    exact and_congr_left fun _ => or_iff_left hlate
  refine ⟨h.ended, h.accepts, h.sends, h.shutdown, h.subscribed, ?_, ?_, fun id hid => ?_, h.lost⟩
  · rw [hworking]
    exact h.tasks
  · rw [State.set_self, hanswered]
    exact h.wire
  · have hold := h.begun id hid
    rw [State.set_self, hanswered, hreceived, List.map_append, List.mem_append]
    tauto

theorem Looping.announce (h : Looping g last s k c) (event : Option Wire.Event) :
    Looping g last (s.set k (Network.announce (s.sides k) event)) k c := by
  have hside : (Network.announce (s.sides k) event).answered = (s.sides k).answered ∧
      (Network.announce (s.sides k) event).received = (s.sides k).received := by cases event <;> exact ⟨rfl, rfl⟩
  refine ⟨h.ended, h.accepts, h.sends, h.shutdown, h.subscribed, ?_, ?_, fun id hid => ?_, h.lost⟩
  · rw [h.tasks, working_congr (s := s) (s.set k (Network.announce (s.sides k) event)) rfl fun id _ => ?_]
    rw [State.atWork, State.set_self, hside.2]
    rfl
  · rw [State.set_self, hside.1]
    exact h.wire
  · rw [State.set_self, hside.1, hside.2]
    exact h.begun id hid

/-- An answer leaves the loop with what it had, but for the request answered. -/
theorem Looping.answer (h : Looping g last s k c) (honce : s.calls.Nodup) {id : ℕ} {reply : Reply F} {side : Side F}
    (hside : Client.step g.fits (s.sides k) (.answer id reply) = some side) (hended : c'.ended = c.ended)
    (haccepts : c'.acceptRequests = c.acceptRequests) (hsends : c'.canSend = c.canSend)
    (hshutdown : c'.shutdownRequested = c.shutdownRequested) (hsubscribed : c'.subscribed = c.subscribed)
    (htasks : c'.tasks = ((s.working k).erase id).map (g.request last k)) (hwire : c'.responses = c.responses ++ [id]) :
    Looping g last (s.set k side) k c' := by
  obtain ⟨hsent, -, hreceived⟩ := Client.answer_step hside
  have hanswered : side.answered.map Prod.fst = (s.sides k).answered.map Prod.fst ++ [id] := by
    rw [hsent, List.map_append]
    rfl
  refine ⟨hended.trans h.ended, haccepts.trans h.accepts, hsends.trans h.sends, hshutdown.trans h.shutdown,
    hsubscribed.trans h.subscribed, ?_, ?_, fun j hj => ?_, h.lost⟩
  · rw [htasks, working_erase honce (s.set k side) id rfl fun j _ => ?_]
    rw [State.atWork, State.set_self, hreceived]
    exact and_right_comm
  · rw [State.set_self, hwire, h.wire, hanswered]
  · have hold := h.begun j hj
    rw [State.set_self, hreceived, hanswered, List.mem_append, List.mem_singleton]
    tauto

theorem Looping.lose (h : Looping g last s k c) (honce : s.calls.Nodup) {id : ℕ} (hcall : (k, id) ∈ s.calls)
    (hended : c'.ended = c.ended) (haccepts : c'.acceptRequests = c.acceptRequests) (hsends : c'.canSend = c.canSend)
    (hshutdown : c'.shutdownRequested = c.shutdownRequested) (hsubscribed : c'.subscribed = c.subscribed)
    (htasks : c'.tasks = ((s.working k).erase id).map (g.request last k)) (hwire : c'.responses = c.responses) :
    Looping g last (s.lose k id) k c' := by
  refine ⟨hended.trans h.ended, haccepts.trans h.accepts, hsends.trans h.sends, hshutdown.trans h.shutdown,
    hsubscribed.trans h.subscribed, ?_, hwire.trans h.wire, h.begun, fun j hj => ?_⟩
  · rw [htasks, working_erase honce (s.lose k id) id rfl fun j _ => ?_]
    simp [State.atWork, State.lose, and_assoc]
  · rcases List.mem_append.mp hj with hj | hj
    · exact h.lost j hj
    · obtain rfl : j = id := congrArg Prod.snd (List.mem_singleton.mp hj)
      exact hcall

theorem Looping.relined (h : Looping g last s k c) {line : Line} (hended : c'.ended = line.ended)
    (haccepts : c'.acceptRequests = line.acceptRequests) (hsends : c'.canSend = line.canSend)
    (hshutdown : c'.shutdownRequested = line.shutdownRequested) (hsubscribed : c'.subscribed = line.subscribed)
    (htasks : c'.tasks = c.tasks) (hwire : c'.responses = c.responses) : Looping g last (s.line k line) k c' := by
  have hline : (s.line k line).lines k = line := Function.update_self ..
  refine ⟨?_, ?_, ?_, ?_, ?_, htasks.trans h.tasks, hwire.trans h.wire, h.begun, h.lost⟩
  all_goals rw [hline]
  · exact hended
  · exact haccepts
  · exact hsends
  · exact hshutdown
  · exact hsubscribed

/-! ## Its turns -/

theorem Looping.event (h : Looping g last s k c) (hlive : (s.lines k).ended = false)
    (hsub : (s.lines k).subscribed = true) (e : Wire.Event) :
    ∃ c', Server.turn c .event = some c' ∧ Looping g last ((s.set k (Network.announce (s.sides k) (some e))).leave k) k c' := by
  have hturn : Server.turn c .event = some { c with sent := c.sent ++ [Server.Frame.event] }.leave := by
    simp [Server.turn, h.ended, hlive, h.subscribed, hsub]
  have hannounced := h.announce (some e)
  have hsame : Looping g last (s.set k (Network.announce (s.sides k) (some e))) k { c with sent := c.sent ++ [.event] } := by
    refine ⟨hannounced.ended, hannounced.accepts, hannounced.sends, hannounced.shutdown, hannounced.subscribed, hannounced.tasks, ?_,
      hannounced.begun, hannounced.lost⟩
    rw [← hannounced.wire]
    simp [Server.Connection.responses]
  exact ⟨_, hturn, hsame.leave⟩

theorem State.listens_iff : s.listens k = true ↔ (s.lines k).ended = false ∧ (s.lines k).acceptRequests = true := by
  simp [State.listens]

theorem Looping.subscribe (h : Looping g last s k c) (honce : s.calls.Nodup) {id : ℕ} {side : Side F}
    (hnew : (k, id) ∉ s.calls)
    (hlistens : s.listens k = true) (hside : Client.step g.fits (s.sides k) (.answer id .subscribed) = some side)
    (event : Option Wire.Event) : ∃ c', Server.turn c (.subscribe id event.isSome) = some c' ∧
      Looping g last ((s.set k (Network.announce side event)).line k { s.lines k with subscribed := true }) k c' := by
  obtain ⟨hlive, haccepts⟩ := State.listens_iff.mp hlistens
  let answered : Server.Connection := { c with
    sent := c.sent ++ [.response id]
    decoded := c.decoded ++ [⟨id, true⟩]
    answered := c.answered ++ [⟨id, true⟩] }
  let sent := if event.isSome then answered.sent ++ [Server.Frame.event] else answered.sent
  have hturn : Server.turn c (.subscribe id event.isSome) = some { answered with subscribed := true, sent } := by
    have hc : c.ended = false ∧ c.acceptRequests = true := ⟨h.ended.trans hlive, h.accepts.trans haccepts⟩
    simp only [Server.turn, hc.1, hc.2, Bool.false_eq_true, if_false, if_true, sent, answered]
    split <;> rfl
  have hanswered : Looping g last (s.set k side) k answered := by
    refine h.answer honce hside rfl rfl rfl rfl rfl ?_ (by simp [answered, Server.Connection.responses])
    rw [List.erase_of_not_mem fun hmem => hnew (mem_working.mp hmem).1]
    exact h.tasks
  have hannounced := hanswered.announce event
  rw [State.set_set, State.set_self] at hannounced
  refine ⟨_, hturn, hannounced.relined hanswered.ended hanswered.accepts hanswered.sends hanswered.shutdown rfl rfl ?_⟩
  simp only [Server.Connection.responses, sent]
  split <;> simp

theorem Looping.accept (h : Looping g last s k c) {id : ℕ} {req : Wire.Request} (hlistens : s.listens k = true)
    (hframe : s.frame? k = some (id, req))
    {pool : Prog.Pool (Caller F) (Cmd F) Cmd.Res HandlerError (ResponseData F) (World F)} :
    ∃ c', Server.turn c (.request (g.request last k id)) = some c' ∧
      Looping g last { s with calls := s.calls ++ [(k, id)], pool := pool } k c' := by
  obtain ⟨hlive, haccepts⟩ := State.listens_iff.mp hlistens
  obtain ⟨hreceived, hnew⟩ := frame?_some hframe
  have hthere : id ∈ (s.sides k).received.map Prod.fst := List.mem_map_of_mem hreceived
  have hturn : Server.turn c (.request (g.request last k id)) = some { c with
      tasks := c.tasks ++ [g.request last k id]
      decoded := c.decoded ++ [g.request last k id] } := by
    simp [Server.turn, h.ended, hlive, h.accepts, haccepts]
  refine ⟨_, hturn, h.ended, h.accepts, h.sends, h.shutdown, h.subscribed, ?_, h.wire, fun j hj => ?_, fun j hj => ?_⟩
  · have hkept : (k, id) ∉ s.lost := fun hlost => hnew (h.lost id hlost)
    rw [h.tasks, State.working, State.working, List.filter_append, List.map_append, List.filter_singleton, List.map_append]
    simp [hthere, hkept]
  · obtain hold | hj := List.mem_append.mp hj
    · exact h.begun j hold
    · obtain rfl : j = id := congrArg Prod.snd (List.mem_singleton.mp hj)
      exact .inr hthere
  · exact List.mem_append_left _ (h.lost j hj)

section
variable {i id : ℕ} {t : Caller F} {r : Except HandlerError (ResponseData F)}

/-- A closed socket and a frame that does not decode end the loop alike. -/
theorem Looping.stop (h : Looping g last s k c) {x : Server.Input} (hlistens : s.listens k = true)
    (hx : x = .eof ∨ x = .decodeError) :
    ∃ c', Server.turn c x = some c' ∧ Looping g last (s.line k { s.lines k with ended := true }) k c' := by
  obtain ⟨hlive, haccepts⟩ := State.listens_iff.mp hlistens
  have hturn : Server.turn c x = some { c with ended := true } := by
    rcases hx with rfl | rfl <;> simp [Server.turn, h.ended, hlive, h.accepts, haccepts]
  exact ⟨_, hturn, h.relined rfl h.accepts h.sends h.shutdown h.subscribed rfl rfl⟩

theorem Looping.quit (h : Looping g last s k c) (hlive : (s.lines k).ended = false)
    (hfirst : (s.lines k).shutdownRequested = false) :
    ∃ c', Server.turn c .shutdown = some c' ∧ Looping g last
      ((s.line k { s.lines k with shutdownRequested := true, acceptRequests := false }).leave k) k c' := by
  have hturn : Server.turn c .shutdown = some { c with shutdownRequested := true, acceptRequests := false }.leave := by
    simp [Server.turn, h.ended, hlive, h.shutdown, hfirst]
  refine ⟨_, hturn, Looping.leave ?_⟩
  exact h.relined h.ended rfl h.sends rfl h.subscribed rfl rfl

theorem Looping.joined (h : Looping g last s k c) (hjoins : s.Joins i k id t r) :
    Server.turn c (.joined ((s.working k).idxOf id)) = some
      ({ c with tasks := ((s.working k).erase id).map (g.request last k) }.reply (g.request last k id)).leave := by
  have hget : c.tasks[(s.working k).idxOf id]? = some (g.request last k id) := by
    rw [h.tasks, List.getElem?_map, List.getElem?_idxOf hjoins.working, Option.map_some]
  have herase : c.tasks.eraseIdx ((s.working k).idxOf id) = ((s.working k).erase id).map (g.request last k) := by
    rw [h.tasks, List.erase_eq_eraseIdx_of_idxOf rfl, List.eraseIdx_map]
  simp [Server.turn, h.ended, hjoins.live, hget, herase]

theorem Looping.reply (h : Looping g last s k c) (honce : s.calls.Nodup) (hjoins : s.Joins i k id t r)
    (hsends : (s.lines k).canSend = true) (hfits : g.fitsAt last k id = true) {side : Side F}
    (hside : Client.step g.fits (s.sides k) (.answer id (.of g.texts r)) = some side) :
    ∃ c', Server.turn c (.joined ((s.working k).idxOf id)) = some c' ∧ Looping g last ((s.set k side).leave k) k c' := by
  refine ⟨_, h.joined hjoins, Looping.leave (h.answer honce hside ?_ ?_ ?_ ?_ ?_ ?_ ?_)⟩
  all_goals simp [Server.Connection.reply, h.sends, hsends, Setting.request, hfits, Server.Connection.responses]

theorem Looping.mute (h : Looping g last s k c) (honce : s.calls.Nodup) (hjoins : s.Joins i k id t r)
    (hmute : (s.lines k).canSend = false) :
    ∃ c', Server.turn c (.joined ((s.working k).idxOf id)) = some c' ∧ Looping g last ((s.lose k id).leave k) k c' := by
  refine ⟨_, h.joined hjoins, Looping.leave (h.lose honce (List.mem_of_getElem? hjoins.call) ?_ ?_ ?_ ?_ ?_ ?_ ?_)⟩
  all_goals simp [Server.Connection.reply, h.sends, hmute, Server.Connection.responses]

theorem Looping.oversize (h : Looping g last s k c) (honce : s.calls.Nodup) (hjoins : s.Joins i k id t r)
    (hsends : (s.lines k).canSend = true) (hfits : g.fitsAt last k id = false) :
    ∃ c', Server.turn c (.joined ((s.working k).idxOf id)) = some c' ∧
      Looping g last (((s.lose k id).line k { s.lines k with canSend := false, acceptRequests := false }).leave k) k c' := by
  let joined : Server.Connection := { c with tasks := ((s.working k).erase id).map (g.request last k) }
  have hlost : Looping g last (s.lose k id) k joined := by
    refine h.lose honce (List.mem_of_getElem? hjoins.call) rfl rfl rfl rfl rfl rfl rfl
  refine ⟨_, h.joined hjoins, Looping.leave (hlost.relined ?_ ?_ ?_ ?_ ?_ ?_ ?_)⟩
  all_goals simp [Server.Connection.reply, h.sends, hsends, Setting.request, hfits, Server.Connection.responses, joined, h.ended,
    h.shutdown, h.subscribed]

end

/-! ## Runs -/

variable [Field F] [LinearOrder F] [Elementary F]

theorem Steps.ended (h : Steps g s m s') {i : ℕ} {t : Caller F} {r : Except HandlerError (ResponseData F)}
    (htask : s.pool.tasks[i]? = some (t, Prog.ofExcept r)) : s'.pool.tasks[i]? = some (t, Prog.ofExcept r) := by
  have hleave (s : State F) (k : ℕ) : (s.leave k).pool = s.pool := by
    obtain ⟨lines, hlines⟩ := s.leave_eq k
    rw [hlines]
  cases h with
  | client | subscribe | eof | decodeError => exact htask
  | event | reply | mute | oversize | shutdown =>
    rw [hleave]
    exact htask
  | accept k id req => exact Prog.Pool.ended_enter _ htask
  | task j => exact Prog.Pool.ended_turn htask j

theorem ended_run {i : ℕ} {t : Caller F} {r : Except HandlerError (ResponseData F)} {more : List (Move F)}
    (hrun : run g s more = some s') (htask : s.pool.tasks[i]? = some (t, Prog.ofExcept r)) :
    s'.pool.tasks[i]? = some (t, Prog.ofExcept r) := by
  induction more generalizing s with
  | nil =>
    cases hrun
    exact htask
  | cons m more ih =>
    obtain ⟨s₁, hstep, hrest⟩ := Option.bind_eq_some_iff.mp hrun
    exact ih hrest ((steps_of_step hstep).ended htask)

theorem fitsAt_of_joins {i id : ℕ} {t : Caller F} {r : Except HandlerError (ResponseData F)} {more : List (Move F)}
    (hjoins : s.Joins i k id t r) (hrun : run g s more = some last) (honce : last.calls.Nodup) :
    g.fitsAt last k id = g.fitsReply (.of g.texts r) := by
  obtain ⟨later, hlater⟩ := (grows_run hrun).1
  have hcall : last.calls[i]? = some (k, id) := by
    rw [← hlater, List.getElem?_append_left (List.getElem?_eq_some_iff.mp hjoins.call).1]
    exact hjoins.call
  obtain ⟨hi, hget⟩ := List.getElem?_eq_some_iff.mp hcall
  have hindex : last.calls.idxOf (k, id) = i := by rw [← hget, honce.idxOf_getElem i hi]
  rw [Setting.fitsAt, hindex, ended_run hrun hjoins.task, Option.bind_some, Prog.ended?_ofExcept]

theorem Looping.step (h : Looping g last s k c) (hlinked : Linked g w moves s) (honce : last.calls.Nodup)
    (hstep : step g s m = some s') {more : List (Move F)} (hrun : run g s' more = some last) :
    ∃ c', Server.run c (m.input g last k s).toList = some c' ∧ Looping g last s' k c' := by
  have hfrom : run g s (m :: more) = some last := Option.bind_eq_some_iff.mpr ⟨s', hstep, hrun⟩
  have hidle (hnone : m.input g last k s = none) (hsame : Looping g last s' k c) :
      ∃ c', Server.run c (m.input g last k s).toList = some c' ∧ Looping g last s' k c' := by
    rw [hnone]
    exact ⟨c, rfl, hsame⟩
  have hone {x : Server.Input} (hx : m.input g last k s = some x)
      (hturn : ∃ c', Server.turn c x = some c' ∧ Looping g last s' k c') :
      ∃ c', Server.run c (m.input g last k s).toList = some c' ∧ Looping g last s' k c' := by
    obtain ⟨c', hturn, hc'⟩ := hturn
    refine ⟨c', ?_, hc'⟩
    simp [hx, Server.run, hturn]
  cases steps_of_step hstep with
  | client k' m side hm hside =>
    refine hidle ?_ ?_
    · cases m with
      | event => exact (hm trivial).elim
      | _ => rfl
    · by_cases hk : k' = k
      · subst hk
        exact h.client (hlinked.sound k') hm hside
      · exact h.other hk side
  | event k' e hlive hsub =>
    by_cases hk : k' = k
    · subst hk
      exact hone (if_pos rfl) (h.event hlive hsub e)
    · exact hidle (if_neg hk) ((h.other hk _).otherLeave hk)
  | subscribe k' id args snapshot side hlistens hframe hside =>
    by_cases hk : k' = k
    · subst hk
      refine hone ?_ (h.subscribe hlinked.once (frame?_some hframe).2 hlistens hside _)
      cases hreplay : args.replaySnapshot <;> simp [Move.input, hframe, subscription?, hreplay]
    · exact hidle (if_neg hk) ((h.other hk _).otherLine hk _)
  | accept k' id req snapshot hlistens hframe hsub =>
    by_cases hk : k' = k
    · subst hk
      refine hone ?_ (h.accept hlistens hframe)
      simp [Move.input, hframe, hsub]
    · refine hidle (if_neg hk) (h.elsewhere rfl rfl ?_ (fun id' => ?_) fun _ hid => hid)
      · rw [State.working, State.working, List.filter_append, List.filter_singleton]
        simp [hk]
      · simp [Ne.symm hk]
  | task i hi => exact hidle rfl (h.elsewhere rfl rfl rfl (fun _ => .rfl) fun _ => id)
  | reply i k' id t r side hjoins hsends hfits hside =>
    by_cases hk : k' = k
    · subst hk
      refine hone (by simp [Move.input, hjoins.call]) (h.reply hlinked.once hjoins hsends ?_ hside)
      rw [fitsAt_of_joins hjoins hfrom honce, hfits]
    · exact hidle (by simp [Move.input, hjoins.call, hk]) ((h.other hk side).otherLeave hk)
  | mute i k' id t r hjoins hmute =>
    by_cases hk : k' = k
    · subst hk
      exact hone (by simp [Move.input, hjoins.call]) (h.mute hlinked.once hjoins hmute)
    · exact hidle (by simp [Move.input, hjoins.call, hk]) ((h.otherLost hk id).otherLeave hk)
  | oversize i k' id t r hjoins hsends hfits =>
    by_cases hk : k' = k
    · subst hk
      refine hone (by simp [Move.input, hjoins.call]) (h.oversize hlinked.once hjoins hsends ?_)
      rw [fitsAt_of_joins hjoins hfrom honce, hfits]
    · exact hidle (by simp [Move.input, hjoins.call, hk]) (((h.otherLost hk id).otherLine hk _).otherLeave hk)
  | eof k' hlistens hread =>
    by_cases hk : k' = k
    · subst hk
      exact hone (if_pos rfl) (h.stop hlistens (.inl rfl))
    · exact hidle (if_neg hk) (h.otherLine hk _)
  | decodeError k' hlistens =>
    by_cases hk : k' = k
    · subst hk
      exact hone (if_pos rfl) (h.stop hlistens (.inr rfl))
    · exact hidle (if_neg hk) (h.otherLine hk _)
  | shutdown k' hlive hfirst =>
    by_cases hk : k' = k
    · subst hk
      exact hone (if_pos rfl) (h.quit hlive hfirst)
    · exact hidle (if_neg hk) ((h.otherLine hk _).otherLeave hk)

theorem Looping.onward (h : Looping g last s k c) (hlinked : Linked g w moves s) (honce : last.calls.Nodup)
    {more : List (Move F)}
    (hrun : run g s more = some last) : ∃ c', Server.run c (inputs g last k s more) = some c' ∧ Looping g last last k c' := by
  induction more generalizing moves s c with
  | nil =>
    cases hrun
    exact ⟨c, rfl, h⟩
  | cons m more ih =>
    obtain ⟨s₁, hstep, hrest⟩ := Option.bind_eq_some_iff.mp hrun
    obtain ⟨c₁, hfirst, h₁⟩ := h.step hlinked honce hstep hrest
    obtain ⟨c', hlater, h'⟩ := ih h₁ (hlinked.step hstep) hrest
    refine ⟨c', ?_, h'⟩
    rw [inputs, hstep, Server.run, List.foldlM_append]
    exact Option.bind_eq_some_iff.mpr ⟨c₁, hfirst, hlater⟩

end CognitiveMemory.Network
