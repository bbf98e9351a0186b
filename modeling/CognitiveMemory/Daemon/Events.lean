import CognitiveMemory.Daemon.Connection
import CognitiveMemory.Lib.Broadcast

/-! The events of a connection: the loop of `handle_connection` with the receiver it holds on the
event channel, while the daemon publishes. -/

namespace CognitiveMemory.Server.Events
variable {α : Type}

/-- The Event frames of a connection: the snapshot of a subscription, a published event, and the
report of a receiver that lagged. -/
inductive Pushed (α : Type)
  | currentState
  | published (e : α)
  | eventStreamLagged (skipped : ℕ)

def Pushed.ofReceived : Broadcast.Received α → Pushed α
  | .message e => .published e
  | .lagged skipped => .eventStreamLagged skipped

structure Subscriber (α : Type) where
  loop : Connection
  channel : Broadcast α
  /-- `event_rx`, by its position. -/
  eventRx : Option ℕ
  pushed : List (Pushed α)
  /-- Record of the run: what had been published at the first subscription. -/
  first : Option ℕ

def Subscriber.init (channel : Broadcast α) : Subscriber α := ⟨.init, channel, none, [], none⟩

/-- Somebody publishes an event, the loop takes a turn, or its stream is gone. -/
inductive Step (α : Type)
  | publish (e : α)
  | turn (x : Input)
  | broken

def step (s : Subscriber α) : Step α → Option (Subscriber α)
  | .publish e => some { s with channel := s.channel.send e }
  | .turn (.subscribe id snapshot) => (turn s.loop (.subscribe id snapshot)).map fun loop =>
      { s with
        loop
        eventRx := some s.channel.subscribe
        pushed := if snapshot then s.pushed ++ [.currentState] else s.pushed
        first := s.first.or (some s.channel.sent.length) }
  | .turn .event => do
      let (received, position) ← s.channel.recv (← s.eventRx)
      let loop ← turn s.loop .event
      some { s with loop, eventRx := some position, pushed := s.pushed ++ [.ofReceived received] }
  | .turn x => (turn s.loop x).map fun loop => { s with loop }
  | .broken => some { s with loop := { s.loop with ended := true } }

def remaining [DecidableEq α] : List (Pushed α) → List α → Option (List α)
  | [], events => some events
  | .currentState :: frames, events => remaining frames events
  | .published e :: frames, a :: events => if a = e then remaining frames events else none
  | .published _ :: _, [] => none
  | .eventStreamLagged skipped :: frames, events =>
    if skipped ≤ events.length then remaining frames (events.drop skipped) else none

/-- On an open connection, what was published since the first subscription is what was delivered,
what was reported as skipped and what waits in the receiver. -/
def Accounted [DecidableEq α] (s : Subscriber α) : Prop :=
  s.loop.ended = false → ∀ n ∈ s.first, ∃ position ∈ s.eventRx,
    remaining s.pushed (s.channel.sent.drop n) = some (s.channel.unread position)

def Drops (s : Subscriber α) : Step α → Prop
  | .turn (.subscribe ..) => ∃ position ∈ s.eventRx, s.channel.unread position ≠ []
  | _ => False

/-- The property holds at every moment of the run. -/
def Throughout (P : Subscriber α → Prop) : Subscriber α → List (Step α) → Prop
  | s, [] => P s
  | s, x :: xs => P s ∧ ∀ s' ∈ step s x, Throughout P s' xs

/-- No step of the run drops an event. -/
def DropsNone : Subscriber α → List (Step α) → Prop
  | _, [] => True
  | s, x :: xs => ∀ s' ∈ step s x, ¬ Drops s x ∧ DropsNone s' xs

/-! ## The account -/

section
variable [DecidableEq α] {frames : List (Pushed α)} {events rest : List α}

theorem remaining_append (more : List (Pushed α)) : remaining (frames ++ more) events =
    (remaining frames events).bind (remaining more) := by
  fun_induction remaining frames events with
  | case1 events => rfl
  | case2 frames events ih => exact ih
  | case3 e frames events ih => simpa [remaining] using ih
  | case4 e frames a events hne => simp [remaining, hne]
  | case5 e frames => rfl
  | case6 skipped frames events hle ih => simpa [remaining, hle] using ih
  | case7 skipped frames events hlt => simp [remaining, hlt]

theorem remaining_publish (h : remaining frames events = some rest) (more : List α) :
    remaining frames (events ++ more) = some (rest ++ more) := by
  fun_induction remaining frames events with
  | case1 events =>
    cases h
    rfl
  | case2 frames events ih => exact ih h
  | case3 e frames events ih => simpa [remaining] using ih h
  | case4 e frames a events hne => cases h
  | case5 e frames => cases h
  | case6 skipped frames events hle ih =>
    have hlong : skipped ≤ (events ++ more).length := by
      rw [List.length_append]
      omega
    rw [remaining, if_pos hlong, List.drop_append_of_le_length hle]
    exact ih h
  | case7 skipped frames events hlt => cases h

/-! ## Runs -/

variable {s s' : Subscriber α}

omit [DecidableEq α] in
theorem step_cases {x : Step α} (h : step s x = some s') :
    (∃ e, x = .publish e ∧ s' = { s with channel := s.channel.send e }) ∨
    (∃ id snapshot loop, x = .turn (.subscribe id snapshot) ∧ turn s.loop (.subscribe id snapshot) = some loop ∧ s' = { s with
      loop
      eventRx := some s.channel.subscribe
      pushed := if snapshot then s.pushed ++ [.currentState] else s.pushed
      first := s.first.or (some s.channel.sent.length) }) ∨
    (∃ position received next loop, x = .turn .event ∧ s.eventRx = some position ∧
      s.channel.recv position = some (received, next) ∧
      s' = { s with loop, eventRx := some next, pushed := s.pushed ++ [.ofReceived received] }) ∨
    (¬ Drops s x ∧ ∃ loop, s' = { s with loop }) := by
  cases x with
  | publish e => exact .inl ⟨e, rfl, (Option.some.inj h).symm⟩
  | broken => exact .inr (.inr (.inr ⟨id, _, (Option.some.inj h).symm⟩))
  | turn x =>
    cases x with
    | subscribe id snapshot =>
      obtain ⟨loop, hturn, rfl⟩ := Option.map_eq_some_iff.mp h
      exact .inr (.inl ⟨id, snapshot, loop, rfl, hturn, rfl⟩)
    | event =>
      obtain ⟨position, hrx, h⟩ := Option.bind_eq_some_iff.mp h
      obtain ⟨⟨received, next⟩, hrecv, h⟩ := Option.bind_eq_some_iff.mp h
      obtain ⟨loop, -, h⟩ := Option.bind_eq_some_iff.mp h
      exact .inr (.inr (.inl ⟨position, received, next, loop, rfl, hrx, hrecv, (Option.some.inj h).symm⟩))
    | joined _ | request _ | decodeError | eof | shutdown =>
      obtain ⟨loop, -, rfl⟩ := Option.map_eq_some_iff.mp h
      exact .inr (.inr (.inr ⟨id, loop, rfl⟩))

structure Booked (s : Subscriber α) : Prop where
  before : s.first = none → s.eventRx = none ∧ s.pushed = []
  since : ∀ n ∈ s.first, n ≤ s.channel.sent.length ∧ ∃ position ∈ s.eventRx, position ≤ s.channel.sent.length ∧
    remaining s.pushed (s.channel.sent.drop n) = some (s.channel.unread position)

theorem booked_init (channel : Broadcast α) : Booked (.init channel) := ⟨fun _ => ⟨rfl, rfl⟩, nofun⟩

theorem Booked.accounted (h : Booked s) : Accounted s := by
  intro _ n hn
  obtain ⟨-, position, hrx, -, hremaining⟩ := h.since n hn
  exact ⟨position, hrx, hremaining⟩

theorem Booked.loop (h : Booked s) (loop : Connection) : Booked { s with loop } := ⟨h.before, h.since⟩

theorem Booked.publish (h : Booked s) (e : α) : Booked { s with channel := s.channel.send e } := by
  refine ⟨h.before, fun n hn => ?_⟩
  obtain ⟨hle, position, hrx, hposition, hremaining⟩ := h.since n hn
  have hlonger : s.channel.sent.length ≤ (s.channel.send e).sent.length := by
    rw [Broadcast.send_sent, List.length_append]
    exact Nat.le_add_right ..
  refine ⟨Nat.le_trans hle hlonger, position, hrx, Nat.le_trans hposition hlonger, ?_⟩
  show remaining s.pushed ((s.channel.sent ++ [e]).drop n) = _
  rw [List.drop_append_of_le_length hle, Broadcast.unread_send hposition]
  exact remaining_publish hremaining [e]

theorem remaining_received {position next : ℕ} {received : Broadcast.Received α} {channel : Broadcast α}
    (h : channel.recv position = some (received, next)) :
    next ≤ channel.sent.length ∧ remaining [.ofReceived received] (channel.unread position) = some (channel.unread next) := by
  cases received with
  | message a =>
    obtain ⟨hle, hunread⟩ := Broadcast.recv_message h
    rw [hunread]
    exact ⟨hle, if_pos rfl⟩
  | lagged skipped =>
    obtain ⟨hle, hskipped, hunread⟩ := Broadcast.recv_lagged h
    rw [hunread]
    exact ⟨hle, if_pos hskipped⟩

theorem Booked.receive (h : Booked s) {position next : ℕ} {received : Broadcast.Received α} (loop : Connection)
    (hrx : s.eventRx = some position) (hrecv : s.channel.recv position = some (received, next)) :
    Booked { s with loop, eventRx := some next, pushed := s.pushed ++ [.ofReceived received] } := by
  refine ⟨fun hnone => ?_, fun n hn => ?_⟩
  · rw [(h.before hnone).1] at hrx
    cases hrx
  · obtain ⟨hle, position', hrx', -, hremaining⟩ := h.since n hn
    rw [Option.mem_def, hrx] at hrx'
    cases hrx'
    obtain ⟨hnext, hreceived⟩ := remaining_received hrecv
    refine ⟨hle, next, rfl, hnext, ?_⟩
    show remaining (s.pushed ++ _) _ = _
    rw [remaining_append, hremaining]
    exact hreceived

theorem remaining_snapshot (snapshot : Bool) :
    remaining (if snapshot then frames ++ [.currentState] else frames) events = remaining frames events := by
  split
  · rw [remaining_append]
    cases remaining frames events <;> rfl
  · rfl

/-- A subscription keeps the account when its old receiver had read everything. -/
theorem Booked.subscribe (h : Booked s) (loop : Connection) (snapshot : Bool)
    (hread : ∀ position ∈ s.eventRx, s.channel.unread position = []) : Booked { s with
      loop
      eventRx := some s.channel.subscribe
      pushed := if snapshot then s.pushed ++ [.currentState] else s.pushed
      first := s.first.or (some s.channel.sent.length) } := by
  refine ⟨fun hnone => by cases hfirst : s.first <;> simp [hfirst] at hnone, fun n hn => ?_⟩
  cases hfirst : s.first with
  | none =>
    obtain rfl : s.channel.sent.length = n := by simpa [hfirst] using hn
    refine ⟨Nat.le_refl _, _, rfl, Nat.le_refl _, ?_⟩
    show remaining _ _ = some (s.channel.unread s.channel.subscribe)
    rw [remaining_snapshot, (h.before hfirst).2, Broadcast.unread_subscribe]
    exact congrArg some List.drop_length
  | some first =>
    obtain rfl : first = n := by simpa [hfirst] using hn
    obtain ⟨hle, position, hrx, -, hremaining⟩ := h.since first hfirst
    refine ⟨hle, _, rfl, Nat.le_refl _, ?_⟩
    show remaining _ _ = some (s.channel.unread s.channel.subscribe)
    rw [remaining_snapshot, hremaining, Broadcast.unread_subscribe, hread position hrx]

theorem Booked.step {x : Step α} (hs : step s x = some s') (hkept : ¬ Drops s x) (h : Booked s) : Booked s' := by
  obtain ⟨e, rfl, rfl⟩ | ⟨id, snapshot, loop, rfl, -, rfl⟩ | ⟨position, received, next, loop, rfl, hrx, hrecv, rfl⟩ |
    ⟨-, loop, rfl⟩ := step_cases hs
  · exact h.publish e
  · refine h.subscribe loop snapshot fun position hrx => ?_
    by_contra hunread
    exact hkept ⟨position, hrx, hunread⟩
  · exact h.receive loop hrx hrecv
  · exact h.loop loop

theorem ended_subscribe {c loop : Connection} {id : ℕ} {snapshot : Bool} (h : turn c (.subscribe id snapshot) = some loop) :
    loop.ended = false := by
  unfold turn at h
  split at h
  · cases h
  · rename_i hopen
    have hended : c.ended = false := by simpa using hopen
    simp only at h
    split at h
    · cases h
      split <;> exact hended
    · cases h

theorem not_accounted_of_drops {x : Step α} (hs : step s x = some s') (hdrops : Drops s x) (h : Booked s) :
    ¬ Accounted s' := by
  obtain ⟨e, rfl, -⟩ | ⟨id, snapshot, loop, rfl, hturn, rfl⟩ | ⟨position, received, next, loop, rfl, -⟩ |
      ⟨hkept, -⟩ := step_cases hs
  · exact hdrops.elim
  · obtain ⟨position, hrx, hunread⟩ := hdrops
    intro haccounted
    cases hfirst : s.first with
    | none =>
      rw [(h.before hfirst).1] at hrx
      cases hrx
    | some n =>
      obtain ⟨-, position', hrx', -, hremaining⟩ := h.since n hfirst
      rw [Option.mem_def, hrx] at hrx'
      cases hrx'
      obtain ⟨next, hnext, hbooked⟩ := haccounted (ended_subscribe hturn) n (by rw [Option.mem_def, hfirst]; rfl)
      cases hnext
      rw [remaining_snapshot] at hbooked
      rw [hremaining, Broadcast.unread_subscribe] at hbooked
      exact hunread (Option.some.inj hbooked)
  · exact hdrops.elim
  · exact absurd hdrops hkept

theorem Booked.throughout_iff (h : Booked s) (xs : List (Step α)) : Throughout Accounted s xs ↔ DropsNone s xs := by
  induction xs generalizing s with
  | nil => exact iff_of_true h.accounted trivial
  | cons x xs ih =>
    refine (and_iff_right h.accounted).trans (forall₂_congr fun s' hs => ?_)
    by_cases hdrops : Drops s x
    · refine iff_of_false (fun hthroughout => not_accounted_of_drops hs hdrops h ?_) fun hnone => hnone.1 hdrops
      cases xs with
      | nil => exact hthroughout
      | cons => exact hthroughout.1
    · exact (ih (h.step hs hdrops)).trans (and_iff_right hdrops).symm

end

/-- Every event is delivered, reported as skipped or waiting at every moment of a run exactly when
no subscription replaces a receiver in which events wait. -/
theorem accounted_iff_dropsNone [DecidableEq α] (channel : Broadcast α) (xs : List (Step α)) :
    Throughout Accounted (.init channel) xs ↔ DropsNone (.init channel) xs := (booked_init channel).throughout_iff xs

/-- An event published between two subscriptions of a connection is neither delivered nor reported. -/
theorem lost_by_subscription : ¬ ∀ (channel : Broadcast ℕ)
    (xs : List (Step ℕ)), Throughout Accounted (.init channel) xs := by
  intro hall
  have hdrops := ((booked_init _).throughout_iff _).mp
      (hall ⟨1024, []⟩ [.turn (.subscribe 1 true), .publish 7, .turn (.subscribe 2 true)])
  exact (hdrops _ rfl).2 _ rfl |>.2 _ rfl |>.1 ⟨0, rfl, nofun⟩

end CognitiveMemory.Server.Events
