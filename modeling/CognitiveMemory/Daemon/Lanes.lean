import CognitiveMemory.Lib.Semaphore
import CognitiveMemory.Protocol.Messages
import Mathlib.Logic.Function.Basic
import Mathlib.Logic.Relation

/-! The two lanes of the daemon: connections whose loops take permits of two semaphores, the tasks
that hold them, and what becomes possible without a bulk request giving one back. -/

namespace CognitiveMemory.Server.Lanes
open Wire

/-! ## The daemon -/

inductive Lane
  | bulk
  | hot
  deriving DecidableEq

def isBulkPayload : IpcPayload → Bool
  | .request (.lifecycle _) => true
  | .request (.diagnostics .doctor) | .request (.diagnostics (.recentTraces _)) => true
  | .request (.memory (.storeBatch _)) | .request (.memory (.deleteMany _)) | .request (.memory (.batchUpdate _)) => true
  | _ => false

def isSubscribe : IpcPayload → Bool
  | .request (.memory (.subscribe _)) => true
  | _ => false

def lane (m : IpcMessage) : Lane := if isBulkPayload m.payload then .bulk else .hot

/-- Where the loop of a connection is: at its `select!`, at the await of a permit, or holding the
permit for the task it is about to spawn. -/
inductive Stage
  | selecting
  | acquiring (m : IpcMessage)
  | granted (m : IpcMessage)

/-- `accept_requests` and `can_send`; a connection that cannot send accepts no requests. -/
inductive Mode
  | serving
  | draining
  | mute
  deriving DecidableEq

structure Conn where
  /-- All frames that have arrived, of which the loop has read so many. -/
  frames : List IpcMessage
  read : ℕ
  stage : Stage
  /-- `request_tasks`, still running and finished, by their requests. -/
  tasks : List IpcMessage
  finished : List IpcMessage
  /-- The requests whose responses have been sent. -/
  answered : List IpcMessage
  mode : Mode

def Conn.new : Conn := ⟨[], 0, .selecting, [], [], [], .serving⟩

def Conn.grant (c : Conn) : Conn :=
  match c.stage with
  | .acquiring m => { c with stage := .granted m }
  | _ => c

def Conn.held (c : Conn) : List Lane :=
  c.tasks.map lane ++ match c.stage with
    | .granted m => [lane m]
    | _ => []

def Conn.dispatched (c : Conn) : ℕ :=
  match c.stage with
  | .selecting => c.read
  | _ => c.read - 1

structure Daemon where
  conns : ℕ → Conn
  sems : Lane → Semaphore ℕ

def Daemon.start (requestLimit bulkLimit : ℕ) : Daemon where
  conns _ := .new
  sems
    | .bulk => .new bulkLimit
    | .hot => .new requestLimit

namespace Daemon

def set (s : Daemon) (k : ℕ) (c : Conn) : Daemon := { s with conns := Function.update s.conns k c }

def setSem (s : Daemon) (l : Lane) (sem : Semaphore ℕ) : Daemon := { s with sems := Function.update s.sems l sem }

/-- A permit is dropped. -/
def release (s : Daemon) (l : Lane) : Daemon :=
  match (s.sems l).release with
  | (none, sem) => s.setSem l sem
  | (some k, sem) => (s.setSem l sem).set k (s.conns k).grant

end Daemon

/-- What happens at a connection: a frame arrives, a finished task is joined and its response sent
or lost with the stream, a frame is read, the permit awaited is there, a task returns, the daemon
is told to shut down, the connection ends or is aborted with its tasks. -/
inductive Event
  | arrive (k : ℕ) (m : IpcMessage)
  | join (k : ℕ) (sent : Bool)
  | read (k : ℕ)
  | resume (k : ℕ)
  | finish (k i : ℕ)
  | shutdown (k : ℕ)
  | drop (k : ℕ)

def Conn.join (c : Conn) (m : IpcMessage) (rest : List IpcMessage) (sent : Bool) : Conn :=
  if c.mode = .mute then { c with finished := rest }
  else if sent then { c with finished := rest, answered := c.answered ++ [m] }
  else { c with finished := rest, mode := .mute }

namespace Daemon

def readFrame (s : Daemon) (k : ℕ) (m : IpcMessage) : Daemon :=
  let c := { s.conns k with read := (s.conns k).read + 1 }
  if isSubscribe m.payload then s.set k { c with answered := c.answered ++ [m] }
  else match (s.sems (lane m)).acquire k with
    | (true, sem) => (s.setSem (lane m) sem).set k { c with tasks := c.tasks ++ [m] }
    | (false, sem) => (s.setSem (lane m) sem).set k { c with stage := .acquiring m }

/-- The loop is gone, and what it waited for. -/
def ended (s : Daemon) (k : ℕ) : Daemon :=
  { s.set k { s.conns k with
      read := (s.conns k).dispatched, stage := .selecting, tasks := [], finished := [], mode := .mute } with
    sems := fun l => (s.sems l).abandon k }

def step (s : Daemon) : Event → Option Daemon
  | .arrive k m => some (s.set k { s.conns k with frames := (s.conns k).frames ++ [m] })
  | .join k sent =>
    match (s.conns k).stage, (s.conns k).finished with
    | .selecting, m :: rest => some (s.set k ((s.conns k).join m rest sent))
    | _, _ => none
  | .read k =>
    match (s.conns k).stage, (s.conns k).mode, (s.conns k).finished, (s.conns k).frames[(s.conns k).read]? with
    | .selecting, .serving, [], some m => some (s.readFrame k m)
    | _, _, _, _ => none
  | .resume k =>
    match (s.conns k).stage with
    | .granted m => some (s.set k { s.conns k with stage := .selecting, tasks := (s.conns k).tasks ++ [m] })
    | _ => none
  | .finish k i => ((s.conns k).tasks[i]?).map fun m =>
      (s.set k { s.conns k with
        tasks := (s.conns k).tasks.eraseIdx i, finished := (s.conns k).finished ++ [m] }).release (lane m)
  | .shutdown k =>
    match (s.conns k).stage, (s.conns k).mode with
    | .selecting, .serving => some (s.set k { s.conns k with mode := .draining })
    | _, _ => none
  | .drop k => some ((s.conns k).held.foldl release (s.ended k))

def run (s : Daemon) (es : List Event) : Option Daemon := es.foldlM step s

def releasesBulk (s : Daemon) : Event → Prop
  | .finish k i => ∃ m ∈ (s.conns k).tasks[i]?, lane m = .bulk
  | .drop k => Lane.bulk ∈ (s.conns k).held
  | _ => False

/-- What can happen while every bulk request keeps its permit. -/
def Quiet : Daemon → Daemon → Prop := Relation.ReflTransGen fun s s' => ∃ e, s.step e = some s' ∧ ¬ s.releasesBulk e

end Daemon

def Conn.HotArrived (c : Conn) (i : ℕ) : Prop := ∃ m, c.frames[i]? = some m ∧ lane m = .hot

/-- Whenever a hot permit is free, a hot request that has arrived, and the finished responses of its
connection, need no permit of a bulk request. -/
def Independent (s : Daemon) : Prop :=
  ∀ k i, (s.conns k).HotArrived i → 0 < (s.sems .hot).free →
    ((s.conns k).mode = .serving → ∃ s', s.Quiet s' ∧ i < (s'.conns k).dispatched) ∧
      ((s.conns k).mode ≠ .mute → ∃ s', s.Quiet s' ∧ (s.conns k).answered ++ (s.conns k).finished <+: (s'.conns k).answered)

def Conn.bulkBetween (c : Conn) (n i : ℕ) : ℕ := ((c.frames.take i).drop n).countP fun m => lane m = .bulk

/-- With a hot permit free, no connection to which a hot request came awaits a bulk permit before
it dispatches that request or sends a finished response, and none has more unread bulk requests
before the hot one than there are bulk permits. -/
def Clear (s : Daemon) : Prop :=
  ∀ k i, (s.conns k).HotArrived i → 0 < (s.sems .hot).free →
    ((s.conns k).mode = .serving → (s.conns k).bulkBetween (s.conns k).read i ≤ (s.sems .bulk).free) ∧
      ∀ m, (s.conns k).stage = .acquiring m → lane m = .bulk →
        ((s.conns k).mode = .serving → i < (s.conns k).dispatched) ∧ ((s.conns k).mode ≠ .mute → (s.conns k).finished = [])

/-! ## The queues -/

section
variable {s s' : Daemon} {k j i : ℕ} {l : Lane} {c : Conn} {m : IpcMessage}

@[simp] theorem set_sems : (s.set k c).sems = s.sems := rfl

@[simp] theorem set_conns_same : (s.set k c).conns k = c := Function.update_self ..

theorem set_conns_of_ne (h : j ≠ k) : (s.set k c).conns j = s.conns j := Function.update_of_ne h ..

@[simp] theorem setSem_conns {sem : Semaphore ℕ} : (s.setSem l sem).conns = s.conns := rfl

@[simp] theorem setSem_sems_same {sem : Semaphore ℕ} : (s.setSem l sem).sems l = sem := Function.update_self ..

theorem setSem_sems_of_ne {sem : Semaphore ℕ} {l' : Lane} (h : l' ≠ l) : (s.setSem l sem).sems l' = s.sems l' :=
    Function.update_of_ne h ..

structure Queued (s : Daemon) : Prop where
  mem_iff : ∀ l k, k ∈ (s.sems l).queue ↔ ∃ m, (s.conns k).stage = .acquiring m ∧ lane m = l
  nodup : ∀ l, (s.sems l).queue.Nodup

theorem queued_start (requestLimit bulkLimit : ℕ) : Queued (.start requestLimit bulkLimit) := by
  refine ⟨fun l k => ?_, fun l => ?_⟩
  · cases l <;> simp [Daemon.start, Semaphore.new, Conn.new]
  · cases l <;> exact List.nodup_nil

theorem Queued.set (h : Queued s) (hstage : ∀ m, c.stage = .acquiring m ↔ (s.conns k).stage = .acquiring m) :
    Queued (s.set k c) := by
  refine ⟨fun l j => ?_, h.nodup⟩
  rw [set_sems, h.mem_iff]
  by_cases hj : j = k
  · subst hj
    simp [hstage]
  · rw [set_conns_of_ne hj]

/-- Nobody waits and the permit is free again, or the first in the queue has it. -/
theorem release_cases (h : Queued s) (l : Lane) :
    (∀ l', l' ≠ l → (s.release l).sems l' = s.sems l') ∧
      ((s.release l).conns = s.conns ∧ (s.sems l).queue = [] ∧ ((s.release l).sems l).queue = [] ∧
          ((s.release l).sems l).free = (s.sems l).free + 1 ∨
        ∃ first m, (s.sems l).queue = first :: ((s.release l).sems l).queue ∧ ((s.release l).sems l).free = (s.sems l).free ∧
          (s.conns first).stage = .acquiring m ∧ lane m = l ∧
          (s.release l).conns = Function.update s.conns first { s.conns first with stage := .granted m }) := by
  cases hq : (s.sems l).queue with
  | nil =>
    obtain ⟨sem, hrelease, hfree, hqueue⟩ := Semaphore.release_of_nil hq
    have hs : s.release l = s.setSem l sem := by
      unfold Daemon.release
      rw [hrelease]
    rw [hs]
    exact ⟨fun l' hl => setSem_sems_of_ne hl, .inl ⟨rfl, rfl, by simpa using hqueue, by simpa using hfree⟩⟩
  | cons first rest =>
    obtain ⟨sem, hrelease, hfree, hqueue⟩ := Semaphore.release_of_queue hq
    obtain ⟨m, hstage, hlane⟩ := (h.mem_iff l first).mp (by rw [hq]; exact List.mem_cons_self)
    have hs : s.release l = (s.setSem l sem).set first { s.conns first with stage := .granted m } := by
      unfold Daemon.release Conn.grant
      rw [hrelease]
      simp only [hstage]
    rw [hs]
    refine ⟨fun l' hl => setSem_sems_of_ne hl, .inr ⟨first, m, by simp [hqueue], by simpa using hfree, hstage, hlane, rfl⟩⟩

theorem Queued.release (h : Queued s) (l : Lane) : Queued (s.release l) := by
  obtain ⟨hothers, ⟨hconns, hq, hq', -⟩ | ⟨first, m, hq, -, hstage, hlane, hconns⟩⟩ := release_cases h l
  · have hqueues : ∀ l', ((s.release l).sems l').queue = (s.sems l').queue := by
      intro l'
      by_cases hl : l' = l
      · rw [hl, hq, hq']
      · rw [hothers l' hl]
    refine ⟨fun l' k => ?_, fun l' => ?_⟩
    · rw [hqueues, hconns]
      exact h.mem_iff l' k
    · rw [hqueues]
      exact h.nodup l'
  · have hnodup := h.nodup l
    rw [hq, List.nodup_cons] at hnodup
    refine ⟨fun l' k => ?_, fun l' => ?_⟩
    · rw [hconns]
      by_cases hk : k = first
      · subst hk
        rw [Function.update_self]
        refine ⟨fun hmem => ?_, fun ⟨m', hm', _⟩ => by cases hm'⟩
        by_cases hl : l' = l
        · subst hl
          exact absurd hmem hnodup.1
        · rw [hothers l' hl, h.mem_iff] at hmem
          obtain ⟨m', hm', hlane'⟩ := hmem
          rw [hstage] at hm'
          cases hm'
          exact absurd (hlane'.symm.trans hlane) hl
      · rw [Function.update_of_ne hk, ← h.mem_iff]
        by_cases hl : l' = l
        · subst hl
          rw [hq, List.mem_cons]
          exact (or_iff_right hk).symm
        · rw [hothers l' hl]
    · by_cases hl : l' = l
      · subst hl
        exact hnodup.2
      · rw [hothers l' hl]
        exact h.nodup l'

theorem Queued.releases (h : Queued s) (ls : List Lane) : Queued (ls.foldl Daemon.release s) := by
  induction ls generalizing s with
  | nil => exact h
  | cons l ls ih => exact ih (h.release l)

theorem Queued.ended (h : Queued s) (k : ℕ) : Queued (s.ended k) := by
  refine ⟨fun l j => ?_, fun l => Semaphore.abandon_nodup (h.nodup l)⟩
  rw [show (s.ended k).sems l = (s.sems l).abandon k from rfl, Semaphore.mem_abandon, h.mem_iff]
  by_cases hj : j = k
  · subst hj
    simp [Daemon.ended, Daemon.set]
  · simp [Daemon.ended, Daemon.set, hj]

theorem readFrame_cases (s : Daemon) (k : ℕ) (m : IpcMessage) :
    (isSubscribe m.payload ∧ s.readFrame k m = s.set k { s.conns k with
        read := (s.conns k).read + 1, answered := (s.conns k).answered ++ [m] }) ∨
      (∃ sem, sem.free + 1 = (s.sems (lane m)).free ∧ sem.queue = (s.sems (lane m)).queue ∧
        s.readFrame k m = (s.setSem (lane m) sem).set k { s.conns k with
          read := (s.conns k).read + 1, tasks := (s.conns k).tasks ++ [m] }) ∨
      ∃ sem, (s.sems (lane m)).free = 0 ∧ sem.free = 0 ∧ sem.queue = (s.sems (lane m)).queue ++ [k] ∧
        s.readFrame k m = (s.setSem (lane m) sem).set k { s.conns k with
          read := (s.conns k).read + 1, stage := .acquiring m } := by
  unfold Daemon.readFrame
  by_cases hsubscribe : isSubscribe m.payload
  · exact .inl ⟨hsubscribe, if_pos hsubscribe⟩
  refine .inr ?_
  rw [if_neg hsubscribe]
  by_cases hfree : 0 < (s.sems (lane m)).free
  · obtain ⟨sem, hacquire, htaken, hqueue⟩ := Semaphore.acquire_of_free (i := k) hfree
    exact .inl ⟨sem, htaken, hqueue, by rw [hacquire]⟩
  · obtain ⟨sem, hacquire, htaken, hqueue⟩ := Semaphore.acquire_of_taken (i := k) (Nat.eq_zero_of_not_pos hfree)
    exact .inr ⟨sem, Nat.eq_zero_of_not_pos hfree, htaken, hqueue, by rw [hacquire]⟩

theorem Queued.setSem (h : Queued s) {sem : Semaphore ℕ} (hqueue : sem.queue = (s.sems l).queue) :
    Queued (s.setSem l sem) := by
  have hqueues : ∀ l', ((s.setSem l sem).sems l').queue = (s.sems l').queue := by
    intro l'
    by_cases hl : l' = l
    · subst hl
      simpa using hqueue
    · rw [setSem_sems_of_ne hl]
  refine ⟨fun l' k => ?_, fun l' => ?_⟩
  · rw [hqueues]
    exact h.mem_iff l' k
  · rw [hqueues]
    exact h.nodup l'

/-- A loop at its `select!` stands in no queue before it reads. -/
theorem Queued.readFrame (h : Queued s) (hstage : (s.conns k).stage = .selecting) (m : IpcMessage) :
    Queued (s.readFrame k m) := by
  have hidle : ∀ l, k ∉ (s.sems l).queue := by
    intro l hk
    obtain ⟨m', hm', -⟩ := (h.mem_iff l k).mp hk
    rw [hstage] at hm'
    cases hm'
  rcases readFrame_cases s k m with ⟨-, hs⟩ | ⟨sem, -, hqueue, hs⟩ | ⟨sem, -, -, hqueue, hs⟩
  · rw [hs]
    exact h.set fun _ => Iff.rfl
  · rw [hs]
    exact (h.setSem hqueue).set fun _ => Iff.rfl
  · rw [hs]
    refine ⟨fun l j => ?_, fun l => ?_⟩
    · by_cases hj : j = k
      · subst hj
        rw [set_sems, set_conns_same]
        by_cases hl : l = lane m
        · subst hl
          simp [hqueue]
        · rw [setSem_sems_of_ne hl]
          refine ⟨fun hmem => absurd hmem (hidle l), ?_⟩
          rintro ⟨m', hm', rfl⟩
          cases hm'
          exact absurd rfl hl
      · rw [set_sems, set_conns_of_ne hj, setSem_conns, ← h.mem_iff]
        by_cases hl : l = lane m
        · subst hl
          simp [hqueue, hj]
        · rw [setSem_sems_of_ne hl]
    · by_cases hl : l = lane m
      · subst hl
        rw [set_sems, setSem_sems_same, hqueue]
        exact List.nodup_append.mpr ⟨h.nodup _, List.nodup_singleton k, by
          rintro a ha b hb rfl
          exact hidle _ (List.mem_singleton.mp hb ▸ ha)⟩
      · rw [set_sems, setSem_sems_of_ne hl]
        exact h.nodup l

theorem step_cases {e : Event} (h : s.step e = some s') :
    (∃ k m, e = .arrive k m ∧ s' = s.set k { s.conns k with frames := (s.conns k).frames ++ [m] }) ∨
    (∃ k sent m rest, e = .join k sent ∧ (s.conns k).stage = .selecting ∧ (s.conns k).finished = m :: rest ∧
      s' = s.set k ((s.conns k).join m rest sent)) ∨
    (∃ k m, e = .read k ∧ (s.conns k).stage = .selecting ∧ (s.conns k).mode = .serving ∧ (s.conns k).finished = [] ∧
      (s.conns k).frames[(s.conns k).read]? = some m ∧ s' = s.readFrame k m) ∨
    (∃ k m, e = .resume k ∧ (s.conns k).stage = .granted m ∧
      s' = s.set k { s.conns k with stage := .selecting, tasks := (s.conns k).tasks ++ [m] }) ∨
    (∃ k i m, e = .finish k i ∧ (s.conns k).tasks[i]? = some m ∧ s' = (s.set k { s.conns k with
      tasks := (s.conns k).tasks.eraseIdx i, finished := (s.conns k).finished ++ [m] }).release (lane m)) ∨
    (∃ k, e = .shutdown k ∧ (s.conns k).stage = .selecting ∧ (s.conns k).mode = .serving ∧
      s' = s.set k { s.conns k with mode := .draining }) ∨
    ∃ k, e = .drop k ∧ s' = (s.conns k).held.foldl Daemon.release (s.ended k) := by
  cases e with
  | arrive k m => exact .inl ⟨k, m, rfl, (Option.some.inj h).symm⟩
  | join k sent =>
    refine .inr (.inl ?_)
    simp only [Daemon.step] at h
    split at h
    · exact ⟨k, sent, _, _, rfl, ‹_›, ‹_›, (Option.some.inj h).symm⟩
    · cases h
  | read k =>
    refine .inr (.inr (.inl ?_))
    simp only [Daemon.step] at h
    split at h
    · exact ⟨k, _, rfl, ‹_›, ‹_›, ‹_›, ‹_›, (Option.some.inj h).symm⟩
    · cases h
  | resume k =>
    refine .inr (.inr (.inr (.inl ?_)))
    simp only [Daemon.step] at h
    split at h
    · exact ⟨k, _, rfl, ‹_›, (Option.some.inj h).symm⟩
    · cases h
  | finish k i =>
    refine .inr (.inr (.inr (.inr (.inl ?_))))
    obtain ⟨m, hm, rfl⟩ := Option.map_eq_some_iff.mp h
    exact ⟨k, i, m, rfl, hm, rfl⟩
  | shutdown k =>
    refine .inr (.inr (.inr (.inr (.inr (.inl ?_)))))
    simp only [Daemon.step] at h
    split at h
    · exact ⟨k, rfl, ‹_›, ‹_›, (Option.some.inj h).symm⟩
    · cases h
  | drop k => exact .inr (.inr (.inr (.inr (.inr (.inr ⟨k, rfl, (Option.some.inj h).symm⟩)))))

theorem join_stage (c : Conn) (m : IpcMessage) (rest : List IpcMessage) (sent : Bool) :
    (c.join m rest sent).stage = c.stage := by
  unfold Conn.join
  split_ifs <;> rfl

theorem Queued.step {e : Event} (hs : s.step e = some s') (h : Queued s) : Queued s' := by
  obtain ⟨k, m, rfl, rfl⟩ | ⟨k, sent, m, rest, rfl, hstage, hfinished, rfl⟩ | ⟨k, m, rfl, hstage, -, -, -, rfl⟩ |
    ⟨k, m, rfl, hstage, rfl⟩ | ⟨k, i, m, rfl, hm, rfl⟩ | ⟨k, rfl, hstage, -, rfl⟩ | ⟨k, rfl, rfl⟩ := step_cases hs
  · exact h.set fun _ => Iff.rfl
  · exact h.set fun _ => by rw [join_stage]
  · exact h.readFrame hstage m
  · exact h.set fun _ => by rw [hstage]; exact ⟨nofun, nofun⟩
  · refine Queued.release ?_ (lane m)
    exact h.set fun _ => Iff.rfl
  · exact h.set fun _ => Iff.rfl
  · exact (h.ended k).releases _

/-! ## What stays possible -/

/-- What an event that takes no permit from a bulk request makes of a connection, with `n` bulk
permits free before and `n'` after. -/
inductive Moves (c : Conn) (n : ℕ) (c' : Conn) (n' : ℕ) : Prop
  | stays (hstage : c'.stage = c.stage) (hread : c'.read = c.read) (hframes : c.frames <+: c'.frames)
      (hmode : c'.mode = .serving → c.mode = .serving) (hmute : c.mode = .mute → c'.mode = .mute)
      (hanswered : c.stage = .selecting ∧ c.mode ≠ .mute ∨ c'.answered = c.answered) (hn : n' ≤ n)
  | passes (m : IpcMessage) (hbefore : c.stage = .selecting) (hmode : c.mode = .serving)
      (hm : c.frames[c.read]? = some m) (hstage : c'.stage = .selecting) (hread : c'.read = c.read + 1)
        (hframes : c'.frames = c.frames) (hn : n' ≤ n) (hbulk : lane m = .bulk → n' + 1 = n)
  | waits (m : IpcMessage) (hbefore : c.stage = .selecting) (hmode : c.mode = .serving)
      (hm : c.frames[c.read]? = some m) (hstage : c'.stage = .acquiring m) (hread : c'.read = c.read + 1)
        (hframes : c'.frames = c.frames) (hn : n' ≤ n)
  | granted (m : IpcMessage) (hbefore : c.stage = .acquiring m) (hhot : lane m = .hot) (hstage : c'.stage = .granted m)
      (hread : c'.read = c.read) (hframes : c'.frames = c.frames) (hn : n' ≤ n)
  | resumes (m : IpcMessage) (hbefore : c.stage = .granted m) (hstage : c'.stage = .selecting) (hread : c'.read = c.read)
      (hframes : c'.frames = c.frames) (hn : n' ≤ n)
  | ends (hstage : c'.stage = .selecting) (hmode : c'.mode = .mute) (hread : c'.read = c.dispatched)
      (hframes : c'.frames = c.frames) (hanswered : c'.answered = c.answered)

theorem moves_refl (c : Conn) (n : ℕ) : Moves c n c n := .stays rfl rfl (List.prefix_refl _) id id (.inr rfl) le_rfl

theorem release_hot (h : Queued s) (k : ℕ) : (s.release .hot).sems .bulk = s.sems .bulk ∧
    ((s.release .hot).conns k = s.conns k ∨
      ∃ m, (s.conns k).stage = .acquiring m ∧ lane m = .hot ∧ (s.release .hot).conns k =
        { s.conns k with stage := .granted m }) := by
  obtain ⟨hothers, ⟨hconns, -⟩ | ⟨first, m, -, -, hstage, hlane, hconns⟩⟩ := release_cases h .hot
  · exact ⟨hothers .bulk (by decide), .inl (by rw [hconns])⟩
  · refine ⟨hothers .bulk (by decide), ?_⟩
    rw [hconns]
    by_cases hk : k = first
    · subst hk
      rw [Function.update_self]
      exact .inr ⟨m, hstage, hlane, rfl⟩
    · rw [Function.update_of_ne hk]
      exact .inl rfl

theorem releases_hot (h : Queued s) {ls : List Lane} (hls : Lane.bulk ∉ ls) (k : ℕ) :
    (ls.foldl Daemon.release s).sems .bulk = s.sems .bulk ∧ ((ls.foldl Daemon.release s).conns k = s.conns k ∨
      ∃ m, (s.conns k).stage = .acquiring m ∧ lane m = .hot ∧
        (ls.foldl Daemon.release s).conns k = { s.conns k with stage := .granted m }) := by
  induction ls generalizing s with
  | nil => exact ⟨rfl, .inl rfl⟩
  | cons l ls ih =>
    obtain rfl : l = .hot := by
      cases l with
      | bulk => exact absurd List.mem_cons_self hls
      | hot => rfl
    obtain ⟨hsem, hconn⟩ := release_hot h k
    obtain ⟨hsems, hconns⟩ := ih (h.release .hot) fun hmem => hls (List.mem_cons_of_mem _ hmem)
    refine ⟨hsems.trans hsem, ?_⟩
    rw [List.foldl_cons]
    rcases hconn with hsame | ⟨m, hstage, hlane, hgranted⟩
    · rw [hsame] at hconns
      exact hconns
    · rcases hconns with hsame | ⟨m', hstage', -⟩
      · exact .inr ⟨m, hstage, hlane, hsame.trans hgranted⟩
      · rw [hgranted] at hstage'
        cases hstage'

theorem lane_subscribe (h : isSubscribe m.payload) : lane m = .hot := by
  unfold isSubscribe at h
  split at h
  · rename_i heq
    simp [lane, isBulkPayload, heq]
  · cases h

/-- A change to one connection, followed by hot permits that come back. -/
theorem moves_set (h : Queued s) (c : Conn) (ls : List Lane) (hls : Lane.bulk ∉ ls) (hstage : c.stage = (s.conns j).stage)
    (hread : c.read = (s.conns j).read) (hframes : c.frames = (s.conns j).frames) (hmode : c.mode = (s.conns j).mode)
    (hanswered : c.answered = (s.conns j).answered) (k : ℕ) :
    Moves (s.conns k) (s.sems .bulk).free ((ls.foldl Daemon.release (s.set j c)).conns k)
      ((ls.foldl Daemon.release (s.set j c)).sems .bulk).free := by
  have hset : Queued (s.set j c) := h.set fun m => by rw [hstage]
  obtain ⟨hsem, hconn⟩ := releases_hot hset hls k
  rw [hsem]
  by_cases hk : k = j
  · subst hk
    rw [set_conns_same] at hconn
    rcases hconn with hsame | ⟨m, hbefore, hlane, hgranted⟩
    · rw [hsame]
      exact .stays hstage hread (hframes ▸ List.prefix_refl _) (fun hserving => hmode ▸ hserving)
          (fun hmute => hmode ▸ hmute) (.inr hanswered) le_rfl
    · rw [hgranted]
      exact .granted m (hstage ▸ hbefore) hlane rfl hread hframes le_rfl
  · rw [set_conns_of_ne hk] at hconn
    rcases hconn with hsame | ⟨m, hbefore, hlane, hgranted⟩
    · rw [hsame]
      exact moves_refl _ _
    · rw [hgranted]
      exact .granted m hbefore hlane rfl rfl rfl le_rfl

theorem moves_ended (h : Queued s) {ls : List Lane} (hls : Lane.bulk ∉ ls) (j k : ℕ) :
    Moves (s.conns k) (s.sems .bulk).free ((ls.foldl Daemon.release (s.ended j)).conns k)
      ((ls.foldl Daemon.release (s.ended j)).sems .bulk).free := by
  obtain ⟨hsem, hconn⟩ := releases_hot (h.ended j) hls k
  have hfree : ((ls.foldl Daemon.release (s.ended j)).sems .bulk).free = (s.sems .bulk).free := by
    rw [hsem]
    rfl
  rw [hfree]
  by_cases hk : k = j
  · subst hk
    have hended : (s.ended k).conns k = { s.conns k with
        read := (s.conns k).dispatched, stage := .selecting, tasks := [], finished := [], mode := .mute } :=
          Function.update_self ..
    rw [hended] at hconn
    rcases hconn with hsame | ⟨m, hbefore, -⟩
    · rw [hsame]
      exact .ends rfl rfl rfl rfl rfl
    · cases hbefore
  · have hother : (s.ended j).conns k = s.conns k := Function.update_of_ne hk ..
    rw [hother] at hconn
    rcases hconn with hsame | ⟨m, hbefore, hlane, hgranted⟩
    · rw [hsame]
      exact moves_refl _ _
    · rw [hgranted]
      exact .granted m hbefore hlane rfl rfl rfl le_rfl

theorem setSem_bulk {sem : Semaphore ℕ} {n : ℕ} (hfree : sem.free + n = (s.sems l).free) :
    ((s.setSem l sem).sems .bulk).free + (if l = .bulk then n else 0) = (s.sems .bulk).free := by
  cases l with
  | bulk => simpa using hfree
  | hot => rfl

theorem moves_read (hmode : (s.conns j).mode = .serving) (hm : (s.conns j).frames[(s.conns j).read]? = some m)
    (hstage : (s.conns j).stage = .selecting) (k : ℕ) :
    Moves (s.conns k) (s.sems .bulk).free ((s.readFrame j m).conns k) ((s.readFrame j m).sems .bulk).free := by
  rcases readFrame_cases s j m with ⟨hsubscribe, hs⟩ | ⟨sem, htaken, -, hs⟩ | ⟨sem, hnone, hfree, -, hs⟩
  · rw [hs, set_sems]
    by_cases hk : k = j
    · subst hk
      rw [set_conns_same]
      exact .passes m hstage hmode hm hstage rfl rfl le_rfl fun hbulk => by rw [lane_subscribe hsubscribe] at hbulk; cases hbulk
    · rw [set_conns_of_ne hk]
      exact moves_refl _ _
  · have hbulk := setSem_bulk htaken
    rw [hs, set_sems]
    by_cases hk : k = j
    · subst hk
      rw [set_conns_same]
      refine .passes m hstage hmode hm hstage rfl rfl (by omega) fun hlane => ?_
      rwa [if_pos hlane] at hbulk
    · rw [set_conns_of_ne hk]
      exact .stays rfl rfl (List.prefix_refl _) id id (.inr rfl) (by omega)
  · have hsame : sem.free + 0 = (s.sems (lane m)).free := hfree.trans hnone.symm
    have hbulk := setSem_bulk hsame
    rw [hs, set_sems]
    by_cases hk : k = j
    · subst hk
      rw [set_conns_same]
      exact .waits m hstage hmode hm rfl rfl rfl (by omega)
    · rw [set_conns_of_ne hk]
      exact .stays rfl rfl (List.prefix_refl _) id id (.inr rfl) (by omega)

theorem moves_of_quiet {e : Event} (h : Queued s) (hs : s.step e = some s') (hquiet : ¬ s.releasesBulk e) (k : ℕ) :
    Moves (s.conns k) (s.sems .bulk).free (s'.conns k) (s'.sems .bulk).free := by
  obtain ⟨j, m, rfl, rfl⟩ | ⟨j, sent, m, rest, rfl, hstage, hfinished, rfl⟩ | ⟨j, m, rfl, hstage, hmode, -, hm, rfl⟩ |
    ⟨j, m, rfl, hstage, rfl⟩ | ⟨j, i, m, rfl, hm, rfl⟩ | ⟨j, rfl, hstage, hserving, rfl⟩ | ⟨j, rfl, rfl⟩ := step_cases hs
  · by_cases hk : k = j
    · subst hk
      rw [set_conns_same]
      exact .stays rfl rfl (List.prefix_append _ _) id id (.inr rfl) le_rfl
    · rw [set_conns_of_ne hk]
      exact moves_refl _ _
  · by_cases hk : k = j
    · subst hk
      rw [set_conns_same]
      unfold Conn.join
      split_ifs
      · exact .stays rfl rfl (List.prefix_refl _) id id (.inr rfl) le_rfl
      · exact .stays rfl rfl (List.prefix_refl _) id id (.inl ⟨hstage, ‹_›⟩) le_rfl
      · exact .stays rfl rfl (List.prefix_refl _) nofun (fun _ => rfl) (.inr rfl) le_rfl
    · rw [set_conns_of_ne hk]
      exact moves_refl _ _
  · exact moves_read hmode hm hstage k
  · by_cases hk : k = j
    · subst hk
      rw [set_conns_same]
      exact .resumes m hstage rfl rfl rfl le_rfl
    · rw [set_conns_of_ne hk]
      exact moves_refl _ _
  -- a bulk task may not finish, so the permit that comes back is hot
  · have hhot : lane m = .hot := by
      cases hlane : lane m with
      | bulk => exact absurd ⟨m, hm, hlane⟩ hquiet
      | hot => rfl
    rw [hhot]
    let returned := { s.conns j with
      tasks := (s.conns j).tasks.eraseIdx i, finished := (s.conns j).finished ++ [m] }
    exact moves_set h returned [.hot] (by decide) rfl rfl rfl rfl rfl k
  · by_cases hk : k = j
    · subst hk
      rw [set_conns_same]
      exact .stays rfl rfl (List.prefix_refl _) nofun (fun hmute => by rw [hserving] at hmute; cases hmute) (.inr rfl) le_rfl
    · rw [set_conns_of_ne hk]
      exact moves_refl _ _
  · exact moves_ended h hquiet j k

/-! ### Stuck requests -/

inductive Stuck (i : ℕ) (c : Conn) (n : ℕ) : Prop
  | waiting (m : IpcMessage) (hstage : c.stage = .acquiring m) (hbulk : lane m = .bulk) (hread : c.read ≤ i + 1)
  | behind (hi : i < c.frames.length) (hread : c.read ≤ i) (hcount : n < c.bulkBetween c.read i)
  | closed (hmode : c.mode ≠ .serving) (hstage : c.stage = .selecting) (hread : c.read ≤ i)

theorem dispatched_le (c : Conn) : c.dispatched ≤ c.read := by
  unfold Conn.dispatched
  split <;> omega

theorem Stuck.not_dispatched {n : ℕ} (h : Stuck i c n) : c.dispatched ≤ i := by
  cases h with
  | waiting m hstage hbulk hread =>
    unfold Conn.dispatched
    rw [hstage]
    show c.read - 1 ≤ i
    omega
  | behind hi hread hcount => exact (dispatched_le c).trans hread
  | closed hmode hstage hread => exact (dispatched_le c).trans hread

theorem bulkBetween_congr {c' : Conn} (hframes : c.frames <+: c'.frames) (hi : i < c.frames.length) (n : ℕ) :
    c'.bulkBetween n i = c.bulkBetween n i := by
  obtain ⟨rest, hrest⟩ := hframes
  unfold Conn.bulkBetween
  rw [← hrest, List.take_append_of_le_length hi.le]

theorem bulkBetween_succ {n : ℕ} (hm : c.frames[n]? = some m) (hn : n < i) :
    c.bulkBetween n i = c.bulkBetween (n + 1) i + if lane m = .bulk then 1 else 0 := by
  obtain ⟨hlt, rfl⟩ := List.getElem?_eq_some_iff.mp hm
  have hlen : n < (c.frames.take i).length := by
    rw [List.length_take]
    omega
  unfold Conn.bulkBetween
  rw [List.drop_eq_getElem_cons hlen, List.countP_cons]
  simp

theorem lt_of_bulkBetween {n : ℕ} (h : 0 < c.bulkBetween n i) : n < i := by
  by_contra hle
  unfold Conn.bulkBetween at h
  rw [List.drop_eq_nil_of_le (by rw [List.length_take]; omega)] at h
  exact absurd h (by simp)

theorem Stuck.moves {c' : Conn} {n n' : ℕ} (h : Stuck i c n) (hmoves : Moves c n c' n') : Stuck i c' n' := by
  cases h with
  | waiting m hstage hbulk hread =>
    cases hmoves with
    | stays hstage' hread' => exact .waiting m (hstage'.trans hstage) hbulk (hread'.trans_le hread)
    | passes m' hbefore | waits m' hbefore | resumes m' hbefore =>
      rw [hstage] at hbefore
      cases hbefore
    | granted m' hbefore hhot =>
      rw [hstage] at hbefore
      cases hbefore
      rw [hbulk] at hhot
      cases hhot
    | ends hstage' hmode hread' =>
      -- the frame waiting for its permit was read and is not dispatched
      have hpending : c.dispatched ≤ i := not_dispatched (n := n) (.waiting m hstage hbulk hread)
      exact .closed (by rw [hmode]; decide) hstage' (hread'.trans_le hpending)
  | behind hi hread hcount =>
    cases hmoves with
    | stays hstage' hread' hframes hmode hmute hanswered hn =>
      refine .behind (hi.trans_le hframes.length_le) (hread'.trans_le hread) ?_
      rw [bulkBetween_congr hframes hi, hread']
      omega
    | passes m hbefore hmode hm hstage' hread' hframes hn hcost =>
      have hlt : c.read < i := lt_of_bulkBetween (Nat.zero_lt_of_lt hcount)
      have hone := bulkBetween_succ hm hlt
      refine .behind (hframes ▸ hi) (by omega) ?_
      rw [bulkBetween_congr (hframes ▸ List.prefix_refl _) hi, hread']
      split at hone
      -- a bulk frame that passes takes one of the free permits with it
      · have hpaid := hcost ‹_›
        omega
      · omega
    | waits m hbefore hmode hm hstage' hread' hframes hn =>
      have hlt : c.read < i := lt_of_bulkBetween (Nat.zero_lt_of_lt hcount)
      have hone := bulkBetween_succ hm hlt
      by_cases hbulk : lane m = .bulk
      · exact .waiting m hstage' hbulk (by omega)
      · rw [if_neg hbulk] at hone
        refine .behind (hframes ▸ hi) (by omega) ?_
        rw [bulkBetween_congr (hframes ▸ List.prefix_refl _) hi, hread']
        omega
    | granted m hbefore hhot hstage' hread' hframes hn | resumes m hbefore hstage' hread' hframes hn =>
      refine .behind (hframes ▸ hi) (hread'.trans_le hread) ?_
      rw [bulkBetween_congr (hframes ▸ List.prefix_refl _) hi, hread']
      omega
    | ends hstage' hmode hread' =>
      exact .closed (by rw [hmode]; decide) hstage' (hread'.trans_le ((dispatched_le c).trans hread))
  | closed hmode hstage hread =>
    cases hmoves with
    | stays hstage' hread' hframes hmode' =>
      exact .closed (fun hserving => hmode (hmode' hserving)) (hstage'.trans hstage) (hread'.trans_le hread)
    | passes m hbefore hserving | waits m hbefore hserving => exact absurd hserving hmode
    | granted m hbefore | resumes m hbefore =>
      rw [hstage] at hbefore
      cases hbefore
    | ends hstage' hmode' hread' =>
      exact .closed (by rw [hmode']; decide) hstage' (hread'.trans_le ((dispatched_le c).trans hread))

inductive Silent (c : Conn) : Prop
  | waiting (m : IpcMessage) (hstage : c.stage = .acquiring m) (hbulk : lane m = .bulk)
  | mute (hstage : c.stage = .selecting) (hmode : c.mode = .mute)

theorem Silent.moves {c' : Conn} {n n' : ℕ} (h : Silent c) (hmoves : Moves c n c' n') :
    Silent c' ∧ c'.answered = c.answered := by
  cases h with
  | waiting m hstage hbulk =>
    cases hmoves with
    | stays hstage' hread hframes hmode hmute hanswered =>
      refine ⟨.waiting m (hstage'.trans hstage) hbulk, hanswered.resolve_left fun hselecting => ?_⟩
      rw [hstage] at hselecting
      cases hselecting.1
    | passes m' hbefore | waits m' hbefore | resumes m' hbefore =>
      rw [hstage] at hbefore
      cases hbefore
    | granted m' hbefore hhot =>
      rw [hstage] at hbefore
      cases hbefore
      rw [hbulk] at hhot
      cases hhot
    | ends hstage' hmode hread hframes hanswered => exact ⟨.mute hstage' hmode, hanswered⟩
  | mute hstage hmode =>
    cases hmoves with
    | stays hstage' hread hframes _ hmute hanswered =>
      exact ⟨.mute (hstage'.trans hstage) (hmute hmode), hanswered.resolve_left fun hselecting => hselecting.2 hmode⟩
    | passes m hbefore hserving | waits m hbefore hserving =>
      rw [hmode] at hserving
      cases hserving
    | granted m hbefore | resumes m hbefore =>
      rw [hstage] at hbefore
      cases hbefore
    | ends hstage' hmode' hread hframes hanswered => exact ⟨.mute hstage' hmode', hanswered⟩

/-- No run that leaves the bulk requests their permits dispatches a stuck one. -/
theorem Stuck.quiet (h : Queued s) (hstuck : Stuck i (s.conns k) (s.sems .bulk).free) (hrun : s.Quiet s') :
    (s'.conns k).dispatched ≤ i := by
  have hkept : Queued s' ∧ Stuck i (s'.conns k) (s'.sems .bulk).free := by
    induction hrun with
    | refl => exact ⟨h, hstuck⟩
    | tail _ hstep ih =>
      obtain ⟨e, hs, hquiet⟩ := hstep
      exact ⟨ih.1.step hs, ih.2.moves (moves_of_quiet ih.1 hs hquiet k)⟩
  exact hkept.2.not_dispatched

theorem Silent.quiet (h : Queued s) (hsilent : Silent (s.conns k)) (hrun : s.Quiet s') :
    (s'.conns k).answered = (s.conns k).answered := by
  have hkept : Queued s' ∧ Silent (s'.conns k) ∧ (s'.conns k).answered = (s.conns k).answered := by
    induction hrun with
    | refl => exact ⟨h, hsilent, rfl⟩
    | tail _ hstep ih =>
      obtain ⟨e, hs, hquiet⟩ := hstep
      obtain ⟨hqueued, hstill, hanswered⟩ := ih
      obtain ⟨hnext, hsame⟩ := hstill.moves (moves_of_quiet hqueued hs hquiet k)
      exact ⟨hqueued.step hs, hnext, hsame.trans hanswered⟩
  exact hkept.2.2

theorem clear_of_independent (h : Queued s) (hindependent : Independent s) : Clear s := by
  intro k i harrived hfree
  obtain ⟨hdispatches, hanswers⟩ := hindependent k i harrived hfree
  have hreached : (s.conns k).mode = .serving → ¬ Stuck i (s.conns k) (s.sems .bulk).free := by
    intro hserving hstuck
    obtain ⟨s', hrun, hdispatched⟩ := hdispatches hserving
    have := hstuck.quiet h hrun
    omega
  obtain ⟨m, hm, hhot⟩ := harrived
  constructor
  · intro hserving
    by_contra hcount
    refine hreached hserving (.behind (List.getElem?_eq_some_iff.mp hm).1 ?_ (by omega))
    exact (lt_of_bulkBetween (Nat.zero_lt_of_lt (not_le.mp hcount))).le
  · intro m' hstage hbulk
    constructor
    · intro hserving
      by_contra hpending
      refine hreached hserving (.waiting m' hstage hbulk ?_)
      have hread : ¬ i < (s.conns k).read - 1 := by simpa only [Conn.dispatched, hstage] using hpending
      omega
    · intro hmode
      obtain ⟨s', hrun, hsent⟩ := hanswers hmode
      rw [(Silent.waiting m' hstage hbulk).quiet h hrun] at hsent
      exact List.append_right_eq_self.mp (hsent.eq_of_length_le (by simp))

/-! ### Requests that get through -/

theorem Queued.quiet (h : Queued s) (hrun : s.Quiet s') : Queued s' := by
  induction hrun with
  | refl => exact h
  | tail _ hstep ih =>
    obtain ⟨e, hs, -⟩ := hstep
    exact ih.step hs

theorem quiet_step {e : Event} (hs : s.step e = some s') (hquiet : ¬ s.releasesBulk e) :
    s.Quiet s' := .single ⟨e, hs, hquiet⟩

theorem flush (hstage : (s.conns k).stage = .selecting) (hmode : (s.conns k).mode ≠ .mute) :
    ∃ s', s.Quiet s' ∧ s'.sems = s.sems ∧ s'.conns k = { s.conns k with
      finished := [], answered := (s.conns k).answered ++ (s.conns k).finished } := by
  generalize hfinished : (s.conns k).finished = finished
  induction finished generalizing s with
  | nil => exact ⟨s, .refl, rfl, by rw [List.append_nil, ← hfinished]⟩
  | cons m rest ih =>
    have hs : s.step (.join k true) = some (s.set k ((s.conns k).join m rest true)) := by
      simp only [Daemon.step, hstage, hfinished]
    have hjoined : (s.conns k).join m rest true =
        { s.conns k with finished := rest, answered := (s.conns k).answered ++ [m] } := by
      simp [Conn.join, hmode]
    rw [hjoined] at hs
    let c := { s.conns k with finished := rest, answered := (s.conns k).answered ++ [m] }
    have hc : (s.set k c).conns k = c := set_conns_same
    obtain ⟨s', hrun, hsems, hconn⟩ := ih (s := s.set k c) (by rw [hc]; exact hstage) (by rw [hc]; exact hmode) (by rw [hc])
    refine ⟨s', (quiet_step hs id).trans hrun, hsems, ?_⟩
    rw [hconn, hc]
    simp only [c, List.append_assoc, List.singleton_append]

theorem read_step (hstage : (s.conns k).stage = .selecting) (hmode : (s.conns k).mode = .serving)
    (hfinished : (s.conns k).finished = [])
    (hm : (s.conns k).frames[(s.conns k).read]? = some m) : s.Quiet (s.readFrame k m) := by
  refine quiet_step (e := .read k) ?_ id
  simp only [Daemon.step, hstage, hmode, hfinished, hm]

theorem return_step (h : Queued s) {before : List IpcMessage} (htasks : (s.conns k).tasks = before ++ [m])
    (hhot : lane m = .hot) (hqueue : (s.sems .hot).queue = []) :
    ∃ s', s.Quiet s' ∧ 0 < (s'.sems .hot).free ∧ s'.sems .bulk = s.sems .bulk ∧
      s'.conns k = { s.conns k with tasks := before, finished := (s.conns k).finished ++ [m] } := by
  have htask : (s.conns k).tasks[before.length]? = some m := by
    rw [htasks]
    simp
  have herase : (s.conns k).tasks.eraseIdx before.length = before := by
    rw [htasks, List.eraseIdx_append_of_length_le le_rfl, Nat.sub_self]
    exact List.append_nil before
  let c := { s.conns k with tasks := before, finished := (s.conns k).finished ++ [m] }
  have hs : s.step (.finish k before.length) = some ((s.set k c).release .hot) := by
    show ((s.conns k).tasks[before.length]?).map _ = _
    rw [htask, Option.map_some, herase, hhot]
  have hset : Queued (s.set k c) := h.set fun _ => Iff.rfl
  obtain ⟨hothers, ⟨hconns, -, -, hfree⟩ | ⟨first, m', hq, -⟩⟩ := release_cases hset .hot
  · refine ⟨_, quiet_step hs ?_, ?_, hothers .bulk (by decide), ?_⟩
    · rintro ⟨m', hm', hbulk⟩
      rw [htask] at hm'
      cases hm'
      rw [hhot] at hbulk
      cases hbulk
    · rw [hfree]
      exact Nat.succ_pos _
    · rw [hconns, set_conns_same]
  · rw [set_sems, hqueue] at hq
    cases hq

structure Ready (s : Daemon) (k : ℕ) : Prop where
  selecting : (s.conns k).stage = .selecting
  serving : (s.conns k).mode = .serving
  free : 0 < (s.sems .hot).free

/-- A loop that is ready reads its next frame and is ready again; a bulk request keeps its permit. -/
theorem Ready.next (h : Queued s) (hready : Ready s k) (hm : (s.conns k).frames[(s.conns k).read]? = some m)
    (hbulk : lane m = .bulk → 0 < (s.sems .bulk).free) :
    ∃ s', s.Quiet s' ∧ Ready s' k ∧ (s'.sems .bulk).free + (if lane m = .bulk then 1 else 0) = (s.sems .bulk).free ∧
      (s'.conns k).read = (s.conns k).read + 1 ∧ (s'.conns k).frames = (s.conns k).frames := by
  obtain ⟨s₁, hflush, hsems, hconn⟩ := flush hready.selecting (by rw [hready.serving]; decide)
  have h₁ : Queued s₁ := h.quiet hflush
  have hread : s₁.Quiet (s₁.readFrame k m) := by
    refine read_step ?_ ?_ ?_ ?_
    · rw [hconn]
      exact hready.selecting
    · rw [hconn]
      exact hready.serving
    · rw [hconn]
    · rw [hconn]
      exact hm
  have hnext : Queued (s₁.readFrame k m) := h₁.quiet hread
  rcases readFrame_cases s₁ k m with ⟨hsubscribe, hs⟩ | ⟨sem, htaken, hqueue, hs⟩ | ⟨sem, hnone, -⟩
  · rw [hs, hconn] at hread
    refine ⟨_, hflush.trans hread, ⟨?_, ?_, ?_⟩, ?_, ?_, ?_⟩
    · rw [set_conns_same]
      exact hready.selecting
    · rw [set_conns_same]
      exact hready.serving
    · rw [set_sems, hsems]
      exact hready.free
    · rw [set_sems, hsems, lane_subscribe hsubscribe]
      rfl
    · rw [set_conns_same]
    · rw [set_conns_same]
  · have hfree := setSem_bulk htaken
    rw [hsems] at htaken hqueue hfree
    rw [hs] at hread hnext
    cases hlane : lane m with
    | bulk =>
      rw [hlane] at hread hfree
      refine ⟨_, hflush.trans hread, ⟨?_, ?_, ?_⟩, hfree, ?_, ?_⟩
      · rw [set_conns_same, hconn]
        exact hready.selecting
      · rw [set_conns_same, hconn]
        exact hready.serving
      · rw [set_sems, setSem_sems_of_ne (by decide), hsems]
        exact hready.free
      · rw [set_conns_same, hconn]
      · rw [set_conns_same, hconn]
    | hot =>
      rw [hlane] at hread hfree hnext hqueue
      -- the task may return before anything else happens
      have hidle : ((((s₁.setSem .hot sem).set k { s₁.conns k with
          read := (s₁.conns k).read + 1, tasks := (s₁.conns k).tasks ++ [m] })).sems .hot).queue = [] := by
        rw [set_sems, setSem_sems_same, hqueue]
        exact Semaphore.queue_eq_nil _ hready.free
      obtain ⟨s₂, hreturn, hhot, hsame, hconn₂⟩ := return_step hnext (by rw [set_conns_same]) hlane hidle
      refine ⟨s₂, (hflush.trans hread).trans hreturn, ⟨?_, ?_, hhot⟩, ?_, ?_, ?_⟩
      · rw [hconn₂, set_conns_same, hconn]
        exact hready.selecting
      · rw [hconn₂, set_conns_same, hconn]
        exact hready.serving
      · rw [hsame]
        exact hfree
      · rw [hconn₂, set_conns_same, hconn]
      · rw [hconn₂, set_conns_same, hconn]
  · rw [hsems] at hnone
    cases hlane : lane m with
    | bulk =>
      have := hbulk hlane
      rw [hlane] at hnone
      omega
    | hot =>
      have := hready.free
      rw [hlane] at hnone
      omega

/-- With enough bulk permits for what comes before it, the loop reads up to any frame. -/
theorem Ready.reaches (h : Queued s) (hready : Ready s k) (hm : (s.conns k).frames[i]? = some m) (hhot : lane m = .hot)
    (hread : (s.conns k).read ≤ i) (hcount : (s.conns k).bulkBetween (s.conns k).read i ≤ (s.sems .bulk).free) :
    ∃ s', s.Quiet s' ∧ i < (s'.conns k).dispatched := by
  induction hn : i - (s.conns k).read generalizing s with
  | zero =>
    have hi : (s.conns k).read = i := by omega
    have hbulk : lane m = .bulk → 0 < (s.sems .bulk).free := fun hbulk => by
      rw [hhot] at hbulk
      cases hbulk
    obtain ⟨s', hrun, hready', -, hread', -⟩ := hready.next h (hi ▸ hm) hbulk
    refine ⟨s', hrun, ?_⟩
    unfold Conn.dispatched
    rw [hready'.selecting]
    show i < (s'.conns k).read
    omega
  | succ n ih =>
    have hlt : (s.conns k).read < i := by omega
    obtain ⟨m', hm'⟩ : ∃ m', (s.conns k).frames[(s.conns k).read]? = some m' := by
      have hlen := (List.getElem?_eq_some_iff.mp hm).1
      exact ⟨_, List.getElem?_eq_getElem (hlt.trans hlen)⟩
    have hone := bulkBetween_succ hm' hlt
    have hbulk : lane m' = .bulk → 0 < (s.sems .bulk).free := fun hbulk => by
      rw [if_pos hbulk] at hone
      omega
    obtain ⟨s₁, hrun, hready₁, hfree, hread₁, hframes⟩ := hready.next h hm' hbulk
    have hcount₁ : (s₁.conns k).bulkBetween (s₁.conns k).read i ≤ (s₁.sems .bulk).free := by
      have hsame : (s₁.conns k).bulkBetween (s₁.conns k).read i = (s.conns k).bulkBetween ((s.conns k).read + 1) i := by
        unfold Conn.bulkBetween
        rw [hframes, hread₁]
      omega
    obtain ⟨s', hrest, hdispatched⟩ := ih (h.quiet hrun) hready₁ (hframes ▸ hm) (by omega) hcount₁ (by omega)
    exact ⟨s', hrun.trans hrest, hdispatched⟩

theorem resume_step (hstage : (s.conns k).stage = .granted m) :
    s.Quiet (s.set k { s.conns k with stage := .selecting, tasks := (s.conns k).tasks ++ [m] }) := by
  refine quiet_step (e := .resume k) ?_ id
  simp only [Daemon.step, hstage]

/-- While a hot permit is free, a loop that awaits no bulk permit gets to its `select!`. -/
theorem selects (h : Queued s) (hfree : 0 < (s.sems .hot).free) (hstage : ∀ m, (s.conns k).stage = .acquiring m →
    lane m ≠ .bulk) :
    ∃ s' tasks, s.Quiet s' ∧ s'.sems = s.sems ∧ s'.conns k = { s.conns k with stage := .selecting, tasks := tasks } := by
  cases hat : (s.conns k).stage with
  | selecting => exact ⟨s, (s.conns k).tasks, .refl, rfl, by rw [← hat]⟩
  | acquiring m =>
    -- a hot permit is only free while nobody waits for one
    have hhot : lane m = .hot := by
      cases hlane : lane m with
      | bulk => exact absurd hlane (hstage m hat)
      | hot => rfl
    have hwaits : k ∈ (s.sems .hot).queue := (h.mem_iff .hot k).mpr ⟨m, hat, hhot⟩
    rw [Semaphore.queue_eq_nil _ hfree] at hwaits
    cases hwaits
  | granted m => exact ⟨_, (s.conns k).tasks ++ [m], resume_step hat, rfl, set_conns_same⟩

theorem independent_of_clear (h : Queued s) (hclear : Clear s) : Independent s := by
  intro k i harrived hfree
  obtain ⟨hcount, hwaits⟩ := hclear k i harrived hfree
  obtain ⟨m, hm, hhot⟩ := harrived
  by_cases hbulk : ∃ m', (s.conns k).stage = .acquiring m' ∧ lane m' = .bulk
  · obtain ⟨m', hstage, hlane⟩ := hbulk
    obtain ⟨hdispatched, hfinished⟩ := hwaits m' hstage hlane
    refine ⟨fun hserving => ⟨s, .refl, hdispatched hserving⟩, fun hmode => ⟨s, .refl, ?_⟩⟩
    rw [hfinished hmode, List.append_nil]
  obtain ⟨s₁, tasks, hrun, hsems, hconn⟩ := selects h hfree fun m' hstage hlane => hbulk ⟨m', hstage, hlane⟩
  constructor
  · intro hserving
    have hready : Ready s₁ k := by
      refine ⟨?_, ?_, ?_⟩
      · rw [hconn]
      · rw [hconn]
        exact hserving
      · rw [hsems]
        exact hfree
    by_cases hpending : (s.conns k).read ≤ i
    · have hcount₁ : (s₁.conns k).bulkBetween (s₁.conns k).read i ≤ (s₁.sems .bulk).free := by
        rw [hconn, hsems]
        exact hcount hserving
      obtain ⟨s', hrest, hdispatched⟩ :=
        hready.reaches (h.quiet hrun) (by rw [hconn]; exact hm) hhot (by rw [hconn]; exact hpending) hcount₁
      exact ⟨s', hrun.trans hrest, hdispatched⟩
    · refine ⟨s₁, hrun, ?_⟩
      rw [hconn]
      show i < (s.conns k).read
      omega
  · intro hmode
    obtain ⟨s', hflush, -, hflushed⟩ := flush (s := s₁) (k := k) (by rw [hconn]) (by rw [hconn]; exact hmode)
    refine ⟨s', hrun.trans hflush, ?_⟩
    rw [hflushed, hconn]

theorem Queued.run {es : List Event} (h : Queued s) (hs : s.run es = some s') : Queued s' := by
  induction es generalizing s with
  | nil =>
    cases hs
    exact h
  | cons e es ih =>
    obtain ⟨s₁, hstep, hrest⟩ := Option.bind_eq_some_iff.mp hs
    exact ih (h.step hstep) hrest

/-- A hot request never waits for a bulk request exactly when none waits for its permit in the same
loop, nor would before the hot one is read. -/
theorem independent_iff_clear (requestLimit bulkLimit : ℕ) (es : List Event) (s : Daemon)
    (hrun : (Daemon.start requestLimit bulkLimit).run es = some s) : Independent s ↔ Clear s :=
  have h := (queued_start requestLimit bulkLimit).run hrun
  ⟨clear_of_independent h, independent_of_clear h⟩

def tickMessage : IpcMessage := ⟨1, .request (.lifecycle (.tick ⟨false⟩))⟩

def statusMessage : IpcMessage := ⟨2, .request (.diagnostics .status)⟩

/-- A connection that has a status request behind a tick. -/
theorem independent_behind_one : ∃ s, (Daemon.start 64 8).run [.arrive 0 tickMessage, .arrive 0 statusMessage] =
    some s ∧ Independent s := by
  have hrun : ∃ s, (Daemon.start 64 8).run [.arrive 0 tickMessage, .arrive 0 statusMessage] = some s ∧ (s.sems .bulk).free = 8 ∧
      s.conns = Function.update (Function.update (fun _ => .new) 0 { Conn.new with frames := [tickMessage] }) 0
        { Conn.new with frames := [tickMessage, statusMessage] } :=
    ⟨_, rfl, rfl, rfl⟩
  obtain ⟨s, hs, hfree, hconns⟩ := hrun
  refine ⟨s, hs, (independent_iff_clear 64 8 _ s hs).mpr fun k i _ _ => ?_⟩
  have hframes : (s.conns k).frames.length ≤ 2 ∧ (s.conns k).stage = .selecting := by
    rw [hconns]
    by_cases hk : k = 0
    · subst hk
      exact ⟨le_rfl, rfl⟩
    · rw [Function.update_of_ne hk, Function.update_of_ne hk]
      exact ⟨Nat.zero_le 2, rfl⟩
  refine ⟨fun _ => ?_, fun m hstage => by rw [hframes.2] at hstage; cases hstage⟩
  have hcount : (s.conns k).bulkBetween (s.conns k).read i ≤ _ := List.countP_le_length
  rw [List.length_drop, List.length_take] at hcount
  omega

/-- The ninth tick of a connection waits for a permit in the loop that would read its status request. -/
theorem hot_behind_nine : ¬ ∀ es s, (Daemon.start 64 8).run es = some s → Independent s := by
  intro hall
  let flood : List Event := List.replicate 9 (.arrive 0 tickMessage) ++ .arrive 0 statusMessage :: List.replicate 9 (.read 0)
  have hflood : ∃ s, (Daemon.start 64 8).run flood = some s ∧ (s.conns 0).frames[9]? = some statusMessage ∧
      (s.conns 0).mode = .serving ∧ (s.conns 0).stage = .acquiring tickMessage ∧ (s.conns 0).read = 9 ∧ (s.sems .hot).free = 64 :=
    ⟨_, rfl, rfl, rfl, rfl, rfl, rfl⟩
  obtain ⟨s, hrun, hstatus, hserving, hwaits, hread, hfree⟩ := hflood
  have hclear : Clear s := clear_of_independent ((queued_start 64 8).run hrun) (hall _ _ hrun)
  have harrived : (s.conns 0).HotArrived 9 := ⟨statusMessage, hstatus, rfl⟩
  have hdispatched := ((hclear 0 9 harrived (by omega)).2 tickMessage hwaits rfl).1 hserving
  have := dispatched_le (s.conns 0)
  omega

end

end CognitiveMemory.Server.Lanes
