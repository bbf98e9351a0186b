import Mathlib.Data.List.Perm.Basic
import Mathlib.Data.List.Count

/-! The request loop of `handle_connection`: frames, finished tasks, events and the shutdown
signal, in any order. Writes on the socket succeed and the drain timeout does not fire. -/

namespace CognitiveMemory.Server

/-- A decoded request. `fits` says whether the codec will encode the response its handler
comes to: a frame holds 16 MiB. -/
structure Request where
  id : ℕ
  fits : Bool
  deriving DecidableEq

inductive Frame
  | response (id : ℕ)
  | event
  deriving DecidableEq

/-- What the `select!` of the loop can return. `biased` only orders branches that are ready;
a task that finishes while another branch is polled is joined later, so any order is open.
Semaphores are never closed, and the event channel lives as long as the daemon. -/
inductive Input
  | joined (i : ℕ)
  | subscribe (id : ℕ) (snapshot : Bool)
  | request (r : Request)
  | decodeError
  | eof
  | event
  | shutdown

structure Connection where
  acceptRequests : Bool
  canSend : Bool
  shutdownRequested : Bool
  subscribed : Bool
  /-- `request_tasks`; dropped with the running handlers when the loop ends. -/
  tasks : List Request
  sent : List Frame
  ended : Bool
  /-- Records of the run: the requests decoded, answered, and joined without an answer. -/
  decoded : List Request
  answered : List Request
  unanswered : List Request

def Connection.init : Connection := ⟨true, true, false, false, [], [], false, [], [], []⟩

/-- The check at the foot of the loop. -/
def Connection.leave (c : Connection) : Connection :=
  if !c.acceptRequests && c.tasks.isEmpty then { c with ended := true } else c

/-- `guard_dispatch` answers with the id of the request, whether its handler returns, fails or
panics; the rest is `sink.send`. -/
def Connection.reply (c : Connection) (r : Request) : Connection :=
  if !c.canSend then { c with unanswered := c.unanswered ++ [r] }
  else if r.fits then { c with sent := c.sent ++ [.response r.id], answered := c.answered ++ [r] }
  else { c with canSend := false, acceptRequests := false, unanswered := c.unanswered ++ [r] }

/-- One turn of the loop; `none` where the branch is not enabled. -/
def turn (c : Connection) (x : Input) : Option Connection :=
  if c.ended then none else
  match x with
  | .joined i => (c.tasks[i]?).map fun r => ({ c with tasks := c.tasks.eraseIdx i }.reply r).leave
  | .subscribe id snapshot =>
    if c.acceptRequests then
      let c := { c with
        subscribed := true
        sent := c.sent ++ [.response id]
        decoded := c.decoded ++ [⟨id, true⟩]
        answered := c.answered ++ [⟨id, true⟩] }
      some (if snapshot then { c with sent := c.sent ++ [.event] } else c)
    else none
  | .request r =>
    if c.acceptRequests then some { c with tasks := c.tasks ++ [r], decoded := c.decoded ++ [r] } else none
  | .decodeError | .eof => if c.acceptRequests then some { c with ended := true } else none
  | .event => if c.subscribed then some { c with sent := c.sent ++ [Frame.event] }.leave else none
  | .shutdown =>
    if c.shutdownRequested then none
    else some { c with shutdownRequested := true, acceptRequests := false }.leave

def run (c : Connection) (xs : List Input) : Option Connection := xs.foldlM turn c

/-- Ids of the Response frames sent. -/
def Connection.responses (c : Connection) : List ℕ :=
  c.sent.filterMap fun f => match f with
    | .response id => some id
    | .event => none

/-- As many responses as decoded requests `q` asks for, id by id. -/
def Answers (q : Request → Bool) (c : Connection) : Prop :=
  ∀ id, c.responses.count id = ((c.decoded.filter q).map Request.id).count id

/-- The turn leaves a request `q` asks for without an answer: its response does not fit or
comes after one that did not, or the loop ends while its handler runs. -/
def Loses (q : Request → Bool) (c : Connection) : Input → Prop
  | .joined i => ∃ r ∈ c.tasks[i]?, q r ∧ ¬ (r.fits ∧ c.canSend)
  | .decodeError | .eof => ∃ r ∈ c.tasks, q r
  | _ => False

instance (q : Request → Bool) (c : Connection) : (x : Input) → Decidable (Loses q c x)
  | .joined i => inferInstanceAs (Decidable (∃ r ∈ c.tasks[i]?, q r ∧ ¬ (r.fits ∧ c.canSend)))
  | .decodeError | .eof => inferInstanceAs (Decidable (∃ r ∈ c.tasks, q r))
  | .subscribe .. | .request _ | .event | .shutdown => inferInstanceAs (Decidable False)

/-- No turn of the run loses a request. -/
def LosesNone (q : Request → Bool) : Connection → List Input → Prop
  | _, [] => True
  | c, x :: xs => ¬ Loses q c x ∧ ∀ c' ∈ turn c x, LosesNone q c' xs

instance decidableLosesNone (q : Request → Bool) : (c : Connection) → (xs : List Input) → Decidable (LosesNone q c xs)
  | _, [] => inferInstanceAs (Decidable True)
  | c, x :: xs =>
    have : ∀ c', Decidable (LosesNone q c' xs) := fun c' => decidableLosesNone q c' xs
    inferInstanceAs (Decidable (¬ Loses q c x ∧ ∀ c' ∈ turn c x, LosesNone q c' xs))

/-! ## The books of the loop -/

structure Balanced (c : Connection) : Prop where
  split : c.decoded.Perm (c.answered ++ c.tasks ++ c.unanswered)
  wire : c.responses = c.answered.map Request.id
  fit : ∀ r ∈ c.answered, r.fits

theorem balanced_init : Balanced .init := ⟨.refl _, rfl, nofun⟩

theorem balanced_leave {c : Connection} (h : Balanced c) : Balanced c.leave := by
  unfold Connection.leave
  split
  · exact ⟨h.split, h.wire, h.fit⟩
  · exact h

theorem perm_eraseIdx {l : List Request} {i : ℕ} {r : Request} (h : l[i]? = some r) : l.Perm (r :: l.eraseIdx i) := by
  obtain ⟨hi, rfl⟩ := List.getElem?_eq_some_iff.mp h
  exact (List.getElem_cons_eraseIdx_perm hi).symm

theorem balanced_joined {c : Connection} (h : Balanced c) {i : ℕ} {r : Request} (hr : c.tasks[i]? = some r) :
    Balanced ({ c with tasks := c.tasks.eraseIdx i }.reply r) := by
  have hp := perm_eraseIdx hr
  have hlost : c.decoded.Perm (c.answered ++ c.tasks.eraseIdx i ++ (c.unanswered ++ [r])) := by
    refine h.split.trans ?_
    have hmove : (c.tasks ++ c.unanswered).Perm (c.tasks.eraseIdx i ++ (c.unanswered ++ [r])) := by
      refine (hp.append_right _).trans ?_
      rw [List.cons_append, ← List.append_assoc]
      exact (List.perm_append_singleton _ _).symm
    simpa only [List.append_assoc] using hmove.append_left c.answered
  unfold Connection.reply
  split
  · exact ⟨hlost, h.wire, h.fit⟩
  · split
    · refine ⟨?_, ?_, ?_⟩
      · refine h.split.trans ?_
        simpa only [List.append_assoc, List.singleton_append] using
          ((hp.append_left c.answered).append_right c.unanswered)
      · have hw := h.wire
        simp only [Connection.responses] at hw
        simp [Connection.responses, hw]
      · intro q hq
        rcases List.mem_append.mp hq with hq | hq
        · exact h.fit q hq
        · rw [List.mem_singleton.mp hq]
          assumption
    · exact ⟨hlost, h.wire, h.fit⟩

theorem balanced_turn {c c' : Connection} {x : Input} (h : Balanced c) (ht : turn c x = some c') : Balanced c' := by
  unfold turn at ht
  split at ht <;> [cases ht; skip]
  cases x with
  | joined i =>
    obtain ⟨r, hr, rfl⟩ := Option.map_eq_some_iff.mp ht
    exact balanced_leave (balanced_joined h hr)
  | subscribe id snapshot =>
    simp only at ht
    split at ht <;> cases ht
    have hw := h.wire
    let r : Request := ⟨id, true⟩
    -- a subscription is answered in the turn that reads it, and starts no task
    have hs : (c.decoded ++ [r]).Perm (c.answered ++ [r] ++ c.tasks ++ c.unanswered) := by
      have hmove : (c.tasks ++ c.unanswered ++ [r]).Perm (r :: (c.tasks ++ c.unanswered)) :=
        List.perm_append_singleton _ _
      refine (h.split.append_right _).trans ?_
      simpa only [List.append_assoc, List.cons_append, List.nil_append] using hmove.append_left c.answered
    simp only [Connection.responses] at hw
    split
    all_goals
      refine ⟨hs, by simp [Connection.responses, hw], fun q hq => ?_⟩
      rcases List.mem_append.mp hq with hq | hq
      · exact h.fit q hq
      · rw [List.mem_singleton.mp hq]
  | request r =>
    simp only at ht
    split at ht <;> cases ht
    refine ⟨?_, h.wire, h.fit⟩
    have hmove : (c.unanswered ++ [r]).Perm (r :: c.unanswered) := List.perm_append_singleton _ _
    refine (h.split.append_right _).trans ?_
    simpa only [List.append_assoc, List.singleton_append] using hmove.append_left (c.answered ++ c.tasks)
  | decodeError =>
    simp only at ht
    split at ht <;> cases ht
    exact ⟨h.split, h.wire, h.fit⟩
  | eof =>
    simp only at ht
    split at ht <;> cases ht
    exact ⟨h.split, h.wire, h.fit⟩
  | event =>
    simp only at ht
    split at ht <;> cases ht
    have hw := h.wire
    simp only [Connection.responses] at hw
    exact balanced_leave ⟨h.split, by simp [Connection.responses, hw], h.fit⟩
  | shutdown =>
    simp only at ht
    split at ht <;> cases ht
    exact balanced_leave ⟨h.split, h.wire, h.fit⟩

/-- Among the requests `q` asks for, the unanswered ones are what separates the two counts. -/
theorem answers_iff {q : Request → Bool} {c : Connection} (h : Balanced c) (hq : ∀ r, r.fits → q r) :
    Answers q c ↔ ∀ r ∈ c.tasks ++ c.unanswered, q r = false := by
  have hall : c.answered.filter q = c.answered := List.filter_eq_self.mpr fun r hr => hq r (h.fit r hr)
  have hcount : ∀ id, ((c.decoded.filter q).map Request.id).count id =
      c.responses.count id + (((c.tasks ++ c.unanswered).filter q).map Request.id).count id := by
    intro id
    have hp := ((h.split.filter q).map Request.id).count_eq id
    rw [hp, h.wire, List.append_assoc, List.filter_append, hall, List.map_append, List.count_append]
  constructor
  · intro ha r hr
    by_contra hqr
    have hmem : r ∈ (c.tasks ++ c.unanswered).filter q := List.mem_filter.mpr ⟨hr, by simpa using hqr⟩
    have hpos := List.count_pos_iff.mpr (List.mem_map_of_mem (f := Request.id) hmem)
    have hid := ha r.id
    have := hcount r.id
    omega
  · intro hnone id
    have hempty : (c.tasks ++ c.unanswered).filter q = [] :=
      List.filter_eq_nil_iff.mpr fun r hr => by simp [hnone r hr]
    rw [hcount id, hempty]
    rfl

/-! ## Runs -/

theorem turn_ended {c : Connection} (h : c.ended) (x : Input) : turn c x = none := by simp [turn, h]

theorem leave_fields (c : Connection) : c.leave.tasks = c.tasks ∧ c.leave.unanswered = c.unanswered := by
  unfold Connection.leave
  split <;> exact ⟨rfl, rfl⟩

theorem leave_ended {c : Connection} (hc : c.ended = false) (h : c.leave.ended) : c.leave.tasks = [] := by
  unfold Connection.leave at h ⊢
  split
  · rename_i hx
    simpa using (Bool.and_eq_true_iff.mp hx).2
  · rename_i hx
    rw [if_neg hx, hc] at h
    cases h

def Kept (q : Request → Bool) (c : Connection) : Prop :=
  (∀ r ∈ c.unanswered, q r = false) ∧ (c.ended → ∀ r ∈ c.tasks, q r = false)

theorem kept_leave {q : Request → Bool} {c : Connection} (hc : c.ended = false)
    (h : ∀ r ∈ c.unanswered, q r = false) : Kept q c.leave := by
  refine ⟨fun r hr => h r ((leave_fields c).2 ▸ hr), fun he r hr => ?_⟩
  rw [leave_ended hc he] at hr
  cases hr

theorem reply_fields (c : Connection) (r : Request) : (c.reply r).tasks = c.tasks ∧ (c.reply r).ended = c.ended ∧
    (c.reply r).unanswered = if r.fits && c.canSend then c.unanswered else c.unanswered ++ [r] := by
  unfold Connection.reply
  split
  · simp_all
  · split <;> simp_all

/-- One turn loses a request or it does not: the books show which. -/
theorem kept_turn {q : Request → Bool} {c c' : Connection} {x : Input} (hk : ∀ r ∈ c.unanswered, q r = false)
    (ht : turn c x = some c') : Kept q c' ↔ ¬ Loses q c x := by
  unfold turn at ht
  split at ht <;> [cases ht; skip]
  rename_i hlive
  replace hlive : c.ended = false := by simpa using hlive
  cases x with
  | joined i =>
    obtain ⟨r, hr, rfl⟩ := Option.map_eq_some_iff.mp ht
    have hloses : Loses q c (.joined i) ↔ q r = true ∧ (r.fits && c.canSend) = false := by
      simp [Loses, hr]
    obtain ⟨-, hend, hun⟩ := reply_fields { c with tasks := c.tasks.eraseIdx i } r
    rw [hloses]
    -- the response is lost when it is too large for a frame, or the socket is closed
    cases hok : r.fits && c.canSend with
    | true =>
      refine iff_of_true (kept_leave (hend.trans hlive) ?_) (by simp)
      simpa [hun, hok] using hk
    | false =>
      simp only [hok, Bool.false_eq_true, if_false] at hun
      constructor
      · rintro h ⟨hqr, -⟩
        have hr' := h.1 r (by rw [(leave_fields _).2, hun]; simp)
        rw [hqr] at hr'
        cases hr'
      · intro h
        refine kept_leave (hend.trans hlive) fun r' hr' => ?_
        rw [hun] at hr'
        rcases List.mem_append.mp hr' with hr' | hr'
        · exact hk r' hr'
        · rw [List.mem_singleton.mp hr']
          simpa using h
  | subscribe id snapshot =>
    simp only at ht
    split at ht <;> cases ht
    refine iff_of_true ?_ not_false
    split <;> exact ⟨hk, fun he => by simp [hlive] at he⟩
  | request r =>
    simp only at ht
    split at ht <;> cases ht
    exact iff_of_true ⟨hk, fun he => by simp [hlive] at he⟩ id
  | decodeError =>
    simp only at ht
    split at ht <;> cases ht
    simp only [Kept, Loses, forall_true_left, not_exists, not_and]
    exact ⟨fun h r hr hq => by simp [h.2 r hr] at hq, fun h => ⟨hk, fun r hr => by simpa using h r hr⟩⟩
  | eof =>
    simp only at ht
    split at ht <;> cases ht
    simp only [Kept, Loses, forall_true_left, not_exists, not_and]
    exact ⟨fun h r hr hq => by simp [h.2 r hr] at hq, fun h => ⟨hk, fun r hr => by simpa using h r hr⟩⟩
  | event =>
    simp only at ht
    split at ht <;> cases ht
    exact iff_of_true (kept_leave hlive hk) id
  | shutdown =>
    simp only at ht
    split at ht <;> cases ht
    exact iff_of_true (kept_leave hlive hk) id

theorem unanswered_subset {c c' : Connection} {x : Input} (ht : turn c x = some c') :
    c.unanswered ⊆ c'.unanswered := by
  unfold turn at ht
  split at ht <;> [cases ht; skip]
  cases x with
  | joined i =>
    obtain ⟨r, hr, rfl⟩ := Option.map_eq_some_iff.mp ht
    rw [(leave_fields _).2, (reply_fields _ r).2.2]
    split
    · exact List.Subset.refl _
    · exact List.subset_append_left _ _
  | _ =>
    simp only at ht
    split at ht <;> cases ht
    all_goals first | exact List.Subset.refl _ | (rw [(leave_fields _).2]; exact List.Subset.refl _) |
      (split <;> exact List.Subset.refl _)

theorem kept_of_run {q : Request → Bool} {xs : List Input} {c c' : Connection} (h : run c xs = some c')
    (hk : Kept q c') : Kept q c := by
  induction xs generalizing c with
  | nil =>
    cases h
    exact hk
  | cons x xs ih =>
    rw [run, List.foldlM_cons] at h
    obtain ⟨c₁, h1, h2⟩ := Option.bind_eq_some_iff.mp h
    refine ⟨fun r hr => (ih h2).1 r (unanswered_subset h1 hr), fun he => ?_⟩
    rw [turn_ended he] at h1
    cases h1

theorem run_kept {q : Request → Bool} {xs : List Input} {c c' : Connection} (hk : Kept q c)
    (h : run c xs = some c') : Kept q c' ↔ LosesNone q c xs := by
  induction xs generalizing c with
  | nil =>
    cases h
    exact iff_of_true hk trivial
  | cons x xs ih =>
    rw [run, List.foldlM_cons] at h
    obtain ⟨c₁, h1, h2⟩ := Option.bind_eq_some_iff.mp h
    have hturn := kept_turn hk.1 h1
    rw [LosesNone]
    by_cases hl : Loses q c x
    · exact iff_of_false (fun hkept => hturn.mp (kept_of_run h2 hkept) hl) fun hn => hn.1 hl
    · rw [ih (hturn.mpr hl) h2]
      refine ⟨fun hn => ⟨hl, fun c₂ h' => ?_⟩, fun hn => hn.2 c₁ h1⟩
      rw [Option.mem_def, h1] at h'
      cases h'
      exact hn

theorem run_balanced {xs : List Input} {c c' : Connection} (hb : Balanced c) (h : run c xs = some c') :
    Balanced c' := by
  induction xs generalizing c with
  | nil =>
    cases h
    exact hb
  | cons x xs ih =>
    rw [run, List.foldlM_cons] at h
    obtain ⟨c₁, h1, h2⟩ := Option.bind_eq_some_iff.mp h
    exact ih (balanced_turn hb h1) h2

theorem answers_iff_losesNone {q : Request → Bool} (hq : ∀ r, r.fits → q r) {xs : List Input} {c : Connection}
    (h : run .init xs = some c) (hend : c.ended) : Answers q c ↔ LosesNone q .init xs := by
  have hinit : Kept q .init := ⟨nofun, nofun⟩
  rw [← run_kept hinit h, answers_iff (run_balanced balanced_init h) hq]
  simp only [Kept, hend, forall_true_left, List.mem_append]
  exact ⟨fun h' => ⟨fun r hr => h' r (.inr hr), fun r hr => h' r (.inl hr)⟩,
    fun h' r hr => hr.elim (h'.2 r) (h'.1 r)⟩

/-- When the loop ends, every decoded request has its response exactly when each response
fitted a frame and the stream ended with no task at work. Of the requests whose response fits
each has its response exactly when none came after one that did not fit, and none was at work
when the stream ended. -/
theorem replies_iff {xs : List Input} {c : Connection} (h : run .init xs = some c) (hend : c.ended) :
    (Answers (fun _ => true) c ↔ LosesNone (fun _ => true) .init xs) ∧
      (Answers Request.fits c ↔ LosesNone Request.fits .init xs) :=
  ⟨answers_iff_losesNone (fun _ _ => rfl) h hend, answers_iff_losesNone (fun _ hr => hr) h hend⟩

/-- Two requests, answered in reverse order and around a shutdown signal. -/
theorem replies_shutdown : ∃ c,
    run .init [.request ⟨7, true⟩, .request ⟨8, true⟩, .joined 1, .shutdown, .joined 0] = some c ∧
      Answers (fun _ => true) c ∧ Answers Request.fits c := by
  have hrun : run .init [.request ⟨7, true⟩, .request ⟨8, true⟩, .joined 1, .shutdown, .joined 0] =
      some ⟨false, true, true, false, [], [.response 8, .response 7], true, [⟨7, true⟩, ⟨8, true⟩],
        [⟨8, true⟩, ⟨7, true⟩], []⟩ := rfl
  have hboth := replies_iff hrun rfl
  refine ⟨_, hrun, hboth.1.mpr ?_, hboth.2.mpr ?_⟩ <;> decide

/-- A client that closes its write half right after a request gets no response to it; a
response over the frame limit takes the next one with it. -/
theorem replies_lost :
    (∃ c, run .init [.request ⟨7, true⟩, .eof] = some c ∧ c.ended ∧ ¬ Answers (fun _ => true) c) ∧
      ∃ c, run .init [.request ⟨7, false⟩, .request ⟨8, true⟩, .joined 0, .joined 0] = some c ∧ c.ended ∧
        ¬ Answers Request.fits c :=
  ⟨⟨_, rfl, rfl, fun h => absurd (h 7) (by decide)⟩, ⟨_, rfl, rfl, fun h => absurd (h 8) (by decide)⟩⟩

end CognitiveMemory.Server
