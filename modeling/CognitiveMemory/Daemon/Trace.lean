import CognitiveMemory.Daemon.Dispatch
import CognitiveMemory.Daemon.Pooled
import CognitiveMemory.Lib.Amid
import CognitiveMemory.Lib.Beside
import CognitiveMemory.Lib.Ledger
import Mathlib.Data.List.DropRight

/-! The trace ring: `dispatch` with the trace it leaves of each request, and what the ring holds and tells
however the requests interleave. -/

namespace CognitiveMemory.Tracing
variable {F : Type}

/-! ## The ring -/

structure Trace (F : Type) where
  traceId : String
  requestId : UInt64
  bucket : String
  op : String
  embedMs : Option F
  vectorMs : Option F
  fusionMs : Option F
  formatMs : Option F
  elapsedMs : F

structure TraceRing (F : Type) where
  /-- The oldest first. -/
  inner : List (Trace F)
  capacity : ℕ
  positive : 0 < capacity
  bounded : inner.length ≤ capacity

namespace TraceRing

def new (capacity : ℕ) : TraceRing F where
  inner := []
  capacity := max capacity 1
  positive := by omega
  bounded := Nat.zero_le _

def push (ring : TraceRing F) (trace : Trace F) : TraceRing F where
  inner := (if ring.capacity ≤ ring.inner.length then ring.inner.drop 1 else ring.inner) ++ [trace]
  capacity := ring.capacity
  positive := ring.positive
  bounded := by
    have hbounded := ring.bounded
    have hpositive := ring.positive
    split <;> simp <;> omega

def recent (ring : TraceRing F) (limit : ℕ) : List (Trace F) := ring.inner.reverse.take limit

@[simp] theorem new_inner (capacity : ℕ) : (new capacity : TraceRing F).inner = [] := rfl

@[simp] theorem new_capacity (capacity : ℕ) : (new capacity : TraceRing F).capacity = max capacity 1 := rfl

@[simp] theorem push_capacity (ring : TraceRing F) (trace : Trace F) : (ring.push trace).capacity = ring.capacity := rfl

/-- A ring of the last traces of a log is one of the last traces after the next is pushed. -/
theorem push_inner {ring : TraceRing F} {log : List (Trace F)} (h : ring.inner = log.rtake ring.capacity) (trace : Trace F) :
    (ring.push trace).inner = (log ++ [trace]).rtake ring.capacity := by
  obtain ⟨n, hn⟩ : ∃ n, ring.capacity = n + 1 := ⟨ring.capacity - 1, by have := ring.positive; omega⟩
  rw [hn] at h
  have hrest : (if n + 1 ≤ ring.inner.length then ring.inner.drop 1 else ring.inner) = log.rtake n := by
    rw [h]
    simp only [List.rtake, List.length_drop]
    split
    · rw [List.drop_drop]
      congr 1
      omega
    · congr 1
      omega
  rw [hn, List.rtake_concat_succ, ← hrest, ← hn]
  rfl

end TraceRing

/-! ## Dispatch -/

def diagnosticsOpName : Wire.DiagnosticsRequest → String
  | .status => "Status"
  | .doctor => "Doctor"
  | .recentTraces _ => "RecentTraces"
  | .shutdown => "Shutdown"
  | .mintBridgeToken _ => "MintBridgeToken"
  | .validateBridgeToken _ => "ValidateBridgeToken"
  | .counts _ => "Counts"

def memoryOpName : Wire.MemoryRequest → String
  | .subscribe _ => "Subscribe"
  | .store _ => "Store"
  | .storeBatch _ => "StoreBatch"
  | .search _ => "Search"
  | .get _ => "Get"
  | .getMany _ => "GetMany"
  | .list _ => "List"
  | .update _ => "Update"
  | .delete _ => "Delete"
  | .deleteMany _ => "DeleteMany"
  | .link _ => "Link"
  | .unlink _ => "Unlink"
  | .getLinked _ => "GetLinked"
  | .getLinkedMany _ => "GetLinkedMany"
  | .vectorSearch _ => "VectorSearch"
  | .searchLexical _ => "SearchLexical"
  | .batchUpdate _ => "BatchUpdate"

def lifecycleOpName : Wire.LifecycleRequest → String
  | .tick _ => "Tick"
  | .findFading _ => "FindFading"
  | .findStable _ => "FindStable"
  | .markSuperseded _ => "MarkSuperseded"
  | .migrateToCold _ => "MigrateToCold"
  | .migrateToHot _ => "MigrateToHot"
  | .convertToStub _ => "ConvertToStub"
  | .updateRetention _ => "UpdateRetention"
  | .clear _ => "Clear"

def describePayload : Wire.IpcPayload → String × String
  | .request (.diagnostics req) => ("Diagnostics", diagnosticsOpName req)
  | .request (.memory req) => ("Memory", memoryOpName req)
  | .request (.lifecycle req) => ("Lifecycle", lifecycleOpName req)
  | .request .unknownBucket => ("Unknown", "UnknownBucket")
  | .response _ => ("Response", "Unexpected")
  | .event _ => ("Event", "Unexpected")

/-- What a request does besides its work on the store: a ULID and the time it took for its trace, which
it pushes, and the traces it is asked for. -/
inductive RingCall (F : Type)
  | ulid
  | elapsed
  | push (trace : Trace F)
  | recent (limit : ℕ)

@[reducible] def RingCall.Res : RingCall F → Type
  | .ulid => String
  | .elapsed => F
  | .push _ => Unit
  | .recent _ => List (Trace F)

structure Tracer (F : Type) where
  ring : TraceRing F
  ulid : ℕ → String
  elapsed : ℕ → F

def RingCall.exec : (c : RingCall F) → Tracer F → c.Res × Tracer F
  | .ulid, t => (t.ulid 0, { t with ulid := fun n => t.ulid (n + 1) })
  | .elapsed, t => (t.elapsed 0, { t with elapsed := fun n => t.elapsed (n + 1) })
  | .push trace, t => ((), { t with ring := t.ring.push trace })
  | .recent limit, t => (t.ring.recent limit, t)

abbrev Traced (F α : Type) := Prog (Cmd F ⊕ RingCall F) (Sum.elim Cmd.Res RingCall.Res) Empty α

/-- The data of `RecentTraces` stand beside the answer; of any other request there are none. -/
structure TracedAnswer (F : Type) where
  answer : Answer F
  traces : List (Trace F)

def tracesAsked : Wire.IpcPayload → Option ℕ
  | .request (.diagnostics (.recentTraces args)) => some args.limit.toNat
  | _ => none

variable [Field F] [LinearOrder F]

section
variable [Elementary F]

def answering (texts : Texts) (app : AppState F) (user : String) (message : Wire.IpcMessage) : Traced F (TracedAnswer F) :=
  match tracesAsked message.payload with
  | some limit => do
    let traces : List (Trace F) ← Prog.call (.inr (.recent limit) : Cmd F ⊕ RingCall F)
    pure ⟨⟨message.id, .ok .recentTraces⟩, traces⟩
  | none => do
    let answer : Answer F ← (dispatch texts app user message).left
    pure ⟨answer, []⟩

def Trace.of (message : Wire.IpcMessage) (ulid : String) (elapsed : F) : Trace F where
  traceId := "tr_" ++ ulid
  requestId := message.id
  bucket := (describePayload message.payload).1
  op := (describePayload message.payload).2
  embedMs := none
  vectorMs := none
  fusionMs := none
  formatMs := none
  elapsedMs := elapsed

def leaveTrace (message : Wire.IpcMessage) : Traced F Unit := do
  let ulid : String ← Prog.call (.inr .ulid : Cmd F ⊕ RingCall F)
  let elapsed : F ← Prog.call (.inr .elapsed : Cmd F ⊕ RingCall F)
  let _ : Unit ← Prog.call (.inr (.push (.of message ulid elapsed)) : Cmd F ⊕ RingCall F)
  pure ()

def dispatchTraced (texts : Texts) (app : AppState F) (user : String) (message : Wire.IpcMessage) :
    Traced F (TracedAnswer F) := do
  let reply ← answering texts app user message
  leaveTrace message
  pure reply

/-! ## Messages in flight -/

structure Delivery (F : Type) where
  app : AppState F
  user : String
  message : Wire.IpcMessage

abbrev Dispatching (F : Type) :=
  Prog.Pool (Delivery F) (Cmd F ⊕ RingCall F) (Sum.elim Cmd.Res RingCall.Res) Empty (TracedAnswer F) (World F × Tracer F)

def execTraced (bm25 : Bm25 F) : Prog.Exec (Cmd F ⊕ RingCall F) (Sum.elim Cmd.Res RingCall.Res) (World F × Tracer F) :=
  Prog.Exec.beside (exec bm25) RingCall.exec

def dispatched (texts : Texts) (deliveries : List (Delivery F)) : List (Delivery F × Traced F (TracedAnswer F)) :=
  deliveries.map fun d => (d, dispatchTraced texts d.app d.user d.message)

/-- These messages, come in on a daemon that has traced none yet. -/
def dispatching (texts : Texts) (w : World F) (capacity : ℕ) (ulid : ℕ → String) (elapsed : ℕ → F)
    (deliveries : List (Delivery F)) :
    Dispatching F := .start (w, ⟨.new capacity, ulid, elapsed⟩) (dispatched texts deliveries)

end

/-! ## What the ring holds -/

open Prog

def pushed : Cmd F ⊕ RingCall F → Option (Trace F)
  | .inr (.push trace) => some trace
  | _ => none

/-- The messages dispatched so far with their traces, in the order they were done. -/
def completed (p : Dispatching F) : List (ℕ × Trace F) := p.ledger pushed

def newest (capacity limit : ℕ) (log : List (ℕ × Trace F)) :
    List (Trace F) := ((log.map Prod.snd).rtake capacity).reverse.take limit

def told (capacity : ℕ) (log : List (ℕ × Trace F)) : (c : Cmd F ⊕ RingCall F) → Sum.elim Cmd.Res RingCall.Res c → Prop
  | .inr (.recent limit), traces => traces = newest capacity limit log
  | _, _ => True

def Tracer.Window (capacity : ℕ) (s : World F × Tracer F) (log : List (ℕ × Trace F)) : Prop :=
  s.2.ring.capacity = capacity ∧ s.2.ring.inner = (log.map Prod.snd).rtake capacity

theorem window_exec (bm25 : Bm25 F) {capacity : ℕ} (s : World F × Tracer F) (log : List (ℕ × Trace F)) (i : ℕ)
    (c : Cmd F ⊕ RingCall F) (h : Tracer.Window capacity s log) :
    told capacity log c (execTraced bm25 c s).1 ∧
      Tracer.Window capacity (execTraced bm25 c s).2 (log ++ (Event.mk (R := Sum.elim Cmd.Res RingCall.Res) i c (execTraced bm25 c s).1).entry pushed) := by
  obtain ⟨hcapacity, hinner⟩ := h
  cases c with
  | inl c =>
    refine ⟨trivial, hcapacity, ?_⟩
    rw [Event.entry_none rfl, List.append_nil]
    exact hinner
  | inr c =>
    cases c with
    | push trace =>
      refine ⟨trivial, hcapacity, ?_⟩
      rw [Event.entry_some (l := trace) rfl, List.map_append, ← hcapacity]
      exact TraceRing.push_inner (by rw [hcapacity, hinner]) trace
    | ulid | elapsed =>
      refine ⟨trivial, hcapacity, ?_⟩
      rw [Event.entry_none rfl, List.append_nil]
      exact hinner
    | recent limit =>
      refine ⟨?_, hcapacity, ?_⟩
      · show s.2.ring.inner.reverse.take limit = _
        rw [hinner]
        rfl
      · rw [Event.entry_none rfl, List.append_nil]
        exact hinner

/-- What a message leaves: its trace, and where traces were asked for the newest of some moment, when
`before` had been completed. -/
def Delivery.Leaves (capacity : ℕ) (before : List (ℕ × Trace F)) (d : Delivery F) (trace : Trace F)
    (result : Except Empty (TracedAnswer F)) (log : List (ℕ × Trace F)) : Prop :=
  (∃ ulid elapsed, trace = .of d.message ulid elapsed) ∧ ∀ reply limit, result = .ok reply → tracesAsked d.message.payload = some limit →
    ∃ earlier, before <+: earlier ∧ earlier <+: log ∧ reply.traces = newest capacity limit earlier

omit [Field F] [LinearOrder F] in
theorem only_left {p : Prog (Cmd F) Cmd.Res Empty (Answer F)} :
    (p.left (D := RingCall F) (A := RingCall.Res)).Only (pushed · = none) := by
  induction p with
  | pure | fail => trivial
  | cmd c k ih => exact ⟨rfl, ih⟩

omit [Field F] [LinearOrder F] in
theorem signs_leaveTrace {capacity : ℕ} {Q : Trace F → Except Empty (TracedAnswer F) → List (ℕ × Trace F) → Prop}
    {log : List (ℕ × Trace F)} {message : Wire.IpcMessage} {reply : TracedAnswer F}
    (h : ∀ ulid elapsed log', log <+: log' → Q (.of message ulid elapsed) (.ok reply) log') :
    (leaveTrace message >>= fun _ => Prog.pure reply : Traced F (TracedAnswer F)).Signs pushed (told capacity) Q log := by
  refine signs_next rfl fun log₁ h₁ ulid _ => ?_
  refine signs_next rfl fun log₂ h₂ elapsed _ => ?_
  refine signs_last (l := .of message ulid elapsed) rfl fun log₃ h₃ _ => ?_
  exact ⟨.ok reply, rfl, h ulid elapsed log₃ (h₁.trans (h₂.trans h₃))⟩

variable [Elementary F]

theorem signs_dispatchTraced (texts : Texts) (capacity : ℕ) (d : Delivery F) (log : List (ℕ × Trace F)) :
    (dispatchTraced texts d.app d.user d.message).Signs pushed (told capacity) (d.Leaves capacity log) log := by
  unfold dispatchTraced answering
  cases hasked : tracesAsked d.message.payload with
  | some limit =>
    refine signs_next rfl fun log₁ h₁ traces htold => signs_leaveTrace fun ulid elapsed log₂ h₂ => ⟨⟨ulid, elapsed, rfl⟩, ?_⟩
    intro reply limit' hreply hlimit
    cases hreply
    rw [hasked] at hlimit
    cases hlimit
    exact ⟨log₁, h₁, h₂, htold⟩
  | none =>
    rw [Prog.bind_eq, Prog.bind_eq, Prog.bind_assoc']
    refine Signs.after only_left fun answer log₁ h₁ => signs_leaveTrace fun ulid elapsed log₂ h₂ => ⟨⟨ulid, elapsed, rfl⟩, ?_⟩
    intro reply limit _ hlimit
    rw [hasked] at hlimit
    cases hlimit

/-- The record of a play: who completed when, what the ring holds of it, and what it told those messages
that came in when `before` had been completed. -/
structure Chronicle (capacity : ℕ) (deliveries : List (Delivery F)) (before : List (ℕ × Trace F)) (late : ℕ → Prop)
    (p : Dispatching F) :
    Prop where
  grows : before <+: completed p
  once : ((completed p).map Prod.fst).Nodup
  done : ∀ (i : ℕ) d prog, p.tasks[i]? = some (d, prog) → (i ∈ (completed p).map Prod.fst ↔ ∃ reply, prog = .pure reply)
  traces : ∀ i trace, (i, trace) ∈ completed p → ∃ d ulid elapsed, deliveries[i]? = some d ∧ trace = .of d.message ulid elapsed
  ring : p.state.2.ring.inner = ((completed p).map Prod.snd).rtake capacity
  tells : ∀ (i : ℕ) d reply limit, late i → p.tasks[i]? = some (d, .pure reply) → tracesAsked d.message.payload = some limit →
    ∃ earlier, before <+: earlier ∧ earlier <+: completed p ∧ i ∉ earlier.map Prod.fst ∧ reply.traces = newest capacity limit earlier

theorem signs_dispatched {texts : Texts} {deliveries : List (Delivery F)} {i : ℕ}
    {tp : Delivery F × Traced F (TracedAnswer F)}
    (h : (dispatched texts deliveries)[i]? = some tp) (capacity : ℕ) (log : List (ℕ × Trace F)) :
    tp.2.Signs pushed (told capacity) (tp.1.Leaves capacity log) log := by
  obtain ⟨d, -, rfl⟩ := List.mem_map.mp (List.mem_of_getElem? h)
  exact signs_dispatchTraced texts capacity d log

theorem delivered {texts : Texts} {deliveries : List (Delivery F)} {s : World F × Tracer F}
    {x : Exec (Cmd F ⊕ RingCall F) _ _} {is : List ℕ} {i : ℕ} {d : Delivery F} {prog : Traced F (TracedAnswer F)}
    (h : ((Pool.start s (dispatched texts deliveries)).play x is).tasks[i]? = some (d, prog)) : deliveries[i]? = some d := by
  have hlabels := Pool.labels_play (x := x) (Pool.start s (dispatched texts deliveries)) is
  have hmap : (dispatched texts deliveries).map Prod.fst = deliveries := by
    rw [dispatched, List.map_map]
    exact List.map_id deliveries
  rw [show (Pool.start s (dispatched texts deliveries)).tasks = dispatched texts deliveries from rfl, hmap] at hlabels
  rw [← hlabels, List.getElem?_map, h]
  rfl

/-- However messages interleave, the ring holds the traces of the last that were completed, each once and
with what it was, and who asks for traces is told the newest of a moment after it came in. -/
theorem ring_chronicled (texts : Texts) (bm25 : Bm25 F) (w : World F) (capacity : ℕ) (ulid : ℕ → String) (elapsed : ℕ → F)
    (deliveries : List (Delivery F)) (before after : List ℕ) :
    Chronicle (max capacity 1) deliveries
      (completed ((dispatching texts w capacity ulid elapsed deliveries).play (execTraced bm25) before)) (· ∉ before)
      ((dispatching texts w capacity ulid elapsed deliveries).play (execTraced bm25) (before ++ after)) := by
  have hstart : (dispatching texts w capacity ulid elapsed deliveries).Kept pushed (told (max capacity 1))
      fun _ d => d.Leaves (max capacity 1) [] := Pool.kept_start fun i tp hi => signs_dispatched hi _ _
  obtain ⟨hwindow, -, hkept⟩ := hstart.play (window_exec bm25) ⟨rfl, (List.rtake_nil _).symm⟩ before
  -- who came in late has all of its work before it, and answers for what was completed by then
  have hlate : ((dispatching texts w capacity ulid elapsed deliveries).play (execTraced bm25) before).Kept pushed (told (max capacity 1))
      fun i d => d.Leaves (max capacity 1) (if i ∈ before then [] else
        completed ((dispatching texts w capacity ulid elapsed deliveries).play (execTraced bm25) before)) := by
    refine hkept.renew fun i tp hi => ?_
    by_cases hb : i ∈ before
    · simp only [if_pos hb]
      exact .inl fun _ _ _ h => h
    · simp only [if_neg hb]
      rw [Pool.play_waiting hb] at hi
      exact .inr (signs_dispatched hi _ _)
  obtain ⟨hwindow', hgrows, hkept'⟩ := hlate.play (window_exec bm25) hwindow after
  rw [Pool.play_append]
  refine ⟨hgrows, hkept'.once, fun i d prog hi => ?_, fun i trace hi => ?_, hwindow'.2, fun i d reply limit hi hd hasked => ?_⟩
  · refine (hkept'.signed_iff hi).trans ⟨?_, fun ⟨reply, hreply⟩ => ⟨.ok reply, hreply⟩⟩
    rintro ⟨reply | reply, hreply⟩
    · exact reply.elim
    · exact ⟨reply, hreply⟩
  · obtain ⟨d, answer, log, hd, -, ⟨ulid, elapsed, htrace⟩, -⟩ := hkept'.entry hi
    rw [← Pool.play_append] at hd
    exact ⟨d, ulid, elapsed, delivered hd, htrace⟩
  · obtain ⟨-, hsigns⟩ | ⟨trace, answer, log, hlog, hended, -, htells⟩ := hkept'.tasks i _ hd
    · exact hsigns.elim
    · cases answer with
      | error e => exact e.elim
      | ok reply' =>
        cases hended
        obtain ⟨earlier, hbefore, hearlier, htraces⟩ := htells reply limit rfl hasked
        rw [if_neg hi] at hbefore
        refine ⟨earlier, hbefore, hearlier.trans ((List.prefix_append _ _).trans hlog), fun hmem => ?_, htraces⟩
        exact hkept'.absent hlog (List.map_subset Prod.fst hearlier.subset hmem)

/-! ## Tracing apart -/

/-- A request of some user as its message. -/
structure Post (F : Type) where
  app : AppState F
  user : String
  id : UInt64
  request : Wire.Request

def Post.delivery (post : Post F) : Delivery F := ⟨post.app, post.user, ⟨post.id, .request post.request⟩⟩

def Post.caller (post : Post F) : Caller F := ⟨post.app, post.user, post.request.request⟩

/-- The answer is written out from what the handler came to. -/
def Writes (texts : Texts) (d : Delivery F) (_ : Caller F) (result : Except HandlerError (ResponseData F))
    (reply : Except Empty (TracedAnswer F)) : Prop :=
  ∃ traces, reply = .ok ⟨⟨d.message.id, result.mapError fun e => ⟨errorKindFor e, e.text texts, false⟩⟩, traces⟩

theorem shadows_dispatchTraced (texts : Texts) (post : Post F) :
    (dispatchTraced texts post.app post.user post.delivery.message).Shadows (Writes texts post.delivery post.caller)
      (handleRequest post.app post.request.request post.user) := by
  unfold dispatchTraced answering
  cases hasked : tracesAsked post.delivery.message.payload with
  | some limit =>
    obtain ⟨args, hrequest⟩ : ∃ args, post.request = .diagnostics (.recentTraces args) := by
      unfold tracesAsked at hasked
      split at hasked
      · exact ⟨_, Wire.IpcPayload.request.inj ‹_›⟩
      · cases hasked
    rw [hrequest]
    exact fun traces ulid elapsed _ => ⟨.ok .recentTraces, rfl, traces, rfl⟩
  | none =>
    have hdispatch : dispatch texts post.app post.user post.delivery.message =
        (handleRequest post.app post.request.request post.user).attempt.bind fun result =>
          .pure ⟨post.id, result.mapError fun e => ⟨errorKindFor e, e.text texts, false⟩⟩ := rfl
    rw [hdispatch, left_bind, left_attempt]
    simp only [Prog.bind_eq, Prog.bind_assoc']
    refine shadows_attempt fun result ulid elapsed _ => ⟨result, rfl, [], rfl⟩

/-- Tracing takes no part in the work on the store: whatever a daemon that traces comes to, the requests
without their traces come to, their commands in the same order. -/
theorem tracing_apart (texts : Texts) (bm25 : Bm25 F) (w : World F) (capacity : ℕ) (ulid : ℕ → String) (elapsed : ℕ → F)
    (posts : List (Post F)) (is : List ℕ) :
    ∃ js, js.Sublist is ∧
      ((dispatching texts w capacity ulid elapsed (posts.map Post.delivery)).play (execTraced bm25) is).Shadows (Writes texts)
        ((accepted w (posts.map Post.caller)).play (exec bm25) js) := by
  refine Pool.Shadows.play ⟨rfl, ?_, fun i tp tq hp hq => ?_⟩ is
  · simp [dispatching, dispatched, accepted, Pool.start]
  · simp only [dispatching, dispatched, accepted, Pool.start, List.map_map, List.getElem?_map] at hp hq
    obtain ⟨post, hpost, rfl⟩ := Option.map_eq_some_iff.mp hp
    rw [hpost] at hq
    cases hq
    exact shadows_dispatchTraced texts post

end CognitiveMemory.Tracing
