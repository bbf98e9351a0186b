import CognitiveMemory.Daemon.Serve

/-! One listening daemon on a socket path: the runs in which it holds are those in which nobody
binds the path between a check that nobody listens and the removal of the file on its strength. -/

namespace CognitiveMemory.Runtime
open Prog Pool

/-! ## What is to hold -/

def Host.Reachable (s : Host) (d : ℕ) : Prop := ∃ socket ∈ s.socketFile, (d, socket) ∈ s.listening

def Host.Owns (s : Host) (d : ℕ) : Prop := ∃ e ∈ s.listening, e.1 = d

def Host.Single (s : Host) : Prop := ∀ d d', s.Reachable d ∨ s.Owns d → s.Reachable d' ∨ s.Owns d' → d = d'

/-- The step leaves the socket file of a listening daemon where it is. -/
def Keeps (p : Actors) (_i _me : ℕ) (c : SysCall) : Prop :=
  ∀ socket ∈ p.state.socketFile, p.state.Listens socket → (exec c p.state).2.socketFile = some socket

instance (p : Actors) (i me : ℕ) (c : SysCall) : Decidable (Keeps p i me c) := by
  unfold Keeps
  infer_instance

/-! ## What it takes -/

def checks : (c : SysCall) → c.Answer → Bool
  | ⟨_, .connect⟩, answered => !answered
  | ⟨_, .dropListener⟩, _ => true
  | _, _ => false

def boundBy : (c : SysCall) → c.Answer → Option ℕ
  | ⟨_, .bind⟩, socket => socket
  | _, _ => none

abbrev Entry := Event SysCall SysCall.Answer

def boundIn (log : List Entry) : List ℕ := log.filterMap fun e => boundBy e.command e.answer

def boundSince (i : ℕ) (log : List Entry) : List ℕ :=
  boundIn (log.takeWhile fun e => !(decide (e.task = i) && checks e.command e.answer))

/-- No daemon listens that bound the path after the check on which this removal rests. -/
def Fenced (p : Actors) (i _me : ℕ) (c : SysCall) : Prop :=
  c.call = .removeSocket → c.process ∉ p.state.ended → ∀ socket ∈ boundSince i p.log, ¬ p.state.Listens socket

instance (p : Actors) (i me : ℕ) (c : SysCall) : Decidable (Fenced p i me c) := by
  unfold Fenced
  infer_instance

/-! ## What one step does to the sockets -/

inductive Effect (s : Host) (c : SysCall) (r : c.Answer) (s' : Host) : Prop
  | binds (call : c.call = .bind) (free : s.socketFile = none) (bound : boundBy c r = some s.bound)
      (file : s'.socketFile = some s.bound) (listening : s'.listening = (c.process, s.bound) :: s.listening)
      (ended : s'.ended = s.ended)
  | removes (call : c.call = .removeSocket) (alive : c.process ∉ s.ended) (file : s'.socketFile = none)
      (listening : s'.listening = s.listening) (ended : s'.ended = s.ended)
  | drops (call : c.call = .dropListener) (alive : c.process ∉ s.ended) (file : s'.socketFile = s.socketFile)
      (listening : s'.listening = s.listening.filter (·.1 ≠ c.process)) (ended : s'.ended = s.ended)
  | ends (p : ℕ) (call : c.call ≠ .bind ∧ c.call ≠ .dropListener ∧ c.call ≠ .connect) (file : s'.socketFile = s.socketFile)
      (listening : s'.listening = s.listening.filter (·.1 ≠ p)) (ended : s'.ended = p :: s.ended)
  | leaves (file : s'.socketFile = s.socketFile) (listening : s'.listening = s.listening) (ended : s'.ended = s.ended)
      (bound : boundBy c r = none)
      (refused : checks c r = true → c.process ∉ s.ended → c.call = .connect ∧ ∀ socket ∈ s.socketFile, ¬ s.Listens socket)

theorem effect (c : SysCall) (s : Host) : Effect s c (exec c s).1 (exec c s).2 := by
  by_cases hended : c.process ∈ s.ended
  · have hexec : exec c s = (c.call.refused, s) := if_pos hended
    rw [hexec]
    refine .leaves rfl rfl rfl ?_ fun _ halive => absurd hended halive
    obtain ⟨me, call⟩ := c
    cases call <;> rfl
  have hexec : exec c s = s.perform c.process c.call := if_neg hended
  rw [hexec]
  obtain ⟨me, call⟩ := c
  cases call with
  | bind =>
    cases hfile : s.socketFile with
    | none =>
      have hp : s.perform me .bind = (some s.bound,
          { s with socketFile := some s.bound, bound := s.bound + 1, listening := (me, s.bound) :: s.listening }) := by
        simp only [Host.perform, hfile]
      simp only [hp]
      exact .binds rfl hfile rfl rfl rfl rfl
    | some socket =>
      have hp : s.perform me .bind = (none, s) := by simp only [Host.perform, hfile]
      simp only [hp]
      exact .leaves rfl rfl rfl rfl fun h => absurd h (by simp [checks])
  | removeSocket => exact .removes rfl hended rfl rfl rfl
  | dropListener => exact .drops rfl hended rfl rfl rfl
  | exit => exact .ends me ⟨by simp, by simp, by simp⟩ rfl rfl rfl
  | dies p => exact .ends p ⟨by simp, by simp, by simp⟩ rfl rfl rfl
  | killProcess pid =>
    cases hfind : s.table.find? (·.1 == pid) with
    | none =>
      have hp : s.perform me (.killProcess pid) = (false, s) := by simp only [Host.perform, hfind]
      simp only [hp]
      exact .leaves rfl rfl rfl rfl fun h => absurd h (by simp [checks])
    | some e =>
      have hp : s.perform me (.killProcess pid) = (true, s.ends e.2) := by simp only [Host.perform, hfind]
      simp only [hp]
      exact .ends e.2 ⟨by simp, by simp, by simp⟩ rfl rfl rfl
  | connect =>
    refine .leaves rfl rfl rfl rfl fun h _ => ⟨rfl, fun socket hsocket hl => ?_⟩
    have hany : s.socketFile.any (fun socket => decide (s.Listens socket)) = false := by simpa [checks, Host.perform] using h
    rw [Option.mem_def.mp hsocket] at hany
    simp [hl] at hany
  | fork pid =>
    simp only [Host.perform]
    split <;> exact .leaves rfl rfl rfl rfl fun h => absurd h (by simp [checks])
  | reaped p =>
    simp only [Host.perform]
    split <;> exact .leaves rfl rfl rfl rfl fun h => absurd h (by simp [checks])
  | _ => exact .leaves rfl rfl rfl rfl fun h => absurd h (by simp [checks])

/-! ## What every task does -/

def held : History SysCall SysCall.Answer → Option ℕ
  | [] => none
  | ⟨⟨_, .dropListener⟩, _⟩ :: _ => none
  | ⟨c, r⟩ :: h => match boundBy c r with
    | some socket => some socket
    | none => held h

/-- A task speaks for itself, drops the listener it holds, and removes the socket file after a
check. -/
def allows (me : ℕ) (h : History SysCall SysCall.Answer) (c : SysCall) : Prop :=
  c.process = me ∧ (c.call = .dropListener → (held h).isSome) ∧ (c.call = .removeSocket → ∃ e ∈ h, checks e.1 e.2 = true)

theorem issues_sys {ε α : Type} {me : ℕ} {c : Call} {k : c.Answer → Proc ε α} {Q : α → History SysCall SysCall.Answer → Prop}
    {h : History SysCall SysCall.Answer} (hdrop : c = .dropListener → (held h).isSome)
    (hremove : c = .removeSocket → ∃ e ∈ h, checks e.1 e.2 = true)
    (hk : ∀ r, (k r).Issues (allows me) Q (⟨(⟨me, c⟩ : SysCall), r⟩ :: h)) : (sys me c >>= k).Issues (allows me) Q h :=
  ⟨⟨rfl, hdrop, hremove⟩, hk⟩

def plain (me : ℕ) (c : SysCall) : Prop := c.process = me ∧ c.call ≠ .dropListener ∧ c.call ≠ .removeSocket

theorem plain.allowed {me : ℕ} {c : SysCall} (h : plain me c) (hist : History SysCall SysCall.Answer) : allows me hist c :=
  ⟨h.1, fun hc => absurd hc h.2.1, fun hc => absurd hc h.2.2⟩

theorem only_sys {ε : Type} {me : ℕ} {c : Call} (hdrop : c ≠ .dropListener) (hremove : c ≠ .removeSocket) :
    (sys me c : Proc ε c.Answer).Only (plain me) :=
  only_call ⟨rfl, hdrop, hremove⟩

theorem serve_issues (me pid : ℕ) (h : History SysCall SysCall.Answer) :
    (serve me pid).Issues (allows me) (fun _ _ => True) h := by
  refine Issues.seq (P := fun _ _ => True) ?_ fun _ h' _ => ?_
  · refine issues_sys (by simp) (by simp) fun there => ?_
    cases there with
    | false => trivial
    | true =>
      refine issues_sys (by simp) (by simp) fun answered => ?_
      cases answered with
      | true => trivial
      | false =>
        refine issues_sys (by simp) (fun _ => ⟨_, List.mem_cons_self, rfl⟩) fun removed => ?_
        cases removed <;> trivial
  · refine issues_sys (by simp) (by simp) fun listener => ?_
    cases listener with
    | none => trivial
    | some socket =>
      refine issues_sys (by simp) (by simp) fun secured => ?_
      cases secured with
      | false => trivial
      | true =>
        refine issues_sys (by simp) (by simp) fun _ => issues_sys (by simp) (by simp) fun _ => ?_
        refine issues_sys (fun _ => rfl) (by simp) fun _ => ?_
        refine issues_sys (by simp) (fun _ => ⟨_, List.mem_cons_self, rfl⟩) fun _ => ?_
        exact issues_sys (by simp) (by simp) fun _ => trivial

theorem pollExit_plain (me pid start rounds : ℕ) : (pollExit me pid start rounds).Only (plain me) := by
  induction rounds with
  | zero => trivial
  | succ rounds ih =>
    refine only_bind (only_sys (by simp) (by simp)) fun now => ?_
    split
    · refine only_bind (only_sys (by simp) (by simp)) fun alive => ?_
      cases alive with
      | false => trivial
      | true => exact only_bind (only_sys (by simp) (by simp)) fun _ => ih
    · trivial

theorem stopProcess_plain (me pid : ℕ) : (stopProcess me pid).Only (plain me) := by
  refine only_bind (only_sys (by simp) (by simp)) fun terminated => ?_
  cases terminated with
  | false => trivial
  | true =>
    refine only_bind (only_sys (by simp) (by simp)) fun start => only_bind (pollExit_plain me pid start 41) fun gone => ?_
    cases gone with
    | true => trivial
    | false =>
      refine only_bind (only_sys (by simp) (by simp)) fun killed => ?_
      cases killed <;> trivial

theorem recover_issues (me : ℕ) (h : History SysCall SysCall.Answer) :
    (recoverBrokenDaemon me).Issues (allows me) (fun _ _ => True) h := by
  let checked (h : History SysCall SysCall.Answer) : Prop := ∃ e ∈ h, checks e.1 e.2 = true
  have hremove : ∀ h, checked h → (removeFiles me).Issues (allows me) (fun _ _ => True) h := by
    rintro h ⟨e, he, hc⟩
    refine issues_sys (by simp) (by simp) fun _ => ?_
    exact issues_sys (by simp) (fun _ => ⟨e, List.mem_cons_of_mem _ he, hc⟩) fun _ => trivial
  refine issues_sys (by simp) (by simp) fun answered => ?_
  cases answered with
  | true => trivial
  | false =>
    refine issues_sys (by simp) (by simp) fun recorded => ?_
    match recorded with
    | none => exact issues_sys (by simp) (fun _ => ⟨_, List.mem_cons_of_mem _ List.mem_cons_self, rfl⟩) fun _ => trivial
    | some none => trivial
    | some (some pid) =>
      have hchecked : checked (⟨(⟨me, .readPidFile⟩ : SysCall), some (some pid)⟩ :: ⟨(⟨me, .connect⟩ : SysCall), false⟩ :: h) :=
        ⟨_, List.mem_cons_of_mem _ List.mem_cons_self, rfl⟩
      refine issues_sys (by simp) (by simp) fun alive => ?_
      have hchecked' := hchecked.imp fun e he =>
          (⟨List.mem_cons_of_mem ⟨(⟨me, .processIsAlive pid⟩ : SysCall), alive⟩ he.1, he.2⟩ : _ ∧ _)
      cases alive with
      | false => exact hremove _ hchecked'
      | true =>
        refine Issues.seq ?_ fun _ h' hh' => hremove h' hh'
        refine (stopProcess_plain me pid).issues_within (fun h c hc _ => hc.allowed h) ?_ hchecked'
        rintro h c r - ⟨e, he, hc⟩
        exact ⟨e, List.mem_cons_of_mem _ he, hc⟩

theorem actor_issues (me : ℕ) (a : Actor) : (a.run me).Issues (allows me) (fun _ _ => True) [] := by
  cases a with
  | daemon pid =>
    refine issues_sys (by simp) (by simp) fun forked => ?_
    cases forked with
    | false => trivial
    | true =>
      refine Issues.seq (serve_issues me pid _).attempt fun _ h' _ => ?_
      exact issues_sys (k := Prog.pure) (by simp) (by simp) fun _ => trivial
  | recovery => exact Issues.seq (recover_issues me _).attempt fun _ _ _ => trivial
  | program pid => exact issues_sys (by simp) (by simp) fun _ => trivial
  | dies p => exact issues_sys (k := Prog.pure) (by simp) (by simp) fun _ => trivial
  | reaped p => exact issues_sys (k := Prog.pure) (by simp) (by simp) fun _ => trivial
  | passes ms => exact issues_sys (k := Prog.pure) (by simp) (by simp) fun _ => trivial

/-! ## What holds along a run -/

/-- At most one listener, whose file is at the path; the tasks know what they hold; a check of a
task still running vouches for every socket bound before it. -/
structure Sound (s : Host) (log : List Entry) : Prop where
  one : ∀ e ∈ s.listening, ∀ e' ∈ s.listening, e = e'
  owns : ∀ e ∈ s.listening, s.socketFile = some e.2
  knows : ∀ i socket, held (seen log i) = some socket → i ∉ s.ended → (i, socket) ∈ s.listening
  vouched : ∀ newer e older, log = newer ++ e :: older → checks e.command e.answer = true → e.task ∉ s.ended →
    ∀ l ∈ s.listening, l.2 ∈ boundIn newer

theorem Sound.single {s : Host} {log : List Entry} (h : Sound s log) : s.Single := by
  have hmem : ∀ d, s.Reachable d ∨ s.Owns d → ∃ e ∈ s.listening, e.1 = d := by
    rintro d (⟨socket, -, hl⟩ | ho)
    · exact ⟨_, hl, rfl⟩
    · exact ho
  intro d d' hd hd'
  obtain ⟨e, he, rfl⟩ := hmem d hd
  obtain ⟨e', he', rfl⟩ := hmem d' hd'
  rw [h.one e he e' he']

theorem Sound.idle {s : Host} (h : s.Idle) : Sound s [] where
  one e he := by simp [h.1] at he
  owns e he := by simp [h.1] at he
  knows i socket hheld := by cases hheld
  vouched newer e older heq := by simp at heq

theorem held_step {log : List Entry} {me i : ℕ} {c : SysCall} {r : c.Answer} {socket : ℕ}
    (h : held (seen (⟨me, c, r⟩ :: log) i) = some socket) :
    me = i ∧ boundBy c r = some socket ∨ (me = i → c.call ≠ .dropListener) ∧ held (seen log i) = some socket := by
  by_cases hi : me = i
  · have hseen : seen (⟨me, c, r⟩ :: log) i = ⟨c, r⟩ :: seen log i := by simp [seen, hi]
    rw [hseen] at h
    unfold held at h
    split at h
    · cases h
    · cases h
    · rename_i c' r' hist hnot heq
      cases heq
      split at h
      · cases h
        exact .inl ⟨hi, ‹_›⟩
      · refine .inr ⟨fun _ hdrop => ?_, h⟩
        obtain ⟨process, call⟩ := c
        obtain rfl : call = .dropListener := hdrop
        exact hnot process r rfl HEq.rfl
  · have hseen : seen (⟨me, c, r⟩ :: log) i = seen log i := by simp [seen, hi]
    exact .inr ⟨fun hme => absurd hme hi, hseen ▸ h⟩

theorem boundBy_none {c : SysCall} {r : c.Answer} (h : c.call ≠ .bind) : boundBy c r = none := by
  obtain ⟨process, call⟩ := c
  cases call <;> first | rfl | exact absurd rfl h

theorem call_of_checks {c : SysCall} {r : c.Answer} (h : checks c r = true) :
    c.call = .connect ∨ c.call = .dropListener := by
  obtain ⟨process, call⟩ := c
  cases call with
  | connect => exact .inl rfl
  | dropListener => exact .inr rfl
  | _ => cases h

theorem Sound.knows_of {s s' : Host} {log : List Entry} (h : Sound s log) {me : ℕ} {c : SysCall} {r : c.Answer}
    (hbound : boundBy c r = none)
    (hkept : ∀ l ∈ s.listening, l.1 ∉ s'.ended → (me = l.1 → c.call ≠ .dropListener) → l ∈ s'.listening)
    (hended : ∀ i, i ∈ s.ended → i ∈ s'.ended) (i socket : ℕ) (hheld : held (seen (⟨me, c, r⟩ :: log) i) = some socket)
    (hi : i ∉ s'.ended) : (i, socket) ∈ s'.listening := by
  rcases held_step hheld with ⟨-, hb⟩ | ⟨hdrop, hold⟩
  · rw [hbound] at hb
    cases hb
  · exact hkept _ (h.knows i socket hold fun hmem => hi (hended i hmem)) hi hdrop

/-- The clause `vouched` over a step, from what is said of the step itself when it is a check. -/
theorem Sound.vouched_of {s s' : Host} {log : List Entry} (h : Sound s log) {me : ℕ} {c : SysCall} {r : c.Answer}
    (hlistening : ∀ l ∈ s'.listening, l ∈ s.listening ∨ boundBy c r = some l.2) (hended : ∀ i, i ∈ s.ended → i ∈ s'.ended)
    (hnow : checks c r = true → me ∉ s'.ended → s'.listening = []) (newer : List Entry) (e : Entry) (older : List Entry)
    (heq : (⟨me, c, r⟩ : Entry) :: log = newer ++ e :: older) (hc : checks e.command e.answer = true)
    (he : e.task ∉ s'.ended) : ∀ l ∈ s'.listening, l.2 ∈ boundIn newer := by
  rcases List.cons_eq_append_iff.mp heq with ⟨-, hhead⟩ | ⟨newer', rfl, hrest⟩
  · obtain ⟨rfl, -⟩ := List.cons.inj hhead
    intro l hl
    rw [hnow hc he] at hl
    cases hl
  · intro l hl
    rcases hlistening l hl with hold | hb
    · have hmem := h.vouched newer' e older hrest hc (fun hmem => he (hended _ hmem)) l hold
      obtain ⟨e', he', hb⟩ := List.mem_filterMap.mp hmem
      exact List.mem_filterMap.mpr ⟨e', List.mem_cons_of_mem _ he', hb⟩
    · exact List.mem_filterMap.mpr ⟨_, List.mem_cons_self, hb⟩

/-- A step of a task that obeys and leaves the file of a listener in place keeps all of it. -/
theorem Sound.step {s : Host} {log : List Entry} (h : Sound s log) {me : ℕ} {c : SysCall} (hme : c.process = me)
    (hdrops : c.call = .dropListener → (held (seen log me)).isSome)
    (hkeeps : ∀ socket ∈ s.socketFile, s.Listens socket → (exec c s).2.socketFile = some socket) :
    Sound (exec c s).2 (⟨me, c, (exec c s).1⟩ :: log) := by
  have hlistens : ∀ l ∈ s.listening, s.Listens l.2 := fun l hl => ⟨l, hl, rfl⟩
  have howns : ∀ l ∈ s.listening, (exec c s).2.socketFile = some l.2 := fun l hl => hkeeps l.2 (h.owns l hl) (hlistens l hl)
  cases effect c s with
  | binds call free bound file listening ended =>
    have hnil : s.listening = [] := List.eq_nil_iff_forall_not_mem.mpr fun l hl => by
      have hfile := h.owns l hl
      rw [free] at hfile
      cases hfile
    rw [hnil] at listening
    refine ⟨?_, ?_, ?_, h.vouched_of ?_ (fun _ hi => ended ▸ hi) fun hc _ => ?_⟩
    · intro e he e' he'
      rw [listening] at he he'
      rw [List.mem_singleton.mp he, List.mem_singleton.mp he']
    · intro e he
      rw [listening] at he
      rw [List.mem_singleton.mp he]
      exact file
    · intro i socket hheld hi
      rw [listening]
      rcases held_step hheld with ⟨rfl, hb⟩ | ⟨-, hold⟩
      · rw [bound] at hb
        cases hb
        rw [hme]
        exact List.mem_cons_self
      · have hmem := h.knows i socket hold (ended ▸ hi)
        rw [hnil] at hmem
        cases hmem
    · intro l hl
      rw [listening] at hl
      rw [List.mem_singleton.mp hl]
      exact .inr bound
    · rcases call_of_checks hc with hcall | hcall <;> simp [call] at hcall
  | removes call alive file listening ended =>
    refine ⟨listening ▸ h.one, listening ▸ howns, h.knows_of (boundBy_none (by simp [call])) ?_ fun _ hi => ended ▸ hi,
      h.vouched_of (fun l hl => .inl (listening ▸ hl)) (fun _ hi => ended ▸ hi) fun hc _ => ?_⟩
    · intro l hl _ _
      exact listening ▸ hl
    · rcases call_of_checks hc with hcall | hcall <;> simp [call] at hcall
  | drops call alive file listening ended =>
    -- the task holds a listener, so the listener is its own
    obtain ⟨socket, hheld⟩ := Option.isSome_iff_exists.mp (hdrops call)
    have hmine := h.knows me socket hheld (hme ▸ alive)
    have hnil : (exec c s).2.listening = [] := by
      rw [listening, List.filter_eq_nil_iff]
      intro l hl
      rw [h.one l hl _ hmine, hme]
      simp
    refine ⟨?_, ?_, h.knows_of (boundBy_none (by simp [call])) ?_ fun _ hi => ended ▸ hi,
      h.vouched_of ?_ (fun _ hi => ended ▸ hi) fun _ _ => hnil⟩
    · intro e he
      rw [hnil] at he
      cases he
    · intro e he
      rw [hnil] at he
      cases he
    · intro l hl _ hdrop
      exact absurd call (hdrop (by rw [h.one l hl _ hmine]))
    · intro l hl
      rw [hnil] at hl
      cases hl
  | ends p call file listening ended =>
    have hsub : ∀ l ∈ (exec c s).2.listening, l ∈ s.listening := by
      intro l hl
      rw [listening] at hl
      exact List.mem_of_mem_filter hl
    have hended : ∀ i, i ∈ s.ended → i ∈ (exec c s).2.ended := by
      intro i hi
      rw [ended]
      exact List.mem_cons_of_mem _ hi
    refine ⟨fun e he e' he' => h.one e (hsub e he) e' (hsub e' he'), fun e he => howns e (hsub e he),
      h.knows_of (boundBy_none call.1) ?_ hended, h.vouched_of (fun l hl => .inl (hsub l hl)) hended fun hc _ => ?_⟩
    · intro l hl hlive _
      rw [listening]
      refine List.mem_filter.mpr ⟨hl, decide_eq_true fun hp => hlive ?_⟩
      rw [ended, hp]
      exact List.mem_cons_self
    · rcases call_of_checks hc with hcall | hcall
      · exact absurd hcall call.2.2
      · exact absurd hcall call.2.1
  | leaves file listening ended bound refused =>
    refine ⟨listening ▸ h.one, listening ▸ howns, h.knows_of bound (fun l hl _ _ => listening ▸ hl) fun _ hi => ended ▸ hi,
      h.vouched_of (fun l hl => .inl (listening ▸ hl)) (fun _ hi => ended ▸ hi) fun hc halive => ?_⟩
    have hnone := (refused hc (hme ▸ ended ▸ halive)).2
    rw [listening, List.eq_nil_iff_forall_not_mem]
    exact fun l hl => hnone l.2 (h.owns l hl) (hlistens l hl)

structure Orderly (p : Actors) : Prop where
  obeys : p.Obeys allows
  labels : p.tasks.map Prod.fst = List.range p.tasks.length
  sound : Sound p.state p.log

theorem Orderly.label {p : Actors} (h : Orderly p) {i me : ℕ} {c : SysCall} (hn : p.next? i = some (me, c)) : me = i := by
  obtain ⟨k, htask⟩ := next?_some hn
  have hlen := (List.getElem?_eq_some_iff.mp htask).1
  have hget : (p.tasks.map Prod.fst)[i]? = some me := by rw [List.getElem?_map, htask]; rfl
  rw [h.labels, List.getElem?_range hlen] at hget
  exact (Option.some.inj hget).symm

theorem Orderly.start {s : Host} (h : s.Idle) (actors : List Actor) : Orderly (onPath s actors) where
  obeys := by
    refine Obeys.start fun tp htp => ?_
    obtain ⟨me, hme, rfl⟩ := List.mem_mapIdx.mp htp
    exact actor_issues me _
  labels := by
    refine List.ext_getElem (by simp [onPath, Pool.start]) fun i _ _ => ?_
    simp [onPath, Pool.start]
  sound := .idle h

theorem Orderly.turn {p : Actors} (h : Orderly p) {i me : ℕ} {c : SysCall} (hn : p.next? i = some (me, c))
    (hkeeps : Keeps p i me c) : Orderly (p.turn exec i) where
  obeys := h.obeys.turn i
  labels := by
    rw [labels_turn, h.labels]
    obtain ⟨k, -, hturn⟩ := turn_some (x := exec) hn
    rw [hturn, List.length_set]
  sound := by
    obtain rfl := h.label hn
    obtain ⟨hme, hdrops, -⟩ := h.obeys.allowed hn
    obtain ⟨k, -, hturn⟩ := turn_some (x := exec) hn
    rw [hturn]
    exact h.sound.step hme hdrops hkeeps

theorem since_check {log : List Entry} {i : ℕ} (h : ∃ e ∈ seen log i, checks e.1 e.2 = true) :
    ∃ newer e older, log = newer ++ e :: older ∧ e.task = i ∧ checks e.command e.answer = true ∧ boundSince i log =
      boundIn newer := by
  obtain ⟨⟨c, r⟩, hmem, hc⟩ := h
  obtain ⟨e₀, he₀, htask⟩ := List.mem_filterMap.mp hmem
  have hsome : (log.find? fun e => decide (e.task = i) && checks e.command e.answer).isSome := by
    refine List.find?_isSome.mpr ⟨e₀, he₀, ?_⟩
    split at htask
    · cases htask
      simpa [‹e₀.task = i›] using hc
    · cases htask
  obtain ⟨e, he⟩ := Option.isSome_iff_exists.mp hsome
  obtain ⟨hp, newer, older, rfl, hnewer⟩ := List.find?_eq_some_iff_append.mp he
  obtain ⟨hi, hce⟩ := Bool.and_eq_true_iff.mp hp
  refine ⟨newer, e, older, rfl, of_decide_eq_true hi, hce, ?_⟩
  rw [boundSince, List.takeWhile_append_of_pos hnewer, List.takeWhile_cons_of_neg (by simp [hp]), List.append_nil]

/-- A removal is safe exactly when nobody bound the path since its check. -/
theorem Orderly.fenced_iff {p : Actors} (h : Orderly p) {i me : ℕ} {c : SysCall} (hn : p.next? i = some (me, c)) :
    Fenced p i me c ↔ Keeps p i me c := by
  obtain rfl := h.label hn
  obtain ⟨hme, -, hchecked⟩ := h.obeys.allowed hn
  constructor
  · intro hf socket hsocket hl
    rw [Option.mem_def] at hsocket
    cases effect c p.state with
    | binds _ free => rw [free] at hsocket; cases hsocket
    | removes call alive =>
      exfalso
      obtain ⟨l, hl, -⟩ := hl
      obtain ⟨newer, e, older, heq, htask, hce, hsince⟩ := since_check (hchecked call)
      have hbound := h.sound.vouched newer e older heq hce (by rw [htask, ← hme]; exact alive) l hl
      exact hf call alive l.2 (hsince ▸ hbound) ⟨l, hl, rfl⟩
    | drops _ _ file => rw [file, hsocket]
    | ends _ _ file => rw [file, hsocket]
    | leaves file => rw [file, hsocket]
  · intro hk hcall halive socket _ hl
    obtain ⟨l, hmem, rfl⟩ := hl
    have hstays := hk l.2 (h.sound.owns l hmem) ⟨l, hmem, rfl⟩
    have hexec : exec c p.state = p.state.perform c.process c.call := if_neg halive
    rw [hexec] at hstays
    obtain ⟨process, call⟩ := c
    obtain rfl : call = .removeSocket := hcall
    cases hstays

/-- However daemons start and stop and CLIs recover, no step removes the file of a listening daemon
and no two daemons listen, if and only if no daemon that still listens has bound the path between
a check and the removal that rests on it. -/
theorem single_iff_fenced {s : Host} (hs : s.Idle) (actors : List Actor) (schedule : List ℕ) :
    (onPath s actors).Meets exec Fenced schedule ↔
      (onPath s actors).Meets exec Keeps schedule ∧
        ∀ is js, schedule = is ++ js → ((onPath s actors).play exec is).state.Single := by
  have h₀ := Orderly.start hs actors
  have hkeep : (onPath s actors).Meets exec Keeps schedule ↔ (onPath s actors).Meets exec Fenced schedule :=
    meets_congr (fun _ _ _ _ h hn hk => h.turn hn hk) (fun _ _ _ _ h hn => (h.fenced_iff hn).symm) h₀
  refine ⟨fun h => ⟨hkeep.mpr h, fun is js heq => ?_⟩, fun h => hkeep.mp h.1⟩
  exact (play_prefixes (fun _ _ _ _ h hn hk => h.turn hn hk) (hkeep.mpr h) h₀ heq).sound.single

/-! ## Runs of three daemons -/

def freshHost : Host := ⟨none, none, 0, [], [], [], 0⟩

def threeDaemons : List Actor := [.daemon 501, .daemon 502, .daemon 503]

theorem freshHost_idle : freshHost.Idle := ⟨rfl, by simp [freshHost]⟩

def inTurn : List ℕ := List.replicate 10 0 ++ List.replicate 8 1 ++ List.replicate 4 2

theorem inTurn_single : (onPath freshHost threeDaemons).Meets exec Keeps inTurn ∧
    ∀ is js, inTurn = is ++ js → ((onPath freshHost threeDaemons).play exec is).state.Single :=
  (single_iff_fenced freshHost_idle threeDaemons inTurn).mp (by decide +kernel)

/-- The first daemon has dropped its listener and drains; the second finds the socket stale and
takes the path over; the first removes the file at the path, and the third binds it again. -/
def takeover : List ℕ := List.replicate 7 0 ++ List.replicate 8 1 ++ [0] ++ List.replicate 3 2

theorem takeover_breaks : ¬ ∀ (s : Host) (actors : List Actor) (schedule : List ℕ), s.Idle →
    (onPath s actors).Meets exec Keeps schedule ∧
      ∀ is js, schedule = is ++ js → ((onPath s actors).play exec is).state.Single := by
  intro h
  have hsingle := (h freshHost threeDaemons takeover freshHost_idle).2 takeover [] (by simp)
  have hlistening : ((onPath freshHost threeDaemons).play exec takeover).state.listening = [(2, 2), (1, 1)] := by decide +kernel
  have h12 : (1 : ℕ) = 2 := hsingle 1 2 (.inr ⟨(1, 1), hlistening ▸ by simp, rfl⟩) (.inr ⟨(2, 2), hlistening ▸ by simp, rfl⟩)
  cases h12

end CognitiveMemory.Runtime
