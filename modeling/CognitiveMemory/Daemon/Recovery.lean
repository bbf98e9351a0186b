import CognitiveMemory.Lib.Words
import CognitiveMemory.Daemon.Serve
import CognitiveMemory.Daemon.Handlers

/-! Whom the signals of `recover_broken_daemon` reach: the text of the PID file, the number it
holds as a target of `kill`, and the processes this target stands for when the signal is sent. -/

namespace CognitiveMemory.Runtime
open Prog Pool

/-! ## The PID file -/

def dropPlus : List Char → List Char
  | '+' :: rest => rest
  | cs => cs

/-- `u32::from_str`. -/
def parseU32 (cs : List Char) : Option ℕ :=
  let digits := dropPlus cs
  if digits ≠ [] ∧ digits.all Char.isDigit then
    let n := Nat.ofDigitChars 10 digits 0
    if n < 2 ^ 32 then some n else none
  else none

/-- What `write_pid_file` writes. -/
def pidText (pid : ℕ) : List Char := Nat.toDigits 10 pid ++ ['\n']

structure PidFile where
  /-- None where the file is there and cannot be read as text. -/
  text : Option (List Char)
  /-- The process that wrote the file, where a daemon did. -/
  writer : Option ℕ
  deriving DecidableEq

/-- `read_pid_file` on a file that is there. -/
def readPidFile (file : PidFile) : Option ℕ := file.text.bind fun text => parseU32 (trim text)

theorem parseU32_lt {cs : List Char} {n : ℕ} (h : parseU32 cs = some n) : n < 2 ^ 32 := by
  unfold parseU32 at h
  grind

theorem readPidFile_lt {file : PidFile} {n : ℕ} (h : readPidFile file = some n) : n < 2 ^ 32 := by
  obtain ⟨text, -, hparse⟩ := Option.bind_eq_some_iff.mp h
  exact parseU32_lt hparse

/-! ## Signals -/

/-- The cast `pid as i32`. -/
def asI32 (n : ℕ) : ℤ := (n : ℤ).bmod (2 ^ 32)

inductive Signal
  | term
  | kill
  deriving DecidableEq

/-- A signal that has reached a process. -/
structure Delivery where
  signal : Signal
  target : ℤ
  receiver : ℕ
  /-- The PID file as the sender had read it. -/
  file : Option PidFile
  deriving DecidableEq

/-- The host with what its signals depend on. -/
structure Kernel where
  host : Host
  pidFile : Option PidFile
  /-- The process group of a process. -/
  group : ℕ → ℕ
  /-- The processes nobody here has the permission to signal. -/
  foreign : List ℕ
  /-- The PID file as the processes have read it, the latest first. -/
  copies : List (ℕ × Option PidFile)
  delivered : List Delivery

def Kernel.copy (k : Kernel) (me : ℕ) : Option PidFile := (k.copies.find? (·.1 == me)).bind Prod.snd

/-- Whether a target of `kill(2)` stands for this entry of the process table. -/
def Kernel.stands (k : Kernel) (me : ℕ) (target : ℤ) (e : ℕ × ℕ) : Bool :=
  if 0 < target then (e.1 : ℤ) == target
  else if target = 0 then k.group e.2 == k.group me
  else if target = -1 then e.2 != me
  else (k.group e.2 : ℤ) == -target

def Kernel.addressed (k : Kernel) (me : ℕ) (target : ℤ) : List (ℕ × ℕ) :=
  k.host.table.filter fun e => k.stands me target e && !k.foreign.contains e.2

/-- What has ended and was not reaped is there for `kill` and receives nothing. -/
def Kernel.reached (k : Kernel) (me : ℕ) (target : ℤ) : List (ℕ × ℕ) :=
  (k.addressed me target).filter fun e => !k.host.ended.contains e.2

def Kernel.deliver (me : ℕ) (target : ℤ) (signal : Signal) (k : Kernel) : Kernel :=
  { k with delivered := ((k.reached me target).map fun e => ⟨signal, target, e.2, k.copy me⟩) ++ k.delivered }

def Kernel.view (k : Kernel) : Host := { k.host with pidFile := k.pidFile.map readPidFile }

def Kernel.perform (me : ℕ) : (c : Call) → Kernel → c.Answer × Kernel
  | .createPidFile, k => ((), { k with pidFile := some ⟨some [], some me⟩ })
  | .writePidFile pid, k => ((), { k with pidFile := some ⟨some (pidText pid), some me⟩ })
  | .readPidFile, k => (k.pidFile.map readPidFile, { k with copies := (me, k.pidFile) :: k.copies })
  | .removePidFile, k => (k.pidFile.isSome, { k with pidFile := none })
  | .processIsAlive n, k => (!(k.addressed me (asI32 n)).isEmpty, k)
  | .terminateProcess n, k => (!(k.addressed me (asI32 n)).isEmpty, k.deliver me (asI32 n) .term)
  | .killProcess n, k =>
    (!(k.addressed me (asI32 n)).isEmpty, { k.deliver me (asI32 n) .kill with
      host := (k.addressed me (asI32 n)).foldl (fun host e => host.ends e.2) k.host })
  | c, k =>
    let done := k.view.perform me c
    (done.1, { k with host := done.2 })

def Kernel.exec : Prog.Exec SysCall SysCall.Answer Kernel := fun c k =>
  if c.process ∈ k.host.ended then (c.call.refused, k) else k.perform c.process c.call


/-! ## What is to hold -/

/-- The signal was sent to one process by its number, and to the one that wrote the PID file. -/
def Delivery.ToWriter (d : Delivery) : Prop := 0 < d.target ∧ d.file.bind PidFile.writer = some d.receiver

instance (d : Delivery) : Decidable d.ToWriter := inferInstanceAs (Decidable (_ ∧ _))

theorem toWriter_iff {signal : Signal} {target : ℤ} {receiver : ℕ} {file : PidFile} :
    (⟨signal, target, receiver, some file⟩ : Delivery).ToWriter ↔ 0 < target ∧ file.writer = some receiver := Iff.rfl

/-! ## What it takes -/

/-- Nobody who could be signalled bears the number of the file but its writer. Numbers that no process
bears stand for more: 0 for the caller's group, the highest for everybody, others for a group. -/
def Kernel.Names (k : Kernel) (me : ℕ) (file : PidFile) : Prop :=
  ∀ n ∈ readPidFile file, ∀ e ∈ k.host.table, e.2 ∉ k.host.ended → e.2 ∉ k.foreign →
    if n = 0 then k.group e.2 ≠ k.group me
    else if n < 2 ^ 31 then e.1 = n → file.writer = some e.2
    else if n = 2 ^ 32 - 1 then e.2 = me
    else k.group e.2 ≠ 2 ^ 32 - n

instance (k : Kernel) (me : ℕ) (file : PidFile) : Decidable (k.Names me file) := by
  unfold Kernel.Names
  infer_instance

def Call.signals : Call → Option ℕ
  | .terminateProcess n | .killProcess n => some n
  | _ => none

abbrev Machine := Prog.Pool ℕ SysCall SysCall.Answer Empty Unit Kernel

/-- When a signal is sent, the file names its writer, or nobody. -/
def Named (p : Machine) (_i _me : ℕ) (c : SysCall) : Prop :=
  c.call.signals.isSome → c.process ∉ p.state.host.ended → ∀ file ∈ p.state.copy c.process, p.state.Names c.process file

instance (p : Machine) (i me : ℕ) (c : SysCall) : Decidable (Named p i me c) := by
  unfold Named
  infer_instance

/-- Before the first step. The PID file may hold anything, the process table may be any. -/
def onMachine (host : Host) (pidFile : Option PidFile) (group : ℕ → ℕ) (foreign : List ℕ) (actors : List Actor) : Machine :=
  .start ⟨host, pidFile, group, foreign, [], []⟩ (actors.mapIdx fun me a => (me, a.run me))

/-! ## What a number stands for -/

theorem bmod_of_small {t : ℤ} (hlow : -2 ^ 31 ≤ t) (hhigh : t < 2 ^ 31) : t.bmod (2 ^ 32) = t :=
  Int.bmod_eq_of_le (by omega) (by omega)

theorem asI32_of_lt {n : ℕ} (h : n < 2 ^ 31) : asI32 n = n := bmod_of_small (by omega) (by omega)

theorem asI32_of_ge {n : ℕ} (h : 2 ^ 31 ≤ n) (hn : n < 2 ^ 32) : asI32 n = n - 2 ^ 32 := by
  have hwrap : ∀ m : ℕ, (n : ℤ).bmod m = ((n : ℤ) - m).bmod m := fun m => (Int.sub_bmod_right _ m).symm
  refine (hwrap (2 ^ 32)).trans ?_
  push_cast
  exact bmod_of_small (by omega) (by omega)

theorem reached_iff {k : Kernel} {me : ℕ} {target : ℤ} {e : ℕ × ℕ} :
    e ∈ k.reached me target ↔ e ∈ k.host.table ∧ e.2 ∉ k.host.ended ∧ e.2 ∉ k.foreign ∧ k.stands me target e = true := by
  simp only [Kernel.reached, Kernel.addressed, List.mem_filter, Bool.and_eq_true, Bool.not_eq_true', List.contains_eq_mem,
    decide_eq_false_iff_not]
  tauto

/-- One entry of the table: it is not reached, or it is the writer's and reached by its number. -/
theorem stands_writer_iff (k : Kernel) (me : ℕ) (writer : Option ℕ) {n : ℕ} (hn : n < 2 ^ 32) (e : ℕ × ℕ) :
    (k.stands me (asI32 n) e = true → 0 < asI32 n ∧ writer = some e.2) ↔
      if n = 0 then k.group e.2 ≠ k.group me
      else if n < 2 ^ 31 then e.1 = n → writer = some e.2
      else if n = 2 ^ 32 - 1 then e.2 = me
      else k.group e.2 ≠ 2 ^ 32 - n := by
  unfold Kernel.stands
  by_cases hzero : n = 0
  · have htarget : asI32 n = 0 := by rw [hzero, asI32_of_lt (by decide), Nat.cast_zero]
    rw [if_pos hzero, htarget]
    simp
  rw [if_neg hzero]
  by_cases hlow : n < 2 ^ 31
  · have hpos : 0 < n := Nat.pos_of_ne_zero hzero
    rw [if_pos hlow, asI32_of_lt hlow]
    simp [hpos]
  rw [if_neg hlow]
  obtain ⟨target, htarget⟩ : ∃ target, asI32 n = target := ⟨_, rfl⟩
  have hvalue : target = n - 2 ^ 32 := htarget ▸ asI32_of_ge (by omega) hn
  have hneg : ¬ 0 < target := by omega
  have hne : target ≠ 0 := by omega
  rw [htarget, if_neg hneg, if_neg hne]
  by_cases hall : n = 2 ^ 32 - 1
  · have hone : target = -1 := by omega
    rw [if_pos hall, if_pos hone]
    simp [hneg]
  · have hone : target ≠ -1 := by omega
    have hgroup : (k.group e.2 : ℤ) = -target ↔ k.group e.2 = 2 ^ 32 - n := by omega
    rw [if_neg hall, if_neg hone, beq_iff_eq, hgroup]
    simp only [hneg, false_and, ne_eq]

theorem names_iff {k : Kernel} {me n : ℕ} {file : PidFile} (hn : readPidFile file = some n) :
    k.Names me file ↔ ∀ e ∈ k.reached me (asI32 n), 0 < asI32 n ∧ file.writer = some e.2 := by
  have hlt := readPidFile_lt hn
  constructor
  · intro h e he
    obtain ⟨hmem, hrunning, hown, hstands⟩ := reached_iff.mp he
    exact (stands_writer_iff k me file.writer hlt e).mpr (h n hn e hmem hrunning hown) hstands
  · intro h n' hn' e hmem hrunning hown
    obtain rfl : n' = n := Option.some.inj ((Option.mem_def.mp hn').symm.trans hn)
    exact (stands_writer_iff k me file.writer hlt e).mp fun hstands => h e (reached_iff.mpr ⟨hmem, hrunning, hown, hstands⟩)


/-! ## What the tasks signal -/

def recorded : History SysCall SysCall.Answer → Option ℕ
  | [] => none
  | ⟨⟨_, .readPidFile⟩, r⟩ :: _ => r.join
  | _ :: h => recorded h

def informed (me : ℕ) (h : History SysCall SysCall.Answer) (c : SysCall) : Prop :=
  c.process = me ∧ ∀ n ∈ c.call.signals, recorded h = some n

def silent (me : ℕ) (c : SysCall) : Prop := c.process = me ∧ c.call.signals = none

theorem silent.informed {me : ℕ} {c : SysCall} (hc : silent me c) (h : History SysCall SysCall.Answer) : informed me h c :=
  ⟨hc.1, fun n hn => by rw [hc.2] at hn; cases hn⟩

theorem informed_of_silent {ε α : Type} {me : ℕ} {p : Proc ε α} (hp : p.Only (silent me))
    (h : History SysCall SysCall.Answer) :
    p.Issues (informed me) (fun _ _ => True) h :=
  (hp.issues (fun h _ hc => hc.informed h) h).imp fun _ _ _ => trivial

theorem silent_sys {ε : Type} {me : ℕ} {c : Call} (hc : c.signals = none) : (sys me c : Proc ε c.Answer).Only (silent me) :=
  only_call ⟨rfl, hc⟩

theorem informed_sys {ε α : Type} {me : ℕ} {c : Call} {k : c.Answer → Proc ε α}
    {Q : α → History SysCall SysCall.Answer → Prop} {h : History SysCall SysCall.Answer} (hc : c.signals = none)
    (hk : ∀ r, (k r).Issues (informed me) Q (⟨(⟨me, c⟩ : SysCall), r⟩ :: h)) : (sys me c >>= k).Issues (informed me) Q h :=
  ⟨silent.informed ⟨rfl, hc⟩ h, hk⟩

theorem recorded_cons {c : SysCall} {r : c.Answer} {h : History SysCall SysCall.Answer} (hc : c.call ≠ .readPidFile) :
    recorded (⟨c, r⟩ :: h) = recorded h := by
  obtain ⟨process, call⟩ := c
  cases call <;> first | rfl | exact absurd rfl hc

theorem recorded_read {c : SysCall} {r : c.Answer} {h : History SysCall SysCall.Answer} (hc : c.call = .readPidFile) :
    recorded (⟨c, r⟩ :: h) = recorded [⟨c, r⟩] := by
  obtain ⟨process, call⟩ := c
  obtain rfl : call = .readPidFile := hc
  rfl

def Call.anonymous : Call → Bool
  | .fork _ | .writePidFile _ => false
  | _ => true

def onNumber (me n : ℕ) (c : SysCall) : Prop :=
  c.process = me ∧ c.call ≠ .readPidFile ∧ c.call.anonymous = true ∧ ∀ m ∈ c.call.signals, m = n

theorem onNumber_sys {ε : Type} {me n : ℕ} {c : Call} (hread : c ≠ .readPidFile) (hc : c.anonymous = true)
    (hsignals : ∀ m ∈ c.signals, m = n) : (sys me c : Proc ε c.Answer).Only (onNumber me n) :=
  only_call ⟨rfl, hread, hc, hsignals⟩

theorem pollExit_onNumber (me n start rounds : ℕ) : (pollExit me n start rounds).Only (onNumber me n) := by
  induction rounds with
  | zero => trivial
  | succ rounds ih =>
    refine only_bind (onNumber_sys (by simp) rfl (by simp [Call.signals])) fun now => ?_
    split
    · refine only_bind (onNumber_sys (by simp) rfl (by simp [Call.signals])) fun alive => ?_
      cases alive with
      | false => trivial
      | true => exact only_bind (onNumber_sys (by simp) rfl (by simp [Call.signals])) fun _ => ih
    · trivial

theorem stopProcess_onNumber (me n : ℕ) : (stopProcess me n).Only (onNumber me n) := by
  refine only_bind (onNumber_sys (by simp) rfl (by simp [Call.signals])) fun terminated => ?_
  cases terminated with
  | false => trivial
  | true =>
    refine only_bind (onNumber_sys (by simp) rfl (by simp [Call.signals])) fun start => ?_
    refine only_bind (pollExit_onNumber me n start 41) fun gone => ?_
    cases gone with
    | true => trivial
    | false =>
      refine only_bind (onNumber_sys (by simp) rfl (by simp [Call.signals])) fun killed => ?_
      cases killed <;> trivial

theorem removeFiles_silent (me : ℕ) : (removeFiles me).Only (silent me) :=
  only_bind (silent_sys rfl) fun _ => only_bind (silent_sys rfl) fun _ => trivial

theorem recover_informed (me : ℕ) (h : History SysCall SysCall.Answer) :
    (recoverBrokenDaemon me).Issues (informed me) (fun _ _ => True) h := by
  refine informed_sys rfl fun answered => ?_
  cases answered with
  | true => trivial
  | false =>
    refine informed_sys rfl fun recorded => ?_
    match recorded with
    | none => exact informed_sys rfl fun _ => trivial
    | some none => trivial
    | some (some n) =>
      refine informed_sys rfl fun alive => ?_
      cases alive with
      | false => exact informed_of_silent (removeFiles_silent me) _
      | true =>
        -- from here on the last number read is `n`
        refine Issues.seq (P := fun _ _ => True) ?_ fun _ h' _ => informed_of_silent (removeFiles_silent me) h'
        refine ((stopProcess_onNumber me n).issues_within (I := fun h => Runtime.recorded h = some n) ?_ ?_ rfl).imp
            fun _ _ _ => trivial
        · intro h c hc hh
          exact ⟨hc.1, fun m hm => by rw [hc.2.2.2 m hm, hh]⟩
        · intro h c r hc hh
          rw [recorded_cons hc.2.1, hh]

/-- A daemon sends no signal and writes its own PID. -/
def serving (me pid : ℕ) (c : SysCall) : Prop :=
  silent me c ∧ (c.call.anonymous = true ∨ c.call = .writePidFile pid)

theorem serving_sys {ε : Type} {me pid : ℕ} {c : Call} (hsignals : c.signals = none) (hc : c.anonymous = true) :
    (sys me c : Proc ε c.Answer).Only (serving me pid) :=
  only_call ⟨⟨rfl, hsignals⟩, .inl hc⟩

theorem serve_serving (me pid : ℕ) : (serve me pid).Only (serving me pid) := by
  have hclear : (clearStaleSocket me).Only (serving me pid) := by
    refine only_bind (serving_sys rfl rfl) fun there => ?_
    cases there with
    | false => trivial
    | true =>
      refine only_bind (serving_sys rfl rfl) fun answered => ?_
      cases answered with
      | true => trivial
      | false =>
        refine only_bind (serving_sys rfl rfl) fun removed => ?_
        cases removed <;> trivial
  refine only_bind hclear fun _ => only_bind (serving_sys rfl rfl) fun listener => ?_
  cases listener with
  | none => trivial
  | some socket =>
    refine only_bind (serving_sys rfl rfl) fun secured => ?_
    cases secured with
    | false => trivial
    | true =>
      refine only_bind (serving_sys rfl rfl) fun _ => only_bind (only_call ⟨⟨rfl, rfl⟩, .inr rfl⟩) fun _ => ?_
      refine only_bind (serving_sys rfl rfl) fun _ => only_bind (serving_sys rfl rfl) fun _ => ?_
      exact only_bind (serving_sys rfl rfl) fun _ => trivial

theorem actor_informed (me : ℕ) (a : Actor) : (a.run me).Issues (informed me) (fun _ _ => True) [] := by
  cases a with
  | daemon pid =>
    refine informed_sys rfl fun forked => ?_
    cases forked with
    | false => trivial
    | true =>
      have hserve := informed_of_silent ((serve_serving me pid).imp fun _ hc => hc.1)
      exact Issues.seq (hserve _).attempt fun _ h' _ => informed_of_silent (silent_sys rfl) h'
  | recovery => exact Issues.seq (recover_informed me _).attempt fun _ _ _ => trivial
  | program pid => exact informed_sys rfl fun _ => trivial
  | dies p => exact informed_of_silent (silent_sys rfl) _
  | reaped p => exact informed_of_silent (silent_sys rfl) _
  | passes ms => exact informed_of_silent (silent_sys rfl) _

/-! ## What one step delivers -/

inductive Delivers (k : Kernel) (c : SysCall) (r : c.Answer) (k' : Kernel) : Prop
  | sends (n : ℕ) (signal : Signal) (call : c.call.signals = some n) (alive : c.process ∉ k.host.ended)
      (delivered : k'.delivered =
        ((k.reached c.process (asI32 n)).map fun e => ⟨signal, asI32 n, e.2, k.copy c.process⟩) ++ k.delivered)
      (copies : k'.copies = k.copies)
  | reads (call : c.call = .readPidFile) (alive : c.process ∉ k.host.ended) (delivered : k'.delivered = k.delivered)
      (copies : k'.copies = (c.process, k.pidFile) :: k.copies) (answer : recorded [⟨c, r⟩] = k.pidFile.bind readPidFile)
  | leaves (call : c.call.signals.isSome → c.process ∈ k.host.ended) (delivered : k'.delivered = k.delivered)
      (copies : k'.copies = k.copies) (answer : c.call = .readPidFile → recorded [⟨c, r⟩] = none)

theorem delivers (c : SysCall) (k : Kernel) : Delivers k c (Kernel.exec c k).1 (Kernel.exec c k).2 := by
  by_cases hended : c.process ∈ k.host.ended
  · have hexec : Kernel.exec c k = (c.call.refused, k) := if_pos hended
    rw [hexec]
    refine .leaves (fun _ => hended) rfl rfl fun hread => ?_
    obtain ⟨me, call⟩ := c
    obtain rfl : call = .readPidFile := hread
    rfl
  have hexec : Kernel.exec c k = k.perform c.process c.call := if_neg hended
  rw [hexec]
  obtain ⟨me, call⟩ := c
  cases call with
  | terminateProcess n => exact .sends n .term rfl hended rfl rfl
  | killProcess n => exact .sends n .kill rfl hended rfl rfl
  | readPidFile =>
    refine .reads rfl hended rfl rfl ?_
    cases hfile : k.pidFile with
    | none => simp [Kernel.perform, recorded, hfile]
    | some file => simp [Kernel.perform, recorded, hfile]
  | _ => exact .leaves (by simp [Call.signals]) rfl rfl (by simp)

/-! ## Over a run -/

structure Tracked (p : Machine) : Prop where
  obeys : p.Obeys informed
  labels : p.tasks.map Prod.fst = List.range p.tasks.length
  copies : ∀ i n, recorded (seen p.log i) = some n → ∃ file, p.state.copy i = some file ∧ readPidFile file = some n

theorem Tracked.label {p : Machine} (h : Tracked p) {i me : ℕ} {c : SysCall} (hn : p.next? i = some (me, c)) : me = i := by
  obtain ⟨k, htask⟩ := next?_some hn
  have hlen := (List.getElem?_eq_some_iff.mp htask).1
  have hget : (p.tasks.map Prod.fst)[i]? = some me := by rw [List.getElem?_map, htask]; rfl
  rw [h.labels, List.getElem?_range hlen] at hget
  exact (Option.some.inj hget).symm

theorem Tracked.start (host : Host) (pidFile : Option PidFile) (group : ℕ → ℕ) (foreign : List ℕ) (actors : List Actor) :
    Tracked (onMachine host pidFile group foreign actors) where
  obeys := by
    refine Obeys.start fun tp htp => ?_
    obtain ⟨me, hme, rfl⟩ := List.mem_mapIdx.mp htp
    exact actor_informed me _
  labels := by
    refine List.ext_getElem (by simp [onMachine, Pool.start]) fun i _ _ => ?_
    simp [onMachine, Pool.start]
  copies i n hread := by cases hread

theorem Tracked.turn {p : Machine} (h : Tracked p) {i me : ℕ} {c : SysCall} (hn : p.next? i = some (me, c)) :
    Tracked (p.turn Kernel.exec i) where
  obeys := h.obeys.turn i
  labels := by
    rw [labels_turn, h.labels]
    obtain ⟨k, -, hturn⟩ := turn_some (x := Kernel.exec) hn
    rw [hturn, List.length_set]
  copies := by
    obtain rfl := h.label hn
    obtain ⟨hme, -⟩ := h.obeys.allowed hn
    obtain ⟨k, -, hturn⟩ := turn_some (x := Kernel.exec) hn
    rw [hturn]
    intro j n hread
    have heffect := delivers c p.state
    by_cases hij : me = j
    · subst hij
      have hseen : seen (⟨me, c, (Kernel.exec c p.state).1⟩ :: p.log) me = ⟨c, (Kernel.exec c p.state).1⟩ :: seen p.log me := by
        simp [seen]
      rw [hseen] at hread
      -- a read replaces the process's copy of the file, every other call leaves it
      by_cases hcall : c.call = .readPidFile
      · rw [recorded_read hcall] at hread
        cases heffect with
        | sends n' signal call => rw [hcall] at call; cases call
        | reads call alive delivered copies answer =>
          obtain ⟨file, hfile, hnumber⟩ := Option.bind_eq_some_iff.mp (answer.symm.trans hread)
          exact ⟨file, by rw [Kernel.copy, copies, ← hme, List.find?_cons_of_pos (by simp)]; exact hfile, hnumber⟩
        | leaves call delivered copies answer => rw [answer hcall] at hread; cases hread
      · rw [recorded_cons hcall] at hread
        obtain ⟨file, hfile, hnumber⟩ := h.copies me n hread
        refine ⟨file, ?_, hnumber⟩
        cases heffect with
        | sends n' signal call alive delivered copies => rw [← hfile, Kernel.copy, copies, Kernel.copy]
        | reads call => exact absurd call hcall
        | leaves call delivered copies => rw [← hfile, Kernel.copy, copies, Kernel.copy]
    · have hseen : seen (⟨me, c, (Kernel.exec c p.state).1⟩ :: p.log) j = seen p.log j := by simp [seen, hij]
      rw [hseen] at hread
      obtain ⟨file, hfile, hnumber⟩ := h.copies j n hread
      refine ⟨file, ?_, hnumber⟩
      cases heffect with
      | sends n' signal call alive delivered copies => rw [← hfile, Kernel.copy, copies, Kernel.copy]
      | reads call alive delivered copies =>
        rw [← hfile, Kernel.copy, copies, List.find?_cons_of_neg (by simpa [hme] using hij), Kernel.copy]
      | leaves call delivered copies => rw [← hfile, Kernel.copy, copies, Kernel.copy]

theorem Tracked.delivers_iff {p : Machine} (h : Tracked p) {i me : ℕ} {c : SysCall} (hn : p.next? i = some (me, c)) :
    (Named p i me c ∧ ∀ d ∈ p.state.delivered, d.ToWriter) ↔ ∀ d ∈ (p.turn Kernel.exec i).state.delivered, d.ToWriter := by
  obtain rfl := h.label hn
  obtain ⟨hme, hinformed⟩ := h.obeys.allowed hn
  obtain ⟨k, -, hturn⟩ := turn_some (x := Kernel.exec) hn
  rw [hturn]
  unfold Named
  cases delivers c p.state with
  | sends n signal call alive delivered =>
    obtain ⟨file, hfile, hnumber⟩ := h.copies me n (hinformed n call)
    rw [← hme] at hfile
    rw [delivered, List.forall_mem_append]
    refine and_congr ?_ Iff.rfl
    rw [List.forall_mem_map, call, hfile]
    constructor
    · intro hnamed e he
      exact toWriter_iff.mpr ((names_iff hnumber).mp (hnamed rfl alive file rfl) e he)
    · rintro hwriter - - file' hfile'
      cases hfile'
      exact (names_iff hnumber).mpr fun e he => toWriter_iff.mp (hwriter e he)
  | reads call alive delivered =>
    rw [delivered]
    exact and_iff_right fun hsignals => by rw [call] at hsignals; cases hsignals
  | leaves call delivered =>
    rw [delivered]
    exact and_iff_right fun hsignals halive => absurd (call hsignals) halive

theorem recovery_signals_iff (host : Host) (pidFile : Option PidFile) (group : ℕ → ℕ) (foreign : List ℕ)
    (actors : List Actor) (schedule : List ℕ) :
    (onMachine host pidFile group foreign actors).Meets Kernel.exec Named schedule ↔
      ∀ d ∈ ((onMachine host pidFile group foreign actors).play Kernel.exec schedule).state.delivered, d.ToWriter := by
  refine Iff.trans ?_ (meets_iff_kept (P := fun k : Kernel => ∀ d ∈ k.delivered, d.ToWriter) (fun _ _ _ _ h hn => h.turn hn)
    (fun _ _ _ _ h hn => h.delivers_iff hn) (Tracked.start host pidFile group foreign actors))
  simp [onMachine, Pool.start]

/-! ## While no number is given out twice -/

theorem isWhitespace_digit {c : Char} (h : c.isDigit = true) : isWhitespace c = false := by
  obtain ⟨hlow, hhigh⟩ := Char.isDigit_iff_toNat.mp h
  have hzero : '0'.toNat = 48 := rfl
  have hnine : '9'.toNat = 57 := rfl
  unfold isWhitespace
  simp
  omega

theorem trim_pidText (pid : ℕ) : trim (pidText pid) = Nat.toDigits 10 pid := by
  have hdigits : ∀ c ∈ Nat.toDigits 10 pid, isWhitespace c = false := fun c hc =>
    isWhitespace_digit (Nat.isDigit_of_mem_toDigits (by decide) (by decide) hc)
  have hnewline : ∀ c ∈ ['\n'], isWhitespace c = true := by
    intro c hc
    rw [List.mem_singleton.mp hc]
    decide
  exact Words.strip_append_of_all Nat.toDigits_ne_nil hdigits hnewline

theorem parseU32_toDigits {n : ℕ} (h : n < 2 ^ 32) : parseU32 (Nat.toDigits 10 n) = some n := by
  have hdigits : (Nat.toDigits 10 n).all Char.isDigit = true :=
    List.all_eq_true.mpr fun c hc => Nat.isDigit_of_mem_toDigits (by decide) (by decide) hc
  have hplus : dropPlus (Nat.toDigits 10 n) = Nat.toDigits 10 n := by
    unfold dropPlus
    split
    · rename_i rest hrest
      rw [hrest] at hdigits
      simp at hdigits
    · rfl
  rw [parseU32, hplus, if_pos ⟨Nat.toDigits_ne_nil, hdigits⟩, Nat.ofDigitChars_toDigits (by decide) (by decide)]
  exact if_pos h

theorem readPidFile_pidText {pid : ℕ} (h : pid < 2 ^ 32) (writer : Option ℕ) :
    readPidFile ⟨some (pidText pid), writer⟩ = some pid := by
  rw [readPidFile, Option.bind_some, trim_pidText, parseU32_toDigits h]

def Actor.pid? : Actor → Option ℕ
  | .daemon pid | .program pid => some pid
  | _ => none

structure Unreused (host : Host) (pidFile : Option PidFile) (actors : List Actor) : Prop where
  positive : ∀ (i pid : ℕ), actors[i]? = some (.daemon pid) → 0 < pid ∧ pid < 2 ^ 31
  once : ∀ (i j : ℕ) (a b : Actor) (pid : ℕ), actors[i]? = some a → actors[j]? = some b → pid ∈ a.pid? → pid ∈ b.pid? → i = j
  unborne : ∀ (i : ℕ) (a : Actor), actors[i]? = some a → ∀ pid ∈ a.pid?, ∀ e ∈ host.table, e.1 ≠ pid
  written : ∀ file ∈ pidFile, ∀ n ∈ readPidFile file, (0 < n ∧ n < 2 ^ 31) ∧
    (∀ (i : ℕ) (a : Actor), actors[i]? = some a → n ∉ a.pid?) ∧ ∀ e ∈ host.table, e.1 = n → file.writer = some e.2

section Unreused
variable {host : Host} {pidFile : Option PidFile} {group : ℕ → ℕ} {foreign : List ℕ} {actors : List Actor}

def ownPid (actors : List Actor) (me : ℕ) (c : SysCall) : Prop :=
  (∀ pid, c.call = .fork pid → ∃ a, actors[me]? = some a ∧ pid ∈ a.pid?) ∧
    ∀ pid, c.call = .writePidFile pid → actors[me]? = some (.daemon pid)

theorem ownPid_anonymous {me : ℕ} {c : SysCall} (hc : c.call.anonymous = true) : ownPid actors me c := by
  constructor <;> intro pid hcall <;> rw [hcall] at hc <;> cases hc

theorem ownPid_sys {ε : Type} {me : ℕ} {c : Call} (hc : c.anonymous = true) :
    (sys me c : Proc ε c.Answer).Only (ownPid actors me) :=
  only_call (ownPid_anonymous hc)

theorem recover_ownPid (me : ℕ) : (recoverBrokenDaemon me).Only (ownPid actors me) := by
  have hremove : (removeFiles me).Only (ownPid actors me) :=
    only_bind (ownPid_sys rfl) fun _ => only_bind (ownPid_sys rfl) fun _ => trivial
  refine only_bind (ownPid_sys rfl) fun answered => ?_
  cases answered with
  | true => trivial
  | false =>
    refine only_bind (ownPid_sys rfl) fun recorded => ?_
    match recorded with
    | none => exact only_bind (ownPid_sys rfl) fun _ => trivial
    | some none => trivial
    | some (some n) =>
      refine only_bind (ownPid_sys rfl) fun alive => ?_
      cases alive with
      | false => exact hremove
      | true => exact only_bind ((stopProcess_onNumber me n).imp fun _ hc => ownPid_anonymous hc.2.2.1) fun _ => hremove

theorem serve_ownPid {me pid : ℕ} (hme : actors[me]? = some (.daemon pid)) : (serve me pid).Only (ownPid actors me) := by
  refine (serve_serving me pid).imp fun c hc => ?_
  rcases hc.2 with hanonymous | hwrite
  · exact ownPid_anonymous hanonymous
  · constructor <;> intro pid' hcall <;> rw [hwrite] at hcall <;> cases hcall
    exact hme

theorem actor_ownPid {me : ℕ} {a : Actor} (ha : actors[me]? = some a) : (a.run me).Only (ownPid actors me) := by
  have hfork : ∀ pid ∈ a.pid?, ownPid actors me ⟨me, .fork pid⟩ := by
    refine fun pid hpid => ⟨fun pid' hcall => ?_, fun pid' hcall => by cases hcall⟩
    cases hcall
    exact ⟨a, ha, hpid⟩
  cases a with
  | daemon pid =>
    refine only_bind (only_call (hfork pid rfl)) fun forked => ?_
    cases forked with
    | false => trivial
    | true => exact only_bind (only_attempt (serve_ownPid ha)) fun _ => ownPid_sys rfl
  | recovery => exact only_bind (only_attempt (recover_ownPid me)) fun _ => trivial
  | program pid => exact only_bind (only_call (hfork pid rfl)) fun _ => trivial
  | dies p => exact ownPid_sys rfl
  | reaped p => exact ownPid_sys rfl
  | passes ms => exact ownPid_sys rfl

structure Numbered (host : Host) (pidFile : Option PidFile) (actors : List Actor) (k : Kernel) : Prop where
  table : ∀ e ∈ k.host.table, e ∈ host.table ∨ ∃ a, actors[e.2]? = some a ∧ e.1 ∈ a.pid?
  files : ∀ file, k.pidFile = some file ∨ (∃ i, (i, some file) ∈ k.copies) → ∀ n ∈ readPidFile file,
    pidFile = some file ∨ ∃ j, file.writer = some j ∧ actors[j]? = some (.daemon n)

theorem Numbered.names (h : Unreused host pidFile actors) {k : Kernel} (hk : Numbered host pidFile actors k) (me : ℕ)
    {file : PidFile} (hfile : ∃ i, (i, some file) ∈ k.copies) : k.Names me file := by
  intro n hn e he _ _
  have hwriter : (0 < n ∧ n < 2 ^ 31) ∧ (e.1 = n → file.writer = some e.2) := by
    rcases hk.files file (.inr hfile) n hn with hbefore | ⟨j, hj, hdaemon⟩
    · obtain ⟨hrange, hnew, hold⟩ := h.written file hbefore n hn
      refine ⟨hrange, fun hen => ?_⟩
      rcases hk.table e he with hmem | ⟨a, ha, hpid⟩
      · exact hold e hmem hen
      · exact absurd (hen ▸ hpid) (hnew e.2 a ha)
    · refine ⟨h.positive j n hdaemon, fun hen => ?_⟩
      rcases hk.table e he with hmem | ⟨a, ha, hpid⟩
      · exact absurd hen (h.unborne j _ hdaemon n rfl e hmem)
      · rw [hj, h.once j e.2 _ a n hdaemon ha rfl (hen ▸ hpid)]
  have hzero : n ≠ 0 := by omega
  rw [if_neg hzero, if_pos hwriter.1.2]
  exact hwriter.2

theorem table_ends (host : Host) (ended : List (ℕ × ℕ)) : (ended.foldl (fun host e => host.ends e.2) host).table =
    host.table := by
  induction ended generalizing host with
  | nil => rfl
  | cons e ended ih => exact ih (host.ends e.2)

/-- Who is in the table after a step was there or has started itself. -/
theorem table_exec (c : SysCall) (k : Kernel) :
    ∀ e ∈ (Kernel.exec c k).2.host.table, e ∈ k.host.table ∨ c.call = .fork e.1 ∧ e.2 = c.process := by
  intro e he
  by_cases hended : c.process ∈ k.host.ended
  · rw [Kernel.exec, if_pos hended] at he
    exact .inl he
  rw [Kernel.exec, if_neg hended] at he
  obtain ⟨me, call⟩ := c
  cases call with
  | fork pid =>
    by_cases hborne : pid ∈ k.host.table.map Prod.fst
    · have hrefused : (k.perform me (.fork pid)).2.host.table = k.host.table := by
        simp [Kernel.perform, Host.perform, Kernel.view, hborne]
      exact .inl (hrefused ▸ he)
    · have hforked : (k.perform me (.fork pid)).2.host.table = (pid, me) :: k.host.table := by
        simp [Kernel.perform, Host.perform, Kernel.view, hborne]
      rcases List.mem_cons.mp (hforked ▸ he) with rfl | he
      · exact .inr ⟨rfl, rfl⟩
      · exact .inl he
  | reaped p =>
    by_cases hp : p ∈ k.host.ended
    · have hreaped : (k.perform me (.reaped p)).2.host.table = k.host.table.filter (·.2 ≠ p) := by
        simp [Kernel.perform, Host.perform, Kernel.view, hp]
      exact .inl (List.mem_of_mem_filter (hreaped ▸ he))
    · have hleft : (k.perform me (.reaped p)).2.host.table = k.host.table := by
        simp [Kernel.perform, Host.perform, Kernel.view, hp]
      exact .inl (hleft ▸ he)
  | bind =>
    have hbound : (k.perform me .bind).2.host.table = k.host.table := by
      cases hsocket : k.host.socketFile <;> simp [Kernel.perform, Host.perform, Kernel.view, hsocket]
    exact .inl (hbound ▸ he)
  | killProcess n => exact .inl (table_ends k.host _ ▸ he)
  | _ => exact .inl he

/-- A PID file after a step was there or is what the caller has written. -/
theorem files_exec (c : SysCall) (k : Kernel) (file : PidFile)
    (hfile : (Kernel.exec c k).2.pidFile = some file ∨ ∃ i, (i, some file) ∈ (Kernel.exec c k).2.copies) :
    (k.pidFile = some file ∨ ∃ i, (i, some file) ∈ k.copies) ∨ file = ⟨some [], some c.process⟩ ∨
      ∃ pid, c.call = .writePidFile pid ∧ file = ⟨some (pidText pid), some c.process⟩ := by
  by_cases hended : c.process ∈ k.host.ended
  · rw [Kernel.exec, if_pos hended] at hfile
    exact .inl hfile
  rw [Kernel.exec, if_neg hended] at hfile
  obtain ⟨me, call⟩ := c
  cases call with
  | createPidFile =>
    rcases hfile with hfile | hcopy
    · cases hfile
      exact .inr (.inl rfl)
    · exact .inl (.inr hcopy)
  | writePidFile pid =>
    rcases hfile with hfile | hcopy
    · cases hfile
      exact .inr (.inr ⟨pid, rfl, rfl⟩)
    · exact .inl (.inr hcopy)
  | readPidFile =>
    left
    rcases hfile with hfile | ⟨i, hmem⟩
    · exact .inl hfile
    · rcases List.mem_cons.mp hmem with heq | hmem
      · exact .inl (Prod.mk.inj heq).2.symm
      · exact .inr ⟨i, hmem⟩
  | removePidFile =>
    rcases hfile with hfile | hcopy
    · cases hfile
    · exact .inl (.inr hcopy)
  | _ => exact .inl hfile

theorem Numbered.exec {k : Kernel} (hk : Numbered host pidFile actors k) {c : SysCall} (hc : ownPid actors c.process c)
    (h : Unreused host pidFile actors) : Numbered host pidFile actors (Kernel.exec c k).2 where
  table e he := by
    rcases table_exec c k e he with hmem | ⟨hfork, hme⟩
    · exact hk.table e hmem
    · rw [hme]
      exact .inr (hc.1 e.1 hfork)
  files file hfile n hn := by
    rcases files_exec c k file hfile with hold | rfl | ⟨pid, hwrite, rfl⟩
    · exact hk.files file hold n hn
    · cases hn
    · have hdaemon := hc.2 pid hwrite
      have hpid : pid < 2 ^ 32 := by have := (h.positive _ pid hdaemon).2; omega
      rw [readPidFile_pidText hpid] at hn
      cases hn
      exact .inr ⟨c.process, rfl, hdaemon⟩

/-- While no number is given out twice, every recovery may signal whom it finds. -/
theorem unreused_named (h : Unreused host pidFile actors) (schedule : List ℕ) :
    (onMachine host pidFile group foreign actors).Meets Kernel.exec Named schedule := by
  let J (p : Machine) : Prop := Tracked p ∧ p.Obeys (fun me _ => ownPid actors me) ∧ Numbered host pidFile actors p.state
  have hJ : ∀ p i t c, J p → p.next? i = some (t, c) → J (p.turn Kernel.exec i) := by
    rintro p i t c ⟨htracked, hown, hnumbered⟩ hn
    refine ⟨htracked.turn hn, hown.turn i, ?_⟩
    obtain ⟨k, -, hturn⟩ := turn_some (x := Kernel.exec) hn
    rw [hturn]
    exact hnumbered.exec ((htracked.obeys.allowed hn).1 ▸ hown.allowed hn) h
  have hnamed : ∀ p i t c, J p → p.next? i = some (t, c) → Named p i t c := by
    rintro p i t c ⟨-, -, hnumbered⟩ - - - file hfile
    obtain ⟨⟨j, copy⟩, hfind, rfl⟩ := Option.bind_eq_some_iff.mp (Option.mem_def.mp hfile)
    exact hnumbered.names h _ ⟨j, List.mem_of_find?_eq_some hfind⟩
  have hstart : J (onMachine host pidFile group foreign actors) := by
    refine ⟨.start host pidFile group foreign actors, Obeys.start fun tp htp => ?_, fun e he => .inl he,
        fun file hfile n _ => .inl ?_⟩
    · obtain ⟨me, hme, rfl⟩ := List.mem_mapIdx.mp htp
      exact (Only.issues (fun _ _ hc => hc) (actor_ownPid (List.getElem?_eq_getElem hme)) []).imp fun _ _ _ => trivial
    · rcases hfile with hfile | ⟨i, hmem⟩
      · exact hfile
      · cases hmem
  exact meets_of_invariant hJ hnamed hstart schedule

end Unreused

/-! ## The same over the processes of `Serve` -/

def Call.target? : Call → Option ℕ
  | .writePidFile pid | .processIsAlive pid | .terminateProcess pid | .killProcess pid => some pid
  | _ => none

structure Kernel.Plain (k : Kernel) : Prop where
  unique : (k.host.table.map Prod.fst).Nodup
  permitted : k.foreign = []

theorem filter_unique {table : List (ℕ × ℕ)} (h : (table.map Prod.fst).Nodup) (n : ℕ) :
    table.filter (·.1 == n) = (table.find? (·.1 == n)).toList := by
  induction table with
  | nil => rfl
  | cons e table ih =>
    obtain ⟨hfresh, hrest⟩ := List.nodup_cons.mp h
    by_cases he : e.1 = n
    · have hnil : table.filter (·.1 == n) = [] := by
        refine List.filter_eq_nil_iff.mpr fun e' he' hn => hfresh ?_
        rw [he, ← beq_iff_eq.mp hn]
        exact List.mem_map_of_mem he'
      simp [he, hnil]
    · have hne : (e.1 == n) = false := beq_eq_false_iff_ne.mpr he
      rw [List.filter_cons_of_neg (by simp [hne]), List.find?_cons_of_neg (by simp [hne]), ih hrest]

theorem isSome_find_eq {table : List (ℕ × ℕ)} (n : ℕ) :
    (!(table.find? (·.1 == n)).toList.isEmpty) = decide (n ∈ table.map Prod.fst) := by
  cases hfind : table.find? (·.1 == n) with
  | none =>
    have hnone := List.find?_eq_none.mp hfind
    simp only [Option.toList_none, List.isEmpty_nil, Bool.not_true, eq_comm (a := false), decide_eq_false_iff_not, List.mem_map]
    rintro ⟨e, he, rfl⟩
    exact hnone e he (by simp)
  | some e =>
    have hn : e.1 = n := by simpa using List.find?_some hfind
    simp only [Option.toList_some, List.isEmpty_cons, Bool.not_false, eq_comm (a := true), decide_eq_true_iff]
    exact hn ▸ List.mem_map_of_mem (List.mem_of_find?_eq_some hfind)

theorem addressed_plain {k : Kernel} (hk : k.Plain) {me n : ℕ} (hn : 0 < n ∧ n < 2 ^ 31) :
    k.addressed me (asI32 n) = (k.host.table.find? (·.1 == n)).toList := by
  rw [← filter_unique hk.unique, Kernel.addressed]
  refine List.filter_congr fun e _ => ?_
  have hpos : 0 < (n : ℤ) := by omega
  rw [hk.permitted, Kernel.stands, asI32_of_lt hn.2, if_pos hpos]
  simp

theorem exec_view {k : Kernel} (hk : k.Plain) {c : SysCall} (hc : ∀ n ∈ c.call.target?, 0 < n ∧ n < 2 ^ 31) :
    (Kernel.exec c k).1 = (exec c k.view).1 ∧ (Kernel.exec c k).2.view = (exec c k.view).2 := by
  by_cases hended : c.process ∈ k.host.ended
  · have hleft : Kernel.exec c k = (c.call.refused, k) := if_pos hended
    have hright : exec c k.view = (c.call.refused, k.view) := if_pos hended
    rw [hleft, hright]
    exact ⟨rfl, rfl⟩
  have hleft : Kernel.exec c k = k.perform c.process c.call := if_neg hended
  have hright : exec c k.view = k.view.perform c.process c.call := if_neg hended
  rw [hleft, hright]
  obtain ⟨me, call⟩ := c
  -- a positive number addresses one process, in the kernel as in the simple host
  have haddressed : ∀ n, 0 < n ∧ n < 2 ^ 31 →
      (!(k.addressed me (asI32 n)).isEmpty) = decide (n ∈ k.view.table.map Prod.fst) := by
    intro n hn
    rw [addressed_plain hk hn]
    exact isSome_find_eq n
  cases call with
  | writePidFile pid =>
    have hpid : pid < 2 ^ 32 := by have := (hc pid rfl).2; omega
    have hread : some (readPidFile ⟨some (pidText pid), some me⟩) = some (some pid) := by rw [readPidFile_pidText hpid]
    exact ⟨rfl, congrArg (fun file => { k.host with pidFile := file }) hread⟩
  | processIsAlive n => exact ⟨haddressed n (hc n rfl), rfl⟩
  | terminateProcess n => exact ⟨haddressed n (hc n rfl), rfl⟩
  | killProcess n =>
    have hn := hc n rfl
    have htable : k.view.table = k.host.table := rfl
    simp only [Kernel.perform, Host.perform, addressed_plain hk hn, htable]
    cases k.host.table.find? (·.1 == n) with
    | none => exact ⟨rfl, rfl⟩
    | some e => exact ⟨rfl, rfl⟩
  | removePidFile => exact ⟨by simp [Kernel.perform, Host.perform, Kernel.view], rfl⟩
  | bind =>
    have hsocket : k.view.socketFile = k.host.socketFile := rfl
    simp only [Kernel.perform, Host.perform, hsocket]
    cases k.host.socketFile with
    | none => exact ⟨trivial, rfl⟩
    | some socket => exact ⟨trivial, rfl⟩
  | fork pid =>
    have htable : k.view.table = k.host.table := rfl
    simp only [Kernel.perform, Host.perform, htable]
    split <;> exact ⟨trivial, rfl⟩
  | reaped p =>
    have hended : k.view.ended = k.host.ended := rfl
    simp only [Kernel.perform, Host.perform, hended]
    split <;> exact ⟨trivial, rfl⟩
  | _ => exact ⟨rfl, rfl⟩

/-! ## A file that holds a zero -/

def shellHost : Host := ⟨some 0, none, 1, [], [(700, 0), (699, 1)], [], 0⟩

theorem zero_reaches_group : ¬ ∀ (host : Host) (pidFile : Option PidFile) (group : ℕ → ℕ) (foreign : List ℕ)
    (actors : List Actor) (schedule : List ℕ),
    ∀ d ∈ ((onMachine host pidFile group foreign actors).play Kernel.exec schedule).state.delivered, d.ToWriter := by
  intro h
  have hrun : ((onMachine shellHost (some ⟨some ['0', '\n'], none⟩) (fun _ => 699) [] [.recovery]).play Kernel.exec
      [0, 0, 0, 0]).state.delivered =
        [⟨.term, 0, 0, some ⟨some ['0', '\n'], none⟩⟩, ⟨.term, 0, 1, some ⟨some ['0', '\n'], none⟩⟩] := by
    decide +kernel
  have hzero := h shellHost (some ⟨some ['0', '\n'], none⟩) (fun _ => 699) [] [.recovery] [0, 0, 0, 0] _
      (hrun ▸ List.mem_cons_self)
  exact absurd hzero.1 (by decide)

end CognitiveMemory.Runtime
