import CognitiveMemory.Lib.Schedule

/-! What daemons and CLIs share on one machine besides the database: the socket path, the PID
file and the process table; `Daemon::serve` and the CLI's `recover_broken_daemon` over them. -/

namespace CognitiveMemory.Runtime

/-- One atomic step of a process. The last two are the kernel's: the end of a process (a crash, an
error exit, a signal that reaches it) and the removal of what is left of it from the table. -/
inductive Call
  | fork (pid : ℕ)
  | socketExists
  | connect
  | removeSocket
  | bind
  | secureSocket
  | createPidFile
  | writePidFile (pid : ℕ)
  | readPidFile
  | removePidFile
  | dropListener
  | exit
  | processIsAlive (pid : ℕ)
  | terminateProcess (pid : ℕ)
  | killProcess (pid : ℕ)
  | now
  | sleep (ms : ℕ)
  | dies (process : ℕ)
  | reaped (process : ℕ)
  deriving DecidableEq

@[reducible] def Call.Answer : Call → Type
  | .bind => Option ℕ
  | .readPidFile => Option (Option ℕ)
  | .now => ℕ
  | .createPidFile | .writePidFile _ | .dropListener | .exit | .sleep _ | .dies _ | .reaped _ => Unit
  | _ => Bool

structure SysCall where
  process : ℕ
  call : Call
  deriving DecidableEq

@[reducible] def SysCall.Answer (c : SysCall) : Type := c.call.Answer

/-- Sockets are numbered as they are bound: the file at the path leads to one of them, whoever
bound it, and outlives it. A PID file may hold no number. -/
structure Host where
  socketFile : Option ℕ
  pidFile : Option (Option ℕ)
  bound : ℕ
  /-- The open listeners: process and socket. -/
  listening : List (ℕ × ℕ)
  /-- The process table: PID and process, with the processes that ended and were not yet reaped. -/
  table : List (ℕ × ℕ)
  ended : List ℕ
  clock : ℕ
  deriving DecidableEq

/-- Somebody still listens on this socket. -/
def Host.Listens (s : Host) (socket : ℕ) : Prop := ∃ e ∈ s.listening, e.2 = socket

instance (s : Host) (socket : ℕ) :
    Decidable (s.Listens socket) := inferInstanceAs (Decidable (∃ e ∈ s.listening, e.2 = socket))

/-- The kernel closes what a process that ends held open. -/
def Host.ends (p : ℕ) (s : Host) : Host :=
  { s with ended := p :: s.ended, listening := s.listening.filter (·.1 ≠ p) }

def Host.unlink (s : Host) : Host := { s with socketFile := none }

def Host.perform (me : ℕ) : (c : Call) → Host → c.Answer × Host
  | .fork pid, s =>
    if pid ∈ s.table.map Prod.fst then (false, s) else (true, { s with table := (pid, me) :: s.table })
  | .socketExists, s => (s.socketFile.isSome, s)
  | .connect, s => (s.socketFile.any fun socket => decide (s.Listens socket), s)
  | .removeSocket, s => (s.socketFile.isSome, s.unlink)
  | .bind, s =>
    match s.socketFile with
    | some _ => (none, s)
    | none => (some s.bound, { s with socketFile := some s.bound, bound := s.bound + 1, listening := (me, s.bound) :: s.listening })
  | .secureSocket, s => (s.socketFile.isSome, s)
  | .createPidFile, s => ((), { s with pidFile := some none })
  | .writePidFile pid, s => ((), { s with pidFile := some (some pid) })
  | .readPidFile, s => (s.pidFile, s)
  | .removePidFile, s => (s.pidFile.isSome, { s with pidFile := none })
  | .dropListener, s => ((), { s with listening := s.listening.filter (·.1 ≠ me) })
  | .exit, s => ((), s.ends me)
  | .processIsAlive pid, s => (decide (pid ∈ s.table.map Prod.fst), s)
  -- the daemon has no handler for SIGTERM and ends when it arrives, another program may not
  | .terminateProcess pid, s => (decide (pid ∈ s.table.map Prod.fst), s)
  | .killProcess pid, s =>
    match s.table.find? (·.1 == pid) with
    | none => (false, s)
    | some e => (true, s.ends e.2)
  | .now, s => (s.clock, s)
  | .sleep ms, s => ((), { s with clock := s.clock + ms })
  | .dies p, s => ((), s.ends p)
  | .reaped p, s => ((), if p ∈ s.ended then { s with table := s.table.filter (·.2 ≠ p) } else s)

/-- What a process that runs no more would be answered. -/
def Call.refused : (c : Call) → c.Answer
  | .bind => none
  | .readPidFile => none
  | .now => 0
  | .createPidFile | .writePidFile _ | .dropListener | .exit | .sleep _ | .dies _ | .reaped _ => ()
  | .fork _ | .socketExists | .connect | .removeSocket | .secureSocket | .removePidFile | .processIsAlive _
  | .terminateProcess _ | .killProcess _ => false

def exec : Prog.Exec SysCall SysCall.Answer Host := fun c s =>
  if c.process ∈ s.ended then (c.call.refused, s) else s.perform c.process c.call

/-! ## The daemon -/

inductive DaemonError
  | alreadyRunning
  | bind
  | io
  deriving DecidableEq

abbrev Proc (ε α : Type) := Prog SysCall SysCall.Answer ε α

def sys {ε : Type} (me : ℕ) (c : Call) : Proc ε c.Answer := Prog.call (⟨me, c⟩ : SysCall)

/-- The beginning of `serve`. -/
def clearStaleSocket (me : ℕ) : Proc DaemonError Unit := do
  let there ← sys me .socketExists
  if there then do
    let answered ← sys me .connect
    if answered then .fail .alreadyRunning else do
      let removed ← sys me .removeSocket
      if removed then pure () else .fail .io
  else pure ()

/-- Between the PID file and `dropListener` stands the accept loop, which a Shutdown request or
Ctrl-C ends at any time; between `dropListener` and the removals the drain of the connections. -/
def serve (me pid : ℕ) : Proc DaemonError Unit := do
  clearStaleSocket me
  let listener ← sys me .bind
  match listener with
  | none => .fail .bind
  | some _ => do
    let secured ← sys me .secureSocket
    if secured then do
      sys me .createPidFile
      sys me (.writePidFile pid)
      sys me .dropListener
      let _ ← sys me .removeSocket
      let _ ← sys me .removePidFile
      pure ()
    else .fail .io

def spawnDaemon (me pid : ℕ) : Proc Empty Unit := do
  let forked ← sys me (.fork pid)
  if forked then do
    let _ ← (serve me pid).attempt
    sys me .exit
  else pure ()

/-! ## The CLI -/

inductive RecoverError
  | parsePidFile
  | signal
  deriving DecidableEq

/-- The loop polls every 50 ms for 2 s, so its sleeps alone end it after forty rounds. Answers
whether the process was seen to be gone. -/
def pollExit (me pid start : ℕ) : ℕ → Proc RecoverError Bool
  | 0 => pure false
  | rounds + 1 => do
    let now ← sys me .now
    if now - start < 2000 then do
      let alive ← sys me (.processIsAlive pid)
      if alive then do
        sys me (.sleep 50)
        pollExit me pid start rounds
      else pure true
    else pure false

def removeFiles (me : ℕ) : Proc RecoverError Unit := do
  let _ ← sys me .removePidFile
  let _ ← sys me .removeSocket
  pure ()

def stopProcess (me pid : ℕ) : Proc RecoverError Unit := do
  let terminated ← sys me (.terminateProcess pid)
  if terminated then do
    let start ← sys me .now
    let gone ← pollExit me pid start 41
    if gone then pure () else do
      let killed ← sys me (.killProcess pid)
      if killed then pure () else .fail .signal
  else .fail .signal

def recoverBrokenDaemon (me : ℕ) : Proc RecoverError Unit := do
  let answered ← sys me .connect
  if answered then pure () else do
    let recorded ← sys me .readPidFile
    match recorded with
    | none => do
      let _ ← sys me .removeSocket
      pure ()
    | some none => .fail .parsePidFile
    | some (some pid) => do
      let alive ← sys me (.processIsAlive pid)
      if alive then do
        stopProcess me pid
        removeFiles me
      else removeFiles me

/-! ## Any number of them -/

/-- Who works on the path. The callers of `recover_broken_daemon` start a daemon after it, which is
one more `daemon` here, and ask a running one to shut down, which moves it on from its accept loop. -/
inductive Actor
  | daemon (pid : ℕ)
  | recovery
  | program (pid : ℕ)
  | dies (process : ℕ)
  | reaped (process : ℕ)
  | passes (ms : ℕ)

def Actor.run (me : ℕ) : Actor → Proc Empty Unit
  | .daemon pid => spawnDaemon me pid
  | .recovery => do
    let _ ← (recoverBrokenDaemon me).attempt
    pure ()
  | .program pid => do
    let _ ← sys me (.fork pid)
    pure ()
  | .dies p => sys me (.dies p)
  | .reaped p => sys me (.reaped p)
  | .passes ms => sys me (.sleep ms)

abbrev Actors := Prog.Pool ℕ SysCall SysCall.Answer Empty Unit Host

def onPath (s : Host) (actors : List Actor) : Actors := .start s (actors.mapIdx fun me a => (me, a.run me))

/-- Nobody listens; the path may hold the file of a socket of the past. -/
def Host.Idle (s : Host) : Prop := s.listening = [] ∧ ∀ socket ∈ s.socketFile, socket < s.bound

end CognitiveMemory.Runtime
