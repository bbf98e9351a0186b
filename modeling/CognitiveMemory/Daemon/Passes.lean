import CognitiveMemory.Daemon.Writes

/-! Properties of programs that sequences inherit from their parts, carried through the passes of a
tick: only what compresses one cluster is left to show. -/

namespace Prog
variable {C : Type} {R : C → Type}

structure Closed (P : ∀ {ε α : Type}, Prog C R ε α → Prop) : Prop where
  pure : ∀ {ε α : Type} (a : α), P (Pure.pure a : Prog C R ε α)
  fail : ∀ {ε α : Type} (e : ε), P (Prog.fail e : Prog C R ε α)
  seq : ∀ {ε α β : Type} {p : Prog C R ε α} {f : α → Prog C R ε β}, P p → (∀ a, P (f a)) → P (p >>= f)
  mapError : ∀ {ε ε' α : Type} {f : ε → ε'} {p : Prog C R ε α}, P p → P (p.mapError f)

variable {P : ∀ {ε α : Type}, Prog C R ε α → Prop}

theorem Closed.ofExcept (h : Closed P) {ε α : Type} (r : Except ε α) : P (Prog.ofExcept r : Prog C R ε α) := by
  cases r with
  | ok a => exact h.pure a
  | error e => exact h.fail e

theorem Closed.outcome (h : Closed P) {c : C} {ε α : Type} {f : R c → Except ε α}
    (hc : P (Prog.call c : Prog C R ε (R c))) : P (Prog.cmd c fun r => Prog.ofExcept (f r) : Prog C R ε α) :=
  h.seq (f := fun r => Prog.ofExcept (f r)) hc fun r => h.ofExcept (f r)

theorem only_closed (Q : C → Prop) : Closed (C := C) (R := R) fun p => p.Only Q where
  pure _ := trivial
  fail _ := trivial
  seq := only_bind
  mapError := only_mapError

end Prog

namespace CognitiveMemory
open Prog
variable {F : Type}
  {P : ∀ {ε α : Type}, Prog (Cmd F) Cmd.Res ε α → Prop}

def Cmd.sweeps : Cmd F → Prop
  | .clock | .order _ | .query _ | .write (.tickFloor ..) | .write (.tickExpire _) | .resolveConflicts .. => True
  | _ => False

variable [Field F] [LinearOrder F] [Elementary F]

theorem closed_consolidateCategory (hP : Closed P) {app : AppState F} {user : String} {now : Int}
    (hcompress : ∀ group, P (compressCluster app user group now)) (mems : List (MemoryRow F)) (used : List String) (created : ℕ) :
    P (consolidateCategory app user now mems used created) := by
  induction mems generalizing used created with
  | nil => exact hP.pure created
  | cons head rest ih =>
    rw [consolidateCategory]
    split
    · exact hP.pure created
    split
    · exact ih _ _
    dsimp only
    split
    · exact hP.seq (hcompress _) fun _ => ih _ _
    · exact ih _ _

theorem closed_consolidateCategories (hP : Closed P) {app : AppState F} {user : String} {now : Int}
    (hcompress : ∀ group, P (compressCluster app user group now)) (fading : List (MemoryRow F)) (categories : List String)
    (created : ℕ) : P (consolidateCategories app user now fading categories created) := by
  induction categories generalizing created with
  | nil => exact hP.pure created
  | cons category categories ih =>
    refine hP.seq ?_ fun created' => ih created'
    unfold consolidateMembers
    split
    · exact hP.pure created
    · exact closed_consolidateCategory hP hcompress _ _ _

def Cmd.gathers : Cmd F → Prop
  | .order _ | .query _ => True
  | _ => False

omit [Field F] [LinearOrder F] [Elementary F] in
theorem Cmd.gathers.sweeps {c : Cmd F} (h : c.gathers) : c.sweeps := by
  cases c with
  | order | query => trivial
  | _ => exact h.elim

theorem closed_consolidateUsers (hP : Closed P) {app : AppState F} {now : Int}
    (hcall : ∀ {ε : Type} (c : Cmd F), c.gathers → P (Prog.call c : Prog (Cmd F) Cmd.Res ε c.Res))
    (hcompress : ∀ user group, P (compressCluster app user group now)) (users : List String) (created : ℕ) :
    P (consolidateUsers app now users created) := by
  induction users generalizing created with
  | nil => exact hP.pure created
  | cons user users ih =>
    rw [consolidateUsers]
    split
    · exact hP.pure created
    · refine hP.seq (hP.mapError (hP.outcome (hcall (.query (.hotEmbedded user)) trivial))) fun rows => ?_
      refine hP.seq (hcall (.order _) trivial) fun categories => ?_
      exact hP.seq (closed_consolidateCategories hP (hcompress user) _ _ _) fun created' => ih created'

theorem closed_consolidateAtTick (hP : Closed P) {app : AppState F} {now : Int}
    (hcall : ∀ {ε : Type} (c : Cmd F), c.gathers → P (Prog.call c : Prog (Cmd F) Cmd.Res ε c.Res))
    (hcompress : ∀ user group, P (compressCluster app user group now)) : P (consolidateAtTick app now) := by
  unfold consolidateAtTick
  split
  · exact hP.pure 0
  · refine hP.seq (hP.mapError (hP.outcome (hcall (.query .hotUsers) trivial))) fun users => ?_
    exact closed_consolidateUsers hP hcall hcompress users 0

/-- A tick inherits what its statements and the compression of a cluster have. -/
theorem closed_tick (hP : Closed P) {app : AppState F}
    (hcall : ∀ {ε : Type} (c : Cmd F), c.sweeps → P (Prog.call c : Prog (Cmd F) Cmd.Res ε c.Res))
    (hcompress : ∀ user group now, P (compressCluster app user group now)) : P (handleTick app) := by
  have hquery : ∀ q : Query F, P (sqlx (query q)) := fun q => hP.mapError (hP.outcome (hcall (.query q) trivial))
  refine hP.seq (hcall .clock trivial) fun now => hP.seq (hquery .hotRows) fun hot => ?_
  refine hP.seq (hP.mapError (hP.outcome (hcall (.write (.tickFloor _ now)) trivial))) fun _ =>
    hP.seq (hquery (.staleCold _)) fun stale => ?_
  refine hP.seq (hP.mapError (hP.outcome (hcall (.write (.tickExpire stale)) trivial))) fun _ =>
    hP.seq ?_ fun _ => hP.seq ?_ fun _ => hP.pure _
  · refine hP.seq (hquery (.conflictPairs 50)) fun pairs => ?_
    split
    · exact hP.pure 0
    · exact hP.mapError (hP.outcome (hcall (.resolveConflicts app.llm pairs) trivial))
  · exact closed_consolidateAtTick hP (fun c hc => hcall c hc.sweeps) fun user group => hcompress user group now

end CognitiveMemory
