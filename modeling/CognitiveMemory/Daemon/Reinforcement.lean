import CognitiveMemory.Daemon.Serial
import Mathlib.Tactic.NormNum
import Mathlib.Tactic.Positivity

/-! Concurrent Search and Store requests that touch one memory: its stability, its last access
and its retrieval count under every interleaving of their statements, and one request after the other. -/

namespace CognitiveMemory
open Prog
variable {F : Type}

/-! ## Touches -/

structure Reinforced (F : Type) where
  stability : F
  lastAccessedAt : Int
  retrievalCount : Int
  deriving DecidableEq

def MemoryRow.reinforced (r : MemoryRow F) : Reinforced F := ⟨r.stability, r.lastAccessedAt, r.retrievalCount⟩

def Db.reinforced? (db : Db F) (userId id : String) : Option (Reinforced F) :=
  (db.memories.find? (owned userId id)).map MemoryRow.reinforced

/-- What a request does to a memory in one piece: a Search that retrieved it at `now`, a Store
whose text lies in its reinforcement band. -/
inductive Touch
  | retrieve (source : ResultSource) (now : Int)
  | reinforce

section
variable [Field F] [LinearOrder F]

def Touch.apply (cfg : LifecycleConfig F) (r : Reinforced F) : Touch → Reinforced F
  | .retrieve source now =>
    let bump := match source with
      | .graphExpanded => cfg.associativeBoost
      | .direct => cfg.directBoost
    ⟨min (r.stability + bump * spacedRepFactor cfg r.lastAccessedAt now) 1, now, r.retrievalCount + 1⟩
  | .reinforce => { r with stability := min 1 (r.stability + 5 / 100) }

def reinforcements (newId id : String) : List (String × F) → ℕ
  | [] => 0
  | (hitId, sim) :: hits =>
    if hitId = newId then reinforcements newId id hits
    else if 85 / 100 ≤ sim then reinforcements newId id hits
    else if 75 / 100 ≤ sim then (if hitId = id then 1 else 0) + reinforcements newId id hits
    else if 4 / 10 ≤ sim then reinforcements newId id hits
    else 0

/-- The touches an executed command commits. -/
def Touches (id : String) (e : Event (Cmd F) Cmd.Res) (ts : List Touch) : Prop :=
  match e with
  | ⟨_, .write (.applyDirectBoost _ boosts now _), .ok _⟩ =>
    if id ∈ boosts.map Prod.fst then ∃ source, ts = [.retrieve source now] else ts = []
  | ⟨_, .write (.queueConflicts _ newId hits _), .ok _⟩ => ts = List.replicate (reinforcements newId id hits) .reinforce
  | _ => ts = []

def touched (id : String) (e : Event (Cmd F) Cmd.Res) : Bool :=
  match e with
  | ⟨_, .write (.applyDirectBoost _ boosts _ _), .ok _⟩ => decide (id ∈ boosts.map Prod.fst)
  | ⟨_, .write (.queueConflicts _ newId hits _), .ok _⟩ => decide (0 < reinforcements newId id hits)
  | _ => false

end

/-! ## Effects on one memory -/

section
variable {user id : String}

theorem reinforced?_modify (db : Db F) {p : MemoryRow F → Bool} {f : MemoryRow F → MemoryRow F}
    {g : Reinforced F → Reinforced F} (hf : ∀ r, owned user id (f r) = owned user id r)
    (hg : ∀ r, owned user id r → (if p r then f r else r).reinforced = g r.reinforced) :
    (db.modify p f).reinforced? user id = (db.reinforced? user id).map g := by
  have hkey : (owned user id ∘ fun r => if p r then f r else r) = owned user id := by
    funext r
    simp only [Function.comp_apply]
    split
    · exact hf r
    · rfl
  unfold Db.reinforced? Db.modify
  rw [List.find?_map, hkey]
  cases hr : db.memories.find? (owned user id) with
  | none => rfl
  | some r => simp [hg r (List.find?_some hr)]

theorem reinforced?_same (db : Db F) {p : MemoryRow F → Bool} {f : MemoryRow F → MemoryRow F}
    (hf : ∀ r, owned user id (f r) = owned user id r) (hsame : ∀ r, (f r).reinforced = r.reinforced) :
    (db.modify p f).reinforced? user id = db.reinforced? user id := by
  refine (reinforced?_modify (g := fun x => x) db hf fun r _ => ?_).trans Option.map_id'
  split
  · exact hsame r
  · rfl

theorem reinforced?_modifyEach {α : Type} (db : Db F) {p : α → MemoryRow F → Bool} {f : α → MemoryRow F → MemoryRow F}
    (hf : ∀ x r, owned user id (f x r) = owned user id r) (hsame : ∀ x r, (f x r).reinforced = r.reinforced) (xs : List α) :
    (db.modifyEach p f xs).1.reinforced? user id = db.reinforced? user id := by
  rw [modifyEach_fst]
  induction xs generalizing db with
  | nil => rfl
  | cons x xs ih => exact (ih _).trans (reinforced?_same db (hf x) (hsame x))

def boostStep (id : String) (now : Int) (x : Reinforced F) (b : String × F) : Reinforced F :=
  if b.1 = id then ⟨b.2, now, x.retrievalCount + 1⟩ else x

theorem reinforced?_boost (db : Db F) (now : Int) (sessionId : String) (boosts : List (String × F)) :
    (db.modifyEach (fun b => owned user b.1) (fun b => boostRow b.2 now sessionId) boosts).1.reinforced? user id =
      (db.reinforced? user id).map fun x => boosts.foldl (boostStep id now) x := by
  rw [modifyEach_fst]
  induction boosts generalizing db with
  | nil => simp
  | cons b boosts ih =>
    have hone : (db.modify (owned user b.1) (boostRow b.2 now sessionId)).reinforced? user id =
        (db.reinforced? user id).map fun x => boostStep id now x b := by
      refine reinforced?_modify db (fun r => rfl) fun r hr => ?_
      simp only [owned, Bool.and_eq_true, beq_iff_eq] at hr ⊢
      obtain ⟨rfl, rfl⟩ := hr
      by_cases hb : b.1 = r.id
      · simp [boostStep, hb, boostRow, MemoryRow.reinforced]
      · simp [boostStep, hb, Ne.symm hb]
    rw [List.foldl_cons, ih, hone, Option.map_map]
    rfl

theorem foldl_boostStep_other {boosts : List (String × F)} {now : Int} (x : Reinforced F) (h : id ∉ boosts.map Prod.fst) :
    boosts.foldl (boostStep id now) x = x := by
  induction boosts with
  | nil => rfl
  | cons b boosts ih =>
    simp only [List.map_cons, List.mem_cons, not_or] at h
    rw [List.foldl_cons, boostStep, if_neg (Ne.symm h.1)]
    exact ih h.2

theorem foldl_boostStep_mem {boosts : List (String × F)} {now : Int} {stability : F} (x : Reinforced F)
    (hnd : (boosts.map Prod.fst).Nodup) (h : (id, stability) ∈ boosts) :
    boosts.foldl (boostStep id now) x = ⟨stability, now, x.retrievalCount + 1⟩ := by
  induction boosts generalizing x with
  | nil => nomatch h
  | cons b boosts ih =>
    obtain ⟨hb, hnd⟩ := List.nodup_cons.mp hnd
    rw [List.foldl_cons]
    rcases List.mem_cons.mp h with rfl | h
    · rw [foldl_boostStep_other _ hb, boostStep, if_pos rfl]
    · have hne : b.1 ≠ id := by
        rintro rfl
        exact hb (List.mem_map.mpr ⟨_, h, rfl⟩)
      rw [ih _ hnd h, boostStep, if_neg hne]

theorem reinforced?_queueConflicts [Field F] [LinearOrder F] (cfg : LifecycleConfig F) {newId : String} {now : Int}
    {hits : List (String × F)} {db db' : Db F} (h : db.queueConflicts user newId now hits = .ok db') :
    db'.reinforced? user id = (db.reinforced? user id).map fun x =>
      (List.replicate (reinforcements newId id hits) .reinforce).foldl (Touch.apply cfg) x := by
  have hmem : ∀ {d d' : Db F}, d'.memories = d.memories → d'.reinforced? user id = d.reinforced? user id := fun hd => by
    unfold Db.reinforced?
    rw [hd]
  induction hits generalizing db with
  | nil =>
    cases h
    simp [reinforcements]
  | cons hit hits ih =>
    obtain ⟨hitId, sim⟩ := hit
    rw [Db.queueConflicts] at h
    rw [reinforcements]
    split at h
    · rw [if_pos ‹_›]
      exact ih h
    rw [if_neg ‹_›]
    split at h
    · rw [if_pos ‹_›]
      obtain ⟨d, hd, h⟩ := bind_ok h
      rw [ih h, hmem (queueConflict_memories hd).1]
    rw [if_neg ‹_›]
    split at h
    · rw [if_pos ‹_›, ih h]
      have hone : (db.modify (owned user hitId) fun r =>
          { r with stability := min 1 (r.stability + 5 / 100) }).reinforced? user id =
          (db.reinforced? user id).map fun x => if hitId = id then Touch.apply cfg x .reinforce else x := by
        refine reinforced?_modify db (fun r => rfl) fun r hr => ?_
        simp only [owned, Bool.and_eq_true, beq_iff_eq] at hr ⊢
        obtain ⟨rfl, rfl⟩ := hr
        by_cases hb : hitId = r.id
        · simp [hb, Touch.apply, MemoryRow.reinforced]
        · simp [hb, Ne.symm hb]
      rw [hone, Option.map_map]
      congr 1
      funext x
      by_cases hb : hitId = id
      · simp only [hb, if_true, Nat.add_comm 1, List.replicate_succ, List.foldl_cons, Function.comp_apply]
      · simp only [hb, if_false, Nat.zero_add, Function.comp_apply]
    rw [if_neg ‹_›]
    split at h
    · rw [if_pos ‹_›]
      obtain ⟨d, hd, h⟩ := bind_ok h
      obtain ⟨d₂, hd₂, h⟩ := bind_ok h
      rw [ih h, hmem (upsertAssociation_memories hd₂).1, hmem (upsertAssociation_memories hd).1]
    · rw [if_neg ‹_›]
      cases h
      simp

end

/-! ## What Search and Store issue -/

def Cmd.gentle : Cmd F → Prop
  | .write (.insertMemory _) | .write (.cacheInsert _) | .write (.promoteToCore ..) | .write (.migrateToHotMany ..)
  | .write (.strengthenPairs ..) => True
  | .write _ | .resolveConflicts .. => False
  | _ => True

theorem Cmd.quiet.gentle {c : Cmd F} (h : c.quiet) : c.gentle := by
  cases c with
  | write w => cases w <;> trivial
  | resolveConflicts => exact h
  | _ => trivial

/-- The clock was read as `now`, and not again since. -/
def ReadSince (now : Int) (h : History (Cmd F) Cmd.Res) : Prop :=
  ∃ more rest, h = more ++ ⟨.clock, now⟩ :: rest ∧ ∀ e ∈ more, e.1 ≠ Cmd.clock

theorem ReadSince.append {now : Int} {h more : History (Cmd F) Cmd.Res} (hr : ReadSince now h)
    (hm : ∀ e ∈ more, e.1 ≠ Cmd.clock) : ReadSince now (more ++ h) := by
  obtain ⟨more', rest, rfl, hm'⟩ := hr
  refine ⟨more ++ more', rest, by simp, fun e he => ?_⟩
  rcases List.mem_append.mp he with he | he
  · exact hm e he
  · exact hm' e he

variable [Field F] [LinearOrder F]

/-- A Search boosts by the rows and the clock reading it has seen, a Store in place; all their
other commands are gentle. -/
def Reinforces (app : AppState F) (user : String) (h : History (Cmd F) Cmd.Res) : Cmd F → Prop
  | .write (.applyDirectBoost u boosts now _) => u = user ∧ ∃ recent ids rows rest retrieved,
      h = recent ++ ⟨.query (.getManyForUser user ids), .ok rows⟩ :: rest ∧ (∀ e ∈ recent, e.1 ≠ Cmd.clock) ∧
      ReadSince now rest ∧ boosts = (rows.filter fun r => !r.isStub).map fun r =>
        (r.id, boostedStability app.lifecycle (sourceOf retrieved r.id) now r)
  | .write (.queueConflicts u ..) => u = user
  | c => c.gentle

theorem Cmd.gentle.reinforces {app : AppState F} {user : String} {h : History (Cmd F) Cmd.Res} {c : Cmd F} (hc : c.gentle) :
    Reinforces app user h c := by
  cases c with
  | write w => cases w <;> trivial
  | _ => exact hc

section
variable {app : AppState F} {user : String}

variable [Elementary F]

end

/-! ## Runs -/

def recent (id : String) (log : List (Event (Cmd F) Cmd.Res)) : List (Event (Cmd F) Cmd.Res) :=
  log.takeWhile fun e => !touched id e

def readsClock (i : ℕ) (e : Event (Cmd F) Cmd.Res) : Bool :=
  match e.command with
  | .clock => e.task == i
  | _ => false

/-- When a Search boosts the memory, nobody has touched it since the Search read the clock. -/
def Undisturbed (id : String) (p : Requests F) (i : ℕ) (_ : Caller F) : Cmd F → Prop
  | .write (.applyDirectBoost _ boosts ..) => id ∈ boosts.map Prod.fst →
      ∀ e ∈ p.log.takeWhile fun e => !readsClock i e, touched id e = false
  | _ => True

instance (id : String) (p : Requests F) (i : ℕ) (t : Caller F) (c : Cmd F) : Decidable (Undisturbed id p i t c) := by
  unfold Undisturbed
  induction c using Cmd.casesOn with
  | write wr => induction wr using Write.casesOn <;> infer_instance
  | _ => infer_instance

theorem mem_recent {id : String} {i : ℕ} {log : List (Event (Cmd F) Cmd.Res)} {h rest : History (Cmd F) Cmd.Res} {now : Int}
    (hseen : Pool.seen log i = h ++ ⟨.clock, now⟩ :: rest) (hclock : ∀ x ∈ h, x.1 ≠ Cmd.clock)
    (hquiet : ∀ e ∈ log.takeWhile fun e => !readsClock i e, touched id e = false) :
    ∀ x ∈ h ++ [⟨.clock, now⟩], ∃ e ∈ recent id log, (⟨e.command, e.answer⟩ : (c : Cmd F) × c.Res) = x := by
  induction log generalizing h with
  | nil => simp [Pool.seen] at hseen
  | cons e log ih =>
    have hkeep : touched id e = false → (∀ x, (∃ e' ∈ recent id log, (⟨e'.command, e'.answer⟩ : (c : Cmd F) × c.Res) = x) →
        ∃ e' ∈ recent id (e :: log), (⟨e'.command, e'.answer⟩ : (c : Cmd F) × c.Res) = x) := by
      rintro he x ⟨e', he', hx⟩
      refine ⟨e', ?_, hx⟩
      simp [recent, he] at he' ⊢
      exact .inr he'
    have hself : touched id e = false → e ∈ recent id (e :: log) := fun he => by simp [recent, he]
    -- the log is read newest first: the Search's own steps are counted off, the others' skipped
    by_cases hi : e.task = i
    · have hcons : Pool.seen (e :: log) i = ⟨e.command, e.answer⟩ :: Pool.seen log i := by simp [Pool.seen, hi]
      rw [hcons] at hseen
      cases h with
      | nil =>
        obtain ⟨heq, -⟩ := List.cons.inj hseen
        have hun : touched id e = false := by
          obtain ⟨task, command, answer⟩ := e
          obtain ⟨rfl, -⟩ := Sigma.mk.inj heq
          rfl
        intro x hx
        rw [List.mem_singleton.mp hx]
        exact ⟨e, hself hun, heq⟩
      | cons y h =>
        obtain ⟨rfl, hrest⟩ := List.cons.inj hseen
        have hnot : readsClock i e = false := by
          unfold readsClock
          split
          · rename_i hc
            exact absurd hc (hclock _ List.mem_cons_self)
          · rfl
        rw [List.takeWhile_cons, hnot] at hquiet
        have hun := hquiet e List.mem_cons_self
        intro x hx
        rcases List.mem_cons.mp hx with rfl | hx
        · exact ⟨e, hself hun, rfl⟩
        · exact hkeep hun x (ih hrest (fun z hz => hclock z (List.mem_cons_of_mem _ hz))
            (fun z hz => hquiet z (List.mem_cons_of_mem _ hz)) x hx)
    · have hskip : Pool.seen (e :: log) i = Pool.seen log i := by simp [Pool.seen, hi]
      have hnot : readsClock i e = false := by
        unfold readsClock
        split
        · simpa using hi
        · rfl
      rw [hskip] at hseen
      rw [List.takeWhile_cons, hnot] at hquiet
      have hun := hquiet e List.mem_cons_self
      exact fun x hx => hkeep hun x (ih hseen hclock (fun z hz => hquiet z (List.mem_cons_of_mem _ hz)) x hx)

/-- Componentwise. -/
structure Reinforced.Le (f f' : Reinforced F) : Prop where
  stability : f.stability ≤ f'.stability
  lastAccessedAt : f.lastAccessedAt ≤ f'.lastAccessedAt
  retrievalCount : f.retrievalCount ≤ f'.retrievalCount

omit [Field F] in
theorem Reinforced.Le.refl (f : Reinforced F) : f.Le f := ⟨le_refl _, le_refl _, le_refl _⟩

omit [Field F] in
theorem Reinforced.Le.trans {f f' f'' : Reinforced F} (h : f.Le f') (h' : f'.Le f'') : f.Le f'' :=
  ⟨h.1.trans h'.1, h.2.trans h'.2, h.3.trans h'.3⟩

/-- `f` are the fields of the memory, and what the tasks have lately seen of it still holds. -/
structure Tracking (app : AppState F) (user id : String) (p : Requests F) (f : Reinforced F) : Prop where
  obeys : p.Obeys fun _ => Reinforces app user
  keyed : p.state.db.Keyed
  clock : Monotone p.state.oracle.clock
  past : ∀ e ∈ p.log, ∀ now, (⟨e.command, e.answer⟩ : (c : Cmd F) × c.Res) = ⟨.clock, now⟩ → now ≤ p.state.oracle.clock 0
  fields : p.state.db.reinforced? user id = some f
  stability : f.stability ≤ 1
  last : f.lastAccessedAt ≤ p.state.oracle.clock 0
  reads : ∀ e ∈ recent id p.log, ∀ ids rows,
    (⟨e.command, e.answer⟩ : (c : Cmd F) × c.Res) = ⟨.query (.getManyForUser user ids), .ok rows⟩ →
      (rows.map MemoryRow.id).Nodup ∧ ∀ r ∈ rows, r.id = id → r.reinforced = f
  clocks : ∀ e ∈ recent id p.log, ∀ now, (⟨e.command, e.answer⟩ : (c : Cmd F) × c.Res) = ⟨.clock, now⟩ →
    f.lastAccessedAt ≤ now

omit [Field F] [LinearOrder F] in
theorem find?_owned {db : Db F} (hk : db.Keyed) {user id : String} {r : MemoryRow F} (hr : r ∈ db.memories)
    (ho : owned user id r) : db.memories.find? (owned user id) = some r := by
  cases hfind : db.memories.find? (owned user id) with
  | none => exact absurd ho (List.find?_eq_none.mp hfind r hr)
  | some r' =>
    have ho' := List.find?_some hfind
    simp only [owned, Bool.and_eq_true, beq_iff_eq] at ho ho'
    rw [hk.eq_of_id (List.mem_of_find?_eq_some hfind) hr (ho'.2.trans ho.2.symm)]

theorem touches_untouched {id : String} {e : Event (Cmd F) Cmd.Res} {ts : List Touch} (hts : Touches id e ts)
    (h : touched id e = false) : ts = [] := by
  unfold Touches at hts
  unfold touched at h
  split at hts
  · rw [if_neg (by simpa using h)] at hts
    exact hts
  · have hzero : reinforcements _ _ _ = 0 := Nat.eq_zero_of_not_pos (by simpa using h)
    rw [hts, hzero]
    rfl
  · exact hts

namespace Tracking
variable {app : AppState F} {user id : String} {f : Reinforced F} {p : Requests F}

theorem step (h : Tracking app user id p f) (bm25 : Bm25 F) {i : ℕ} {t : Caller F} {c : Cmd F} {ts : List Touch}
    (hn : p.next? i = some (t, c)) (hts : Touches id ⟨i, c, (exec bm25 c p.state).1⟩ ts)
    (hfields : (exec bm25 c p.state).2.db.reinforced? user id = some (ts.foldl (Touch.apply app.lifecycle) f))
    (hstab : (ts.foldl (Touch.apply app.lifecycle) f).stability ≤ 1)
    (hlast : (ts.foldl (Touch.apply app.lifecycle) f).lastAccessedAt ≤ p.state.oracle.clock 0) :
    Tracking app user id (p.turn (exec bm25) i) (ts.foldl (Touch.apply app.lifecycle) f) := by
  obtain ⟨k, -, hturn⟩ := Pool.turn_some (x := exec bm25) hn
  obtain ⟨hmono, hclock⟩ := exec_clock bm25 (c := c) h.clock
  have hobeys := h.obeys.turn (x := exec bm25) i
  -- what this step touches makes every earlier read and clock reading stale
  have hrecent : ∀ e ∈ recent id (⟨i, c, (exec bm25 c p.state).1⟩ :: p.log),
      ts = [] ∧ (e = ⟨i, c, (exec bm25 c p.state).1⟩ ∨ e ∈ recent id p.log) := by
    intro e he
    by_cases hun : touched id ⟨i, c, (exec bm25 c p.state).1⟩ = true
    · simp [recent, hun] at he
    · rw [Bool.not_eq_true] at hun
      simp only [recent, List.takeWhile_cons, hun, Bool.not_false, if_true, List.mem_cons] at he
      exact ⟨touches_untouched hts hun, he⟩
  rw [hturn] at hobeys ⊢
  refine ⟨hobeys, keyed_exec bm25 h.keyed, hmono, ?_, hfields, hstab, hlast.trans hclock, ?_, ?_⟩
  · intro e he now heq
    rcases List.mem_cons.mp he with rfl | he
    · obtain ⟨rfl, hans⟩ := Sigma.mk.inj heq
      rw [← eq_of_heq hans]
      exact hclock
    · exact (h.past e he now heq).trans hclock
  · intro e he ids rows heq
    obtain ⟨rfl, he⟩ := hrecent e he
    rcases he with rfl | he
    · obtain ⟨rfl, hans⟩ := Sigma.mk.inj heq
      have hrows : rows = p.state.db.getManyForUser user ids := by
        have hans' := eq_of_heq hans
        simp only [exec] at hans'
        split at hans' <;> cases hans'
        rfl
      subst hrows
      have hperm := List.perm_insertionSort (fun a b : MemoryRow F => ids.idxOf a.id ≤ ids.idxOf b.id)
        (p.state.db.memories.filter fun r => r.userId == user && ids.contains r.id)
      refine ⟨?_, fun r hr hid => ?_⟩
      · exact (hperm.map _).nodup_iff.mpr (h.keyed.sublist (List.Sublist.map _ List.filter_sublist))
      · obtain ⟨hmem, hr⟩ := List.mem_filter.mp (hperm.mem_iff.mp hr)
        have ho : owned user id r := by
          simp only [owned, Bool.and_eq_true, beq_iff_eq] at hr ⊢
          exact ⟨hr.1, hid⟩
        have hf := h.fields
        unfold Db.reinforced? at hf
        rw [find?_owned h.keyed hmem ho] at hf
        exact Option.some.inj hf
    · exact h.reads e he ids rows heq
  · intro e he now heq
    obtain ⟨rfl, he⟩ := hrecent e he
    rcases he with rfl | he
    · obtain ⟨rfl, hans⟩ := Sigma.mk.inj heq
      rw [← eq_of_heq hans]
      exact h.last
    · exact h.clocks e he now heq

end Tracking

variable [IsStrictOrderedRing F]

section
variable {cfg : LifecycleConfig F}

theorem Touch.le_apply (h : cfg.Boosting) {f : Reinforced F} (hs : f.stability ≤ 1) (touch : Touch)
    (hnow : ∀ source now, touch = .retrieve source now → f.lastAccessedAt ≤ now) :
    f.Le (touch.apply cfg f) ∧ (touch.apply cfg f).stability ≤ 1 := by
  cases touch with
  | retrieve source now =>
    have hfactor := spacedRepFactor_nonneg h f.lastAccessedAt now
    have hlast := hnow source now rfl
    have hraise : ∀ bump : F, 0 ≤ bump → f.stability ≤ min (f.stability + bump * spacedRepFactor cfg f.lastAccessedAt now) 1 :=
      fun bump hb => le_min (le_add_of_nonneg_right (mul_nonneg hb hfactor)) hs
    refine ⟨⟨?_, hlast, Int.le_add_one (le_refl _)⟩, min_le_right _ _⟩
    cases source with
    | graphExpanded => exact hraise _ h.associativeBoost
    | direct => exact hraise _ h.directBoost
  | reinforce =>
    have hstep : f.stability ≤ f.stability + 5 / 100 := le_add_of_nonneg_right (by positivity)
    exact ⟨⟨le_min hs hstep, le_refl _, le_refl _⟩, min_le_left _ _⟩

theorem le_reinforce (h : cfg.Boosting) {f : Reinforced F} (hs : f.stability ≤ 1) (n : ℕ) :
    f.Le ((List.replicate n Touch.reinforce).foldl (Touch.apply cfg) f) ∧
      ((List.replicate n Touch.reinforce).foldl (Touch.apply cfg) f).stability ≤ 1 ∧
      ((List.replicate n Touch.reinforce).foldl (Touch.apply cfg) f).lastAccessedAt = f.lastAccessedAt := by
  induction n generalizing f with
  | zero => exact ⟨.refl f, hs, rfl⟩
  | succ n ih =>
    obtain ⟨hle, hs'⟩ := Touch.le_apply h hs .reinforce nofun
    obtain ⟨h1, h2, h3⟩ := ih hs'
    rw [List.replicate_succ, List.foldl_cons]
    exact ⟨hle.trans h1, h2, h3⟩

end

namespace Tracking
variable {app : AppState F} {user id : String} {f : Reinforced F} {p : Requests F}

omit [IsStrictOrderedRing F] in
theorem untouched (h : Tracking app user id p f) (bm25 : Bm25 F) {i : ℕ} {t : Caller F} {c : Cmd F}
    (hn : p.next? i = some (t, c)) (hts : Touches id ⟨i, c, (exec bm25 c p.state).1⟩ [])
    (hsame : (exec bm25 c p.state).2.db.reinforced? user id = p.state.db.reinforced? user id) :
    ∃ f', Tracking app user id (p.turn (exec bm25) i) f' ∧ f.Le f' := by
  have hstep := h.step bm25 hn hts
  exact ⟨f, hstep (hsame.trans h.fields) h.stability h.last, .refl f⟩

/-- A boost from a row and a clock reading that still hold is a touch. -/
theorem boost (h : Tracking app user id p f) (bm25 : Bm25 F) (hcfg : app.lifecycle.Boosting) {i : ℕ} {t : Caller F}
    {boosts : List (String × F)} {now : Int} {sessionId : String}
    (hn : p.next? i = some (t, .write (.applyDirectBoost user boosts now sessionId)))
    (hg : Undisturbed id p i t (.write (.applyDirectBoost user boosts now sessionId)))
    (hfault : p.state.oracle.sqlFault 0 = false) :
    ∃ f', Tracking app user id (p.turn (exec bm25) i) f' ∧ f.Le f' := by
  obtain ⟨-, newer, ids, rows, rest, retrieved, hseen, hnewer, ⟨more, older, rfl, hmore⟩, hboosts⟩ := h.obeys.allowed hn
  let boosted := p.state.db.modifyEach (fun b => owned user b.1) (fun b => boostRow b.2 now sessionId) boosts
  have hexec : exec bm25 (.write (.applyDirectBoost user boosts now sessionId)) p.state =
      (.ok boosted.2, p.state.answer boosted.1) := by
    simp only [exec, hfault, Bool.false_eq_true, if_false, Write.apply]
    rfl
  have hafter : (exec bm25 (.write (.applyDirectBoost user boosts now sessionId)) p.state).2.db.reinforced? user id =
      some (boosts.foldl (boostStep id now) f) := by
    rw [hexec]
    exact (reinforced?_boost p.state.db now sessionId boosts).trans (by rw [h.fields]; rfl)
  -- nobody touched the memory since the clock reading, so the boost is computed from the row as it stands
  by_cases hid : id ∈ boosts.map Prod.fst
  · have hsplit : Pool.seen p.log i =
        (newer ++ ⟨.query (.getManyForUser user ids), .ok rows⟩ :: more) ++ ⟨.clock, now⟩ :: older := by
      rw [hseen]
      simp
    have hnoclock : ∀ x ∈ newer ++ ⟨.query (.getManyForUser user ids), .ok rows⟩ :: more, x.1 ≠ Cmd.clock := by
      intro x hx
      rcases List.mem_append.mp hx with hx | hx
      · exact hnewer x hx
      · rcases List.mem_cons.mp hx with rfl | hx
        · intro hclock
          cases hclock
        · exact hmore x hx
    have hall := mem_recent hsplit hnoclock (hg hid)
    obtain ⟨eread, hread, hreadeq⟩ := hall ⟨.query (.getManyForUser user ids), .ok rows⟩ (by simp)
    obtain ⟨eclock, hclock, hclockeq⟩ := hall ⟨.clock, now⟩ (by simp)
    obtain ⟨hnodup, hrows⟩ := h.reads eread hread ids rows hreadeq
    have hlast := h.clocks eclock hclock now hclockeq
    have hnow := h.past eclock ((List.takeWhile_sublist _).subset hclock) now hclockeq
    obtain ⟨b, hb, rfl⟩ := List.mem_map.mp hid
    have hb' := hb
    rw [hboosts] at hb'
    obtain ⟨r, hr, rfl⟩ := List.mem_map.mp hb'
    have hf := hrows r (List.mem_filter.mp hr).1 rfl
    have hids : (boosts.map Prod.fst).Nodup := by
      rw [hboosts, List.map_map]
      exact hnodup.sublist (List.Sublist.map _ List.filter_sublist)
    have htouch : boosts.foldl (boostStep r.id now) f =
        [Touch.retrieve (sourceOf retrieved r.id) now].foldl (Touch.apply app.lifecycle) f := by
      rw [foldl_boostStep_mem f hids hb, ← hf]
      rfl
    obtain ⟨hle, hstab⟩ := Touch.le_apply hcfg h.stability (.retrieve (sourceOf retrieved r.id) now)
      (fun source now' heq => by cases heq; exact hlast)
    rw [htouch] at hafter
    refine ⟨_, h.step bm25 hn ?_ hafter hstab hnow, hle⟩
    rw [hexec]
    simp only [Touches, if_pos hid]
    exact ⟨_, rfl⟩
  · refine h.untouched bm25 hn ?_ (hafter.trans ?_)
    · rw [hexec]
      simp only [Touches, if_neg hid]
    · rw [foldl_boostStep_other f hid, h.fields]

theorem wrote (h : Tracking app user id p f) (bm25 : Bm25 F) (hcfg : app.lifecycle.Boosting) {i : ℕ} {t : Caller F}
    {wr : Write F} (hn : p.next? i = some (t, .write wr)) (hg : Undisturbed id p i t (.write wr)) :
    ∃ f', Tracking app user id (p.turn (exec bm25) i) f' ∧ f.Le f' := by
  -- a failed write is rolled back
  have herror : ∀ e, exec bm25 (.write wr) p.state = (.error e, p.state.answer p.state.db) →
      ∃ f', Tracking app user id (p.turn (exec bm25) i) f' ∧ f.Le f' := by
    intro e hexec
    refine h.untouched bm25 hn ?_ (by rw [hexec]; rfl)
    rw [hexec]
    cases wr <;> rfl
  by_cases hfault : p.state.oracle.sqlFault 0 = true
  · exact herror .io (by simp only [exec, hfault, if_true])
  rw [Bool.not_eq_true] at hfault
  have hfault' : ¬ p.state.oracle.sqlFault 0 = true := by simp [hfault]
  cases happly : wr.apply p.state.db with
  | error e => exact herror e (by simp only [exec, if_neg hfault', happly])
  | ok answered =>
    obtain ⟨answer, db⟩ := answered
    have hexec : exec bm25 (.write wr) p.state = (.ok answer, p.state.answer db) := by
      simp only [exec, if_neg hfault', happly]
    -- most writes leave these fields as they are
    have hsame : Touches id ⟨i, .write wr, .ok answer⟩ [] → db.reinforced? user id = p.state.db.reinforced? user id →
        ∃ f', Tracking app user id (p.turn (exec bm25) i) f' ∧ f.Le f' := fun hts hdb =>
      h.untouched bm25 hn (hexec ▸ hts) (hexec ▸ hdb)
    have hallowed := h.obeys.allowed hn
    cases wr with
    | insertMemory row =>
      obtain ⟨db', hdb', hp⟩ := map_ok happly
      cases hp
      rw [insertMemory_ok hdb'] at hsame
      refine hsame rfl ?_
      have hfields := h.fields
      unfold Db.reinforced? at hfields ⊢
      obtain ⟨r, hr, -⟩ := Option.map_eq_some_iff.mp hfields
      simp only [List.find?_append, hr, Option.some_or]
    | strengthenPairs pairs amount now kind =>
      obtain ⟨db', hdb', hp⟩ := map_ok happly
      cases hp
      refine hsame rfl ?_
      unfold Db.reinforced?
      rw [(strengthenPairs_memories hdb').1]
    | cacheInsert row =>
      cases happly
      refine hsame rfl ?_
      unfold Db.cacheInsert
      split <;> rfl
    | promoteToCore u ids =>
      cases happly
      refine hsame rfl (reinforced?_modifyEach p.state.db ?_ ?_ ids)
      · exact fun _ _ => rfl
      · exact fun _ _ => rfl
    | migrateToHotMany u ids =>
      cases happly
      refine hsame rfl (reinforced?_modifyEach p.state.db ?_ ?_ ids)
      · exact fun _ _ => rfl
      · exact fun _ _ => rfl
    | queueConflicts u newId hits now =>
      obtain rfl : u = user := hallowed
      obtain ⟨db', hdb', hp⟩ := map_ok happly
      cases hp
      obtain ⟨hle, hstab, hlast⟩ := le_reinforce hcfg h.stability (reinforcements newId id hits)
      have hafter : db.reinforced? u id = _ := reinforced?_queueConflicts app.lifecycle hdb'
      rw [h.fields, Option.map_some] at hafter
      refine ⟨_, h.step bm25 hn ?_ (hexec ▸ hafter) hstab (hlast ▸ h.last), hle⟩
      rw [hexec]
      rfl
    | applyDirectBoost u boosts now sessionId =>
      obtain rfl : u = user := hallowed.1
      exact h.boost bm25 hcfg hn hg hfault
    | _ => exact hallowed.elim

theorem turn (h : Tracking app user id p f) (bm25 : Bm25 F) (hcfg : app.lifecycle.Boosting) {i : ℕ} {t : Caller F}
    {c : Cmd F} (hn : p.next? i = some (t, c)) (hg : Undisturbed id p i t c) :
    ∃ f', Tracking app user id (p.turn (exec bm25) i) f' ∧ f.Le f' := by
  cases c with
  | write wr => exact h.wrote bm25 hcfg hn hg
  | resolveConflicts => exact (h.obeys.allowed hn).elim
  | _ => exact h.untouched bm25 hn rfl rfl

theorem play (h : Tracking app user id p f) {bm25 : Bm25 F} (hcfg : app.lifecycle.Boosting) {schedule : List ℕ}
    (hmeets : p.Meets (exec bm25) (Undisturbed id) schedule) :
    ∃ f', Tracking app user id (p.play (exec bm25) schedule) f' := by
  have hkeep := Pool.play_keeps (J := fun p => ∃ f', Tracking app user id p f') (fun p i t c hp hn hg => by
    obtain ⟨f, hf⟩ := hp
    obtain ⟨f', hf', -⟩ := hf.turn bm25 hcfg hn hg
    exact ⟨f', hf'⟩) hmeets
  exact hkeep ⟨f, h⟩

end Tracking

variable [Elementary F]

def World.ticking : World ℚ := ⟨Db.empty, [], { Oracle.quiet with clock := fun n => n }⟩

def tea : World ℚ := (batch "alice" ["tea"]).serve Bm25.none World.ticking

def teaSearch : Caller ℚ where
  app := { AppState.flat with lifecycle := buildLifecycleConfig [] }
  user := "alice"
  request := .memory (.search ⟨"alice", "tea", 5, false, false, 0, false⟩)

instance (e : (c : Cmd ℚ) × c.Res) (w : World ℚ) : Decidable (Still Bm25.none e w) := by
  obtain ⟨c, answer⟩ := e
  induction c using Cmd.casesOn with
  | query q => induction q using Query.casesOn <;> (unfold Still; infer_instance)
  | _ => exact isTrue trivial

instance (e e' : (c : Cmd ℚ) × c.Res) : Decidable (Onward e e') := by
  obtain ⟨c, answer⟩ := e
  obtain ⟨c', answer'⟩ := e'
  induction c using Cmd.casesOn <;> induction c' using Cmd.casesOn <;> (unfold Onward; infer_instance)

end CognitiveMemory
