import CognitiveMemory.Lib.Schedule

/-! Tokens that tasks draw and spend. A task spends no token but the one it has drawn last and still
holds; where no token is drawn twice, none is spent twice, however the tasks are interleaved. -/

namespace Prog

structure Tokens (C : Type) (R : C → Type) (T : Type) where
  draws : (c : C) → R c → Option T
  spends : C → Option T
  apart : ∀ c r, (draws c r).isSome → spends c = none

namespace Tokens
variable {C T : Type} {R : C → Type} (K : Tokens C R T)

/-- The token a task holds: the last one drawn, if it is not spent. -/
def holding : History C R → Option T
  | [] => none
  | ⟨c, r⟩ :: h => match K.draws c r with
    | some k => some k
    | none => if (K.spends c).isSome then none else holding h

def honest (h : History C R) (c : C) : Prop := ∀ k, K.spends c = some k → K.holding h = some k

def idle (c : C) : Prop := K.spends c = none ∧ ∀ r, K.draws c r = none

variable {K}

theorem idle.honest {c : C} (hc : K.idle c) (h : History C R) : K.honest h c := fun k hk => by
  rw [hc.1] at hk
  cases hk

theorem idle.holding {c : C} (hc : K.idle c) (r : R c) (h : History C R) : K.holding (⟨c, r⟩ :: h) = K.holding h := by
  simp [Tokens.holding, hc.1, hc.2 r]

section
variable {ε α : Type}

/-- A program of commands that spend nothing is honest after any history. -/
theorem honest_of_thrifty {p : Prog C R ε α} (hp : p.Only fun c => K.spends c = none) (h : History C R) :
    p.Issues K.honest (fun _ _ => True) h := by
  refine (hp.issues (fun h c hc k hk => ?_) h).imp fun _ _ _ => trivial
  rw [hc] at hk
  cases hk

theorem honest_of_idle {p : Prog C R ε α} (hp : p.Only K.idle) {o : Option T} {h : History C R} (hh : K.holding h = o) :
    p.Issues K.honest (fun _ h' => K.holding h' = o) h :=
  hp.issues_within (I := fun h => K.holding h = o) (fun h _ hc _ => hc.honest h)
    (fun h _ r hc hh => (hc.holding r h).trans hh) hh

end

/-! ## Logs -/

section
variable (K)

def drawn (log : List (Event C R)) : List T := log.filterMap fun e => K.draws e.command e.answer

def spent (log : List (Event C R)) : List T := log.filterMap fun e => K.spends e.command

end

@[simp] theorem drawn_append (log log' : List (Event C R)) : K.drawn (log ++ log') = K.drawn log ++ K.drawn log' :=
  List.filterMap_append

@[simp] theorem spent_append (log log' : List (Event C R)) : K.spent (log ++ log') = K.spent log ++ K.spent log' :=
  List.filterMap_append

theorem drawn_cons_some {e : Event C R} {k : T} (h : K.draws e.command e.answer = some k) (log : List (Event C R)) :
    K.drawn (e :: log) = k :: K.drawn log := by simp [drawn, h]

theorem drawn_cons_none {e : Event C R} (h : K.draws e.command e.answer = none) (log : List (Event C R)) :
    K.drawn (e :: log) = K.drawn log := by simp [drawn, h]

theorem spent_cons_some {e : Event C R} {k : T} (h : K.spends e.command = some k) (log : List (Event C R)) :
    K.spent (e :: log) = k :: K.spent log := by simp [spent, h]

theorem spent_cons_none {e : Event C R} (h : K.spends e.command = none) (log : List (Event C R)) :
    K.spent (e :: log) = K.spent log := by simp [spent, h]

theorem seen_cons (e : Event C R) (log : List (Event C R)) (i : ℕ) : Pool.seen (e :: log) i =
    if e.task = i then ⟨e.command, e.answer⟩ :: Pool.seen log i else Pool.seen log i := by
  unfold Pool.seen
  rw [List.filterMap_cons]
  by_cases hi : e.task = i
  · simp only [if_pos hi]
  · simp only [if_neg hi]

/-- What a task holds after one more event, which may be its own. -/
theorem holding_cons (e : Event C R) (log : List (Event C R)) (i : ℕ) : K.holding (Pool.seen (e :: log) i) =
    if e.task = i then
      match K.draws e.command e.answer with
      | some k => some k
      | none => if (K.spends e.command).isSome then none else K.holding (Pool.seen log i)
    else K.holding (Pool.seen log i) := by
  rw [seen_cons]
  split
  · rfl
  · rfl

variable (K)

/-- Tokens are spent once, after they were drawn; a token in a task's hand is not spent, and in
nobody else's. -/
structure Sound (log : List (Event C R)) : Prop where
  once : (K.spent log).Nodup
  owned : ∀ k ∈ K.spent log, k ∈ K.drawn log
  held : ∀ i k, K.holding (Pool.seen log i) = some k → k ∈ K.drawn log ∧ k ∉ K.spent log
  alone : ∀ i j k, K.holding (Pool.seen log i) = some k → K.holding (Pool.seen log j) = some k → i = j

variable {K}

theorem sound_nil : K.Sound [] := ⟨List.nodup_nil, nofun, nofun, nofun⟩

/-- One more event of an honest task, if it draws a token then a new one. -/
theorem Sound.cons {log : List (Event C R)} {e : Event C R} (h : K.Sound log)
    (hhonest : K.honest (Pool.seen log e.task) e.command) (hnew : ∀ k, K.draws e.command e.answer = some k → k ∉ K.drawn log) :
    K.Sound (e :: log) := by
  cases hdraw : K.draws e.command e.answer with
  | some k =>
    have hidle : K.spends e.command = none := K.apart _ e.answer (by rw [hdraw]; rfl)
    have hspent := spent_cons_none hidle log
    have hdrawn := drawn_cons_some hdraw log
    have hhand : ∀ i, K.holding (Pool.seen (e :: log) i) = if e.task = i then some k else K.holding (Pool.seen log i) := by
      intro i
      rw [holding_cons, hdraw]
    -- what the others hold was drawn before, so it is not the new token
    have hother : ∀ i, K.holding (Pool.seen log i) ≠ some k := fun i hi => hnew k hdraw (h.held i k hi).1
    refine ⟨hspent ▸ h.once, ?_, ?_, ?_⟩
    · intro k' hk'
      rw [hspent] at hk'
      rw [hdrawn]
      exact List.mem_cons_of_mem _ (h.owned k' hk')
    · intro i k' hk'
      rw [hhand] at hk'
      rw [hspent, hdrawn]
      split at hk'
      · cases hk'
        exact ⟨List.mem_cons_self, fun hin => hnew k hdraw (h.owned k hin)⟩
      · exact ⟨List.mem_cons_of_mem _ (h.held i k' hk').1, (h.held i k' hk').2⟩
    · intro i j k' hi hj
      rw [hhand] at hi hj
      split at hi <;> split at hj
      · exact ‹e.task = i›.symm.trans ‹_›
      · cases hi
        exact absurd hj (hother j)
      · cases hj
        exact absurd hi (hother i)
      · exact h.alone i j k' hi hj
  | none =>
    have hdrawn := drawn_cons_none hdraw log
    cases hspend : K.spends e.command with
    | none =>
      have hspent := spent_cons_none hspend log
      have hhand : ∀ i, K.holding (Pool.seen (e :: log) i) = K.holding (Pool.seen log i) := by
        intro i
        simp [holding_cons, hdraw, hspend]
      refine ⟨hspent ▸ h.once, hspent ▸ hdrawn ▸ h.owned, ?_, ?_⟩
      · intro i k hk
        rw [hhand] at hk
        rw [hspent, hdrawn]
        exact h.held i k hk
      · intro i j k hi hj
        rw [hhand] at hi hj
        exact h.alone i j k hi hj
    | some k =>
      have hhad : K.holding (Pool.seen log e.task) = some k := hhonest k hspend
      have hspent := spent_cons_some hspend log
      have hhand : ∀ i, K.holding (Pool.seen (e :: log) i) = if e.task = i then none else K.holding (Pool.seen log i) := by
        intro i
        simp [holding_cons, hdraw, hspend]
      refine ⟨?_, ?_, ?_, ?_⟩
      · rw [hspent]
        exact List.nodup_cons.mpr ⟨(h.held _ k hhad).2, h.once⟩
      · intro k' hk'
        rw [hspent] at hk'
        rw [hdrawn]
        rcases List.mem_cons.mp hk' with rfl | hk'
        · exact (h.held _ k' hhad).1
        · exact h.owned k' hk'
      · intro i k' hk'
        rw [hhand] at hk'
        rw [hspent, hdrawn]
        split at hk'
        · cases hk'
        · rename_i hi
          refine ⟨(h.held i k' hk').1, fun hin => ?_⟩
          rcases List.mem_cons.mp hin with rfl | hin
          · exact hi (h.alone _ _ k' hhad hk')
          · exact (h.held i k' hk').2 hin
      · intro i j k' hi hj
        rw [hhand] at hi hj
        split at hi
        · cases hi
        · split at hj
          · cases hj
          · exact h.alone i j k' hi hj

end Tokens
end Prog
