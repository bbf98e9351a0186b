import Mathlib.Logic.Relation
import Mathlib.Data.List.Basic

/-! Programs over atomic commands: sequential runs, pools of interleaved tasks, and
contracts that bound every command a task may issue under interference. -/

/-- A command tree: `cmd c k` issues `c`, whose answer in `R c` selects the rest. -/
inductive Prog (C : Type) (R : C → Type) (ε α : Type) : Type
  | pure (a : α)
  | fail (e : ε)
  | cmd (c : C) (k : R c → Prog C R ε α)

namespace Prog
variable {C : Type} {R : C → Type} {ε α β τ S : Type}

protected def bind : Prog C R ε α → (α → Prog C R ε β) → Prog C R ε β
  | pure a, f => f a
  | fail e, _ => fail e
  | cmd c k, f => cmd c fun r => (k r).bind f

instance : Monad (Prog C R ε) where
  pure := Prog.pure
  bind := Prog.bind

def call (c : C) : Prog C R ε (R c) := cmd c pure

@[simp] theorem pure_eq (a : α) : (Pure.pure a : Prog C R ε α) = pure a := rfl

@[simp] theorem bind_eq (p : Prog C R ε α) (f : α → Prog C R ε β) : (p >>= f) = p.bind f := rfl

@[simp] theorem pure_bind' (a : α) (f : α → Prog C R ε β) : (pure a).bind f = f a := rfl

@[simp] theorem fail_bind (e : ε) (f : α → Prog C R ε β) : (fail e : Prog C R ε α).bind f = fail e := rfl

@[simp] theorem cmd_bind (c : C) (k : R c → Prog C R ε α) (f : α → Prog C R ε β) :
    (cmd c k).bind f = cmd c fun r => (k r).bind f := rfl

@[simp] theorem call_bind (c : C) (f : R c → Prog C R ε β) :
    (call c : Prog C R ε (R c)).bind f = cmd c f := rfl

def mapError {ε' : Type} (f : ε → ε') : Prog C R ε α → Prog C R ε' α
  | pure a => pure a
  | fail e => fail (f e)
  | cmd c k => cmd c fun r => (k r).mapError f

def attempt {ε' : Type} : Prog C R ε α → Prog C R ε' (Except ε α)
  | pure a => pure (.ok a)
  | fail e => pure (.error e)
  | cmd c k => cmd c fun r => (k r).attempt

/-- Lift a result into a program, as `?` does. -/
def ofExcept : Except ε α → Prog C R ε α
  | .ok a => pure a
  | .error e => fail e

def ended? : Prog C R ε α → Option (Except ε α)
  | pure a => some (.ok a)
  | fail e => some (.error e)
  | cmd .. => none

theorem ended?_ofExcept (r : Except ε α) : (ofExcept r : Prog C R ε α).ended? = some r := by cases r <;> rfl

theorem ended?_some {p : Prog C R ε α} {r : Except ε α} (h : p.ended? = some r) : p = ofExcept r := by
  cases p with
  | cmd => cases h
  | _ =>
    cases h
    rfl

theorem bind_assoc' {γ : Type} (p : Prog C R ε α) (f : α → Prog C R ε β) (g : β → Prog C R ε γ) :
    (p.bind f).bind g = p.bind fun a => (f a).bind g := by
  induction p with
  | pure a => rfl
  | fail e => rfl
  | cmd c k ih => simp only [cmd_bind, ih]

def Only (P : C → Prop) : Prog C R ε α → Prop
  | cmd c k => P c ∧ ∀ r, (k r).Only P
  | _ => True

section Only
variable {P : C → Prop}

theorem only_bind {p : Prog C R ε α} {f : α → Prog C R ε β} (hp : p.Only P) (hf : ∀ a, (f a).Only P) :
    (p.bind f).Only P := by
  induction p with
  | pure a => exact hf a
  | fail e => trivial
  | cmd c k ih => exact ⟨hp.1, fun r => ih r (hp.2 r)⟩

theorem Only.imp {Q : C → Prop} {p : Prog C R ε α} (hp : p.Only P) (h : ∀ c, P c → Q c) : p.Only Q := by
  induction p with
  | pure a => trivial
  | fail e => trivial
  | cmd c k ih => exact ⟨h c hp.1, fun r => ih r (hp.2 r)⟩

theorem only_mapError {ε' : Type} {f : ε → ε'} {p : Prog C R ε α} (hp : p.Only P) : (p.mapError f).Only P := by
  induction p with
  | pure a => trivial
  | fail e => trivial
  | cmd c k ih => exact ⟨hp.1, fun r => ih r (hp.2 r)⟩

theorem only_attempt {ε' : Type} {p : Prog C R ε α} (hp : p.Only P) : (p.attempt : Prog C R ε' _).Only P := by
  induction p with
  | pure a => trivial
  | fail e => trivial
  | cmd c k ih => exact ⟨hp.1, fun r => ih r (hp.2 r)⟩

theorem only_ofExcept (r : Except ε α) : (ofExcept r : Prog C R ε α).Only P := by cases r <;> trivial

theorem only_call {c : C} (h : P c) : (call c : Prog C R ε (R c)).Only P := ⟨h, fun _ => trivial⟩

end Only

/-! ## Sequential runs -/

/-- What one command does: its answer and the state it leaves. -/
abbrev Exec (C : Type) (R : C → Type) (S : Type) := (c : C) → S → R c × S

def run (x : Exec C R S) : Prog C R ε α → S → Except ε α × S
  | pure a, s => (.ok a, s)
  | fail e, s => (.error e, s)
  | cmd c k, s => (k (x c s).1).run x (x c s).2

section run
variable (x : Exec C R S)

@[simp] theorem run_pure (a : α) (s : S) : (pure a : Prog C R ε α).run x s = (.ok a, s) := rfl

@[simp] theorem run_fail (e : ε) (s : S) : (fail e : Prog C R ε α).run x s = (.error e, s) := rfl

@[simp] theorem run_command (c : C) (k : R c → Prog C R ε α) (s : S) :
    (cmd c k).run x s = (k (x c s).1).run x (x c s).2 := rfl

theorem run_bind (p : Prog C R ε α) (f : α → Prog C R ε β) (s : S) :
    (p.bind f).run x s = match p.run x s with
      | (.ok a, s') => (f a).run x s'
      | (.error e, s') => (.error e, s') := by
  induction p generalizing s with
  | pure a => rfl
  | fail e => rfl
  | cmd c k ih => simpa only [cmd_bind, run_command] using ih _ _

theorem run_bind_ok {p : Prog C R ε α} {f : α → Prog C R ε β} {s s' : S} {a : α}
    (h : p.run x s = (.ok a, s')) : (p.bind f).run x s = (f a).run x s' := by
  rw [run_bind, h]

theorem run_bind_error {p : Prog C R ε α} {f : α → Prog C R ε β} {s s' : S} {e : ε}
    (h : p.run x s = (.error e, s')) : (p.bind f).run x s = (.error e, s') := by
  rw [run_bind, h]

theorem run_map_state (p : Prog C R ε α) (f : α → β) (s : S) :
    ((p.bind fun a => pure (f a)).run x s).2 = (p.run x s).2 := by
  induction p generalizing s with
  | pure a => rfl
  | fail e => rfl
  | cmd c k ih => exact ih _ _

theorem run_mapError {ε' : Type} (f : ε → ε') (p : Prog C R ε α) (s : S) :
    (p.mapError f).run x s = ((p.run x s).1.mapError f, (p.run x s).2) := by
  induction p generalizing s with
  | pure a => rfl
  | fail e => rfl
  | cmd c k ih => exact ih _ _

end run

theorem Only.run_keeps {P : C → Prop} {p : Prog C R ε α} (hp : p.Only P) (x : Exec C R S) {J : S → Prop}
    (hJ : ∀ c s, P c → J s → J (x c s).2) {s : S} (h : J s) : J (p.run x s).2 := by
  induction p generalizing s with
  | pure a => exact h
  | fail e => exact h
  | cmd c k ih => exact ih _ (hp.2 _) (hJ c s hp.1 h)

/-- The state left by a run that is stopped after at most `n` commands. -/
def runFor (x : Exec C R S) : ℕ → Prog C R ε α → S → S
  | n + 1, cmd c k, s => (k (x c s).1).runFor x n (x c s).2
  | _, _, s => s

/-- The number of commands a run issues. -/
def steps (x : Exec C R S) : Prog C R ε α → S → ℕ
  | cmd c k, s => (k (x c s).1).steps x (x c s).2 + 1
  | _, _ => 0

section runFor
variable (x : Exec C R S)

@[simp] theorem runFor_zero (p : Prog C R ε α) (s : S) : p.runFor x 0 s = s := by cases p <;> rfl

@[simp] theorem runFor_pure (n : ℕ) (a : α) (s : S) : (pure a : Prog C R ε α).runFor x n s = s := by cases n <;> rfl

@[simp] theorem runFor_fail (n : ℕ) (e : ε) (s : S) : (fail e : Prog C R ε α).runFor x n s = s := by cases n <;> rfl

@[simp] theorem runFor_succ (n : ℕ) (c : C) (k : R c → Prog C R ε α) (s : S) :
    (cmd c k).runFor x (n + 1) s = (k (x c s).1).runFor x n (x c s).2 := rfl

theorem runFor_of_steps_le {p : Prog C R ε α} {s : S} {n : ℕ} (h : p.steps x s ≤ n) :
    p.runFor x n s = (p.run x s).2 := by
  induction p generalizing s n with
  | pure a => simp
  | fail e => simp
  | cmd c k ih =>
    cases n with
    | zero => simp [steps] at h
    | succ n => exact ih _ (Nat.le_of_succ_le_succ h)

theorem runFor_bind_of_le {p : Prog C R ε α} (f : α → Prog C R ε β) {s : S} {n : ℕ} (h : n ≤ p.steps x s) :
    (p.bind f).runFor x n s = p.runFor x n s := by
  induction p generalizing s n with
  | pure a =>
    obtain rfl : n = 0 := by simpa [steps] using h
    simp
  | fail e => simp
  | cmd c k ih =>
    cases n with
    | zero => simp
    | succ n => exact ih _ (Nat.le_of_succ_le_succ h)

theorem runFor_bind_add {p : Prog C R ε α} (f : α → Prog C R ε β) {s s' : S} {a : α}
    (h : p.run x s = (.ok a, s')) (n : ℕ) :
    (p.bind f).runFor x (p.steps x s + n) s = (f a).runFor x n s' := by
  induction p generalizing s with
  | pure b =>
    cases h
    simp [steps]
  | fail e => cases h
  | cmd c k ih =>
    have hstep : (cmd c k).steps x s + n = ((k (x c s).1).steps x (x c s).2 + n) + 1 := by
      simp only [steps]
      omega
    rw [hstep]
    exact ih _ h

theorem steps_bind_ok {p : Prog C R ε α} {s s' : S} {a : α} (h : p.run x s = (.ok a, s')) (f : α → Prog C R ε β) :
    (p.bind f).steps x s = p.steps x s + (f a).steps x s' := by
  induction p generalizing s with
  | pure b =>
    cases h
    simp [steps]
  | fail e => cases h
  | cmd c k ih =>
    simp only [cmd_bind, steps, ih _ h]
    omega

theorem runFor_keeps {J : S → Prop} (hJ : ∀ c s, J s → J (x c s).2) (n : ℕ) (p : Prog C R ε α) {s : S} (h : J s) :
    J (p.runFor x n s) := by
  induction n generalizing p s with
  | zero => simpa using h
  | succ n ih =>
    cases p with
    | pure a => exact h
    | fail e => exact h
    | cmd c k => exact ih _ (hJ c s h)

end runFor

/-! ## Pools of tasks -/

/-- A shared state and the tasks working on it, each with its label. -/
structure Config (τ C : Type) (R : C → Type) (ε α S : Type) where
  state : S
  tasks : List (τ × Prog C R ε α)

/-- One step of a pool: a new task enters, or one task executes its next command atomically.
A task dropped at an await point is one that is never scheduled again. -/
inductive Step (x : Exec C R S) (entry : τ → Prog C R ε α → Prop) (guard : τ → S → C → Prop) :
    Config τ C R ε α S → Config τ C R ε α S → Prop
  | spawn {s : S} {ts : List (τ × Prog C R ε α)} {t : τ} {p : Prog C R ε α} (h : entry t p) :
      Step x entry guard ⟨s, ts⟩ ⟨s, ts ++ [(t, p)]⟩
  | exec {s : S} {ts : List (τ × Prog C R ε α)} {i : ℕ} {t : τ} {c : C} {k : R c → Prog C R ε α}
      (h : ts[i]? = some (t, cmd c k)) (hg : guard t s c) :
      Step x entry guard ⟨s, ts⟩ ⟨(x c s).2, ts.set i (t, k (x c s).1)⟩

/-- Every configuration some interleaving of admitted tasks leads to from `s₀`. -/
def Reach (x : Exec C R S) (entry : τ → Prog C R ε α → Prop) (guard : τ → S → C → Prop) (s₀ : S) :
    Config τ C R ε α S → Prop :=
  Relation.ReflTransGen (Step x entry guard) ⟨s₀, []⟩

/-- The sequential runs are among the interleavings: a task that meets the guard at every
command may run to its end without anybody else moving. -/
theorem reach_run {x : Exec C R S} {entry : τ → Prog C R ε α → Prop} {guard : τ → S → C → Prop}
    {s₀ s : S} {ts : List (τ × Prog C R ε α)} {t : τ} {p : Prog C R ε α}
    (h : Reach x entry guard s₀ ⟨s, ts⟩) (hp : entry t p) (hg : ∀ s c, guard t s c) :
    ∃ ts', Reach x entry guard s₀ ⟨(p.run x s).2, ts'⟩ := by
  have key : ∀ (p : Prog C R ε α) (s : S), Reach x entry guard s₀ ⟨s, ts ++ [(t, p)]⟩ →
      ∃ ts', Reach x entry guard s₀ ⟨(p.run x s).2, ts'⟩ := by
    intro p
    induction p with
    | pure a => exact fun s hs => ⟨_, hs⟩
    | fail e => exact fun s hs => ⟨_, hs⟩
    | cmd c k ih =>
      intro s hs
      refine ih _ (x c s).2 (hs.tail ?_)
      have hi : (ts ++ [(t, cmd c k)])[ts.length]? = some (t, cmd c k) := by simp
      have hstep : Step x entry guard ⟨s, ts ++ [(t, cmd c k)]⟩ _ := .exec hi (hg s c)
      simpa using hstep
  exact key p s (h.tail (.spawn hp))

/-! ## Contracts -/

/-- A state invariant, a relation every step stays inside, and the commands a task with
label `t` may issue in a state. Allowed commands keep the invariant and the relation. -/
structure Contract (x : Exec C R S) (τ : Type) where
  inv : S → Prop
  rel : S → S → Prop
  allows : τ → S → C → Prop
  rel_refl : ∀ s, rel s s
  rel_trans : ∀ {s₁ s₂ s₃}, rel s₁ s₂ → rel s₂ s₃ → rel s₁ s₃
  preserve : ∀ {t s c}, inv s → allows t s c → inv (x c s).2 ∧ rel s (x c s).2

namespace Contract
variable {x : Exec C R S} (K : Contract x τ) {t : τ}

/-- From `s` on, however other tasks move the state between two commands, the program issues
allowed commands only and ends with `Q`. -/
def Emits (t : τ) : Prog C R ε α → (α → S → Prop) → S → Prop
  | pure a, Q, s => ∀ s', K.rel s s' → K.inv s' → Q a s'
  | fail _, _, _ => True
  | cmd c k, Q, s => ∀ s', K.rel s s' → K.inv s' →
      K.allows t s' c ∧ Emits t (k (x c s').1) Q (x c s').2

variable {K}

theorem Emits.mono {p : Prog C R ε α} {Q : α → S → Prop} {s s' : S}
    (h : K.Emits t p Q s) (hr : K.rel s s') : K.Emits t p Q s' := by
  cases p with
  | pure a => exact fun s'' hr' hi => h s'' (K.rel_trans hr hr') hi
  | fail e => trivial
  | cmd c k => exact fun s'' hr' hi => h s'' (K.rel_trans hr hr') hi

theorem Emits.imp {p : Prog C R ε α} {Q Q' : α → S → Prop} {s : S}
    (h : K.Emits t p Q s) (hQ : ∀ a s', K.inv s' → Q a s' → Q' a s') : K.Emits t p Q' s := by
  induction p generalizing s with
  | pure a => exact fun s' hr hi => hQ a s' hi (h s' hr hi)
  | fail e => trivial
  | cmd c k ih => exact fun s' hr hi => ⟨(h s' hr hi).1, ih _ (h s' hr hi).2⟩

theorem Emits.seq {p : Prog C R ε α} {f : α → Prog C R ε β} {Q : β → S → Prop} {P : α → S → Prop} {s : S}
    (hi : K.inv s) (hp : K.Emits t p P s)
    (hf : ∀ a s', K.rel s s' → K.inv s' → P a s' → K.Emits t (f a) Q s') : K.Emits t (p >>= f) Q s := by
  rw [bind_eq]
  induction p generalizing s with
  | pure a => exact hf a s (K.rel_refl s) hi (hp s (K.rel_refl s) hi)
  | fail e => trivial
  | cmd c k ih =>
    intro s' hr hi'
    obtain ⟨ha, hk⟩ := hp s' hr hi'
    obtain ⟨hinv, hstep⟩ := K.preserve hi' ha
    exact ⟨ha, ih _ hinv hk fun a s'' hr'' => hf a s'' (K.rel_trans (K.rel_trans hr hstep) hr'')⟩

theorem Emits.mapError {ε' : Type} {f : ε → ε'} {p : Prog C R ε α} {Q : α → S → Prop} {s : S}
    (h : K.Emits t p Q s) : K.Emits t (p.mapError f) Q s := by
  induction p generalizing s with
  | pure a => exact h
  | fail e => trivial
  | cmd c k ih => exact fun s' hr hi => ⟨(h s' hr hi).1, ih _ (h s' hr hi).2⟩

/-- What a sequence may issue, its first part may, and then the rest. -/
theorem Emits.of_seq {p : Prog C R ε α} {f : α → Prog C R ε β} {Q : β → S → Prop} {s : S} (h : K.Emits t (p >>= f) Q s) :
    K.Emits t p (fun a s' => K.Emits t (f a) Q s') s := by
  rw [bind_eq] at h
  induction p generalizing s with
  | pure a => exact fun s' hr _ => h.mono hr
  | fail e => trivial
  | cmd c k ih => exact fun s' hr hi => ⟨(h s' hr hi).1, ih _ (h s' hr hi).2⟩

theorem Emits.of_mapError {ε' : Type} {f : ε → ε'} {p : Prog C R ε α} {Q : α → S → Prop} {s : S}
    (h : K.Emits t (p.mapError f) Q s) : K.Emits t p Q s := by
  induction p generalizing s with
  | pure a => exact h
  | fail e => trivial
  | cmd c k ih => exact fun s' hr hi => ⟨(h s' hr hi).1, ih _ (h s' hr hi).2⟩

theorem Emits.cmd_inv {c : C} {k : R c → Prog C R ε α} {Q : α → S → Prop} {s : S} (h : K.Emits t (cmd c k) Q s)
    (hi : K.inv s) : K.allows t s c ∧ K.Emits t (k (x c s).1) Q (x c s).2 := h s (K.rel_refl s) hi

theorem emits_ofExcept {r : Except ε α} {Q : α → S → Prop} {s : S}
    (h : ∀ a, r = .ok a → ∀ s', K.rel s s' → K.inv s' → Q a s') :
    K.Emits t (ofExcept r : Prog C R ε α) Q s := by
  cases r with
  | ok a => exact h a rfl
  | error e => trivial

theorem emits_pure {a : α} {Q : α → S → Prop} {s : S}
    (h : ∀ s', K.rel s s' → K.inv s' → Q a s') : K.Emits t (Pure.pure a : Prog C R ε α) Q s := h

theorem emits_fail {e : ε} {Q : α → S → Prop} {s : S} : K.Emits t (fail e : Prog C R ε α) Q s := trivial

theorem emits_cmd {c : C} {k : R c → Prog C R ε α} {Q : α → S → Prop} {s : S}
    (h : ∀ s', K.rel s s' → K.inv s' → K.allows t s' c ∧ K.Emits t (k (x c s').1) Q (x c s').2) :
    K.Emits t (cmd c k) Q s := h

theorem emits_of_only {P : C → Prop} {p : Prog C R ε α} {s : S} (hP : ∀ s c, P c → K.allows t s c) (h : p.Only P) :
    K.Emits t p (fun _ _ => True) s := by
  induction p generalizing s with
  | pure a => exact fun _ _ _ => trivial
  | fail e => trivial
  | cmd c k ih => exact fun s' _ _ => ⟨hP s' c h.1, ih _ (h.2 _)⟩

/-- Every reachable configuration satisfies the invariant, and every task in it still
issues allowed commands only. -/
theorem reach_inv {entry : τ → Prog C R ε α → Prop} {guard : τ → S → C → Prop} {s₀ : S} {cfg : Config τ C R ε α S}
    (hp : ∀ t p s, entry t p → K.inv s → K.Emits t p (fun _ _ => True) s)
    (h : Reach x entry guard s₀ cfg) (h₀ : K.inv s₀) :
    K.inv cfg.state ∧ ∀ tp ∈ cfg.tasks, K.Emits tp.1 tp.2 (fun _ _ => True) cfg.state := by
  induction h with
  | refl => exact ⟨h₀, by simp⟩
  | tail _ hstep ih =>
    obtain ⟨hi, hts⟩ := ih
    cases hstep with
    | spawn ha =>
      refine ⟨hi, fun tp htp => ?_⟩
      rcases List.mem_append.mp htp with htp | htp
      · exact hts tp htp
      · rw [List.mem_singleton.mp htp]
        exact hp _ _ _ ha hi
    | @exec s ts i t c k hi' hg =>
      obtain ⟨hall, hk⟩ := hts _ (List.mem_of_getElem? hi') s (K.rel_refl s) hi
      obtain ⟨hinv, hrel⟩ := K.preserve hi hall
      refine ⟨hinv, fun tp htp => ?_⟩
      rcases List.mem_or_eq_of_mem_set htp with htp | rfl
      · exact (hts tp htp).mono hrel
      · exact hk

/-- An invariant that allowed commands keep under the guard holds in every reachable state. -/
theorem reach_keeps {entry : τ → Prog C R ε α → Prop} {guard : τ → S → C → Prop} {s₀ : S}
    {cfg : Config τ C R ε α S} {J : S → Prop} (hp : ∀ t p s, entry t p → K.inv s → K.Emits t p (fun _ _ => True) s)
    (hJ : ∀ t s c, K.inv s → J s → K.allows t s c → guard t s c → J (x c s).2)
    (h : Reach x entry guard s₀ cfg) (h₀ : K.inv s₀) (hJ₀ : J s₀) : J cfg.state := by
  induction h with
  | refl => exact hJ₀
  | tail hpre hstep ih =>
    obtain ⟨hi, hts⟩ := K.reach_inv hp hpre h₀
    cases hstep with
    | spawn ha => exact ih
    | exec hi' hg =>
      exact hJ _ _ _ hi ih (hts _ (List.mem_of_getElem? hi') _ (K.rel_refl _) hi).1 hg

/-- A program that runs alone keeps the invariant, everything allowed commands keep, and
establishes its postcondition. -/
theorem Emits.run_keeps {p : Prog C R ε α} {Q : α → S → Prop} {s : S} {J : S → Prop}
    (h : K.Emits t p Q s) (hi : K.inv s) (hJ₀ : J s) (hJ : ∀ s c, K.inv s → J s → K.allows t s c → J (x c s).2) :
    K.inv (p.run x s).2 ∧ K.rel s (p.run x s).2 ∧ J (p.run x s).2 ∧
      ∀ a, (p.run x s).1 = .ok a → Q a (p.run x s).2 := by
  induction p generalizing s with
  | pure a =>
    refine ⟨hi, K.rel_refl s, hJ₀, fun b hb => ?_⟩
    cases hb
    exact h s (K.rel_refl s) hi
  | fail e => exact ⟨hi, K.rel_refl s, hJ₀, fun b hb => by cases hb⟩
  | cmd c k ih =>
    obtain ⟨ha, hk⟩ := h s (K.rel_refl s) hi
    obtain ⟨hi', hr⟩ := K.preserve hi ha
    obtain ⟨h1, h2, h3, h4⟩ := ih _ hk hi' (hJ s c hi hJ₀ ha)
    exact ⟨h1, K.rel_trans hr h2, h3, h4⟩

attribute [irreducible] Emits

end Contract
end Prog
