import CognitiveMemory.Lib.Prog

/-! Pools of tasks under an explicit schedule, with the log of what was executed, and programs
whose commands depend on the answers they got. -/

namespace Prog
variable {C : Type} {R : C → Type} {ε α β τ S : Type}

/-! ## Pools -/

structure Event (C : Type) (R : C → Type) where
  task : ℕ
  command : C
  answer : R command

/-- Tasks working on one state; the log holds the latest event first. -/
structure Pool (τ C : Type) (R : C → Type) (ε α S : Type) where
  state : S
  tasks : List (τ × Prog C R ε α)
  log : List (Event C R)

namespace Pool

def start (s : S) (tasks : List (τ × Prog C R ε α)) : Pool τ C R ε α S := ⟨s, tasks, []⟩

/-- The command a task is about to issue, with its label. -/
def next? (p : Pool τ C R ε α S) (i : ℕ) : Option (τ × C) :=
  match p.tasks[i]? with
  | some (t, cmd c _) => some (t, c)
  | _ => none

def turn (x : Exec C R S) (p : Pool τ C R ε α S) (i : ℕ) : Pool τ C R ε α S :=
  match p.tasks[i]? with
  | some (t, cmd c k) => ⟨(x c p.state).2, p.tasks.set i (t, k (x c p.state).1), ⟨i, c, (x c p.state).1⟩ :: p.log⟩
  | _ => p

def play (x : Exec C R S) (p : Pool τ C R ε α S) (is : List ℕ) : Pool τ C R ε α S := is.foldl (turn x) p

/-- Every command of the schedule meets the guard when its turn comes. -/
def Meets (x : Exec C R S) (guard : Pool τ C R ε α S → ℕ → τ → C → Prop) : Pool τ C R ε α S → List ℕ → Prop
  | _, [] => True
  | p, i :: is => (∀ tc ∈ p.next? i, guard p i tc.1 tc.2) ∧ Meets x guard (p.turn x i) is

instance (x : Exec C R S) (guard : Pool τ C R ε α S → ℕ → τ → C → Prop) [∀ p i t c, Decidable (guard p i t c)]
    (p : Pool τ C R ε α S) (is : List ℕ) : Decidable (Meets x guard p is) := by
  induction is generalizing p with
  | nil => exact isTrue trivial
  | cons i is ih =>
    have := ih (p.turn x i)
    unfold Meets
    infer_instance

variable {x : Exec C R S} {p : Pool τ C R ε α S} {i : ℕ}

theorem next?_some {t : τ} {c : C} (h : p.next? i = some (t, c)) : ∃ k, p.tasks[i]? = some (t, cmd c k) := by
  unfold next? at h
  split at h
  · cases h
    exact ⟨_, ‹_›⟩
  · cases h

theorem turn_some {t : τ} {c : C} (h : p.next? i = some (t, c)) :
    ∃ k, p.tasks[i]? = some (t, cmd c k) ∧
      p.turn x i = ⟨(x c p.state).2, p.tasks.set i (t, k (x c p.state).1), ⟨i, c, (x c p.state).1⟩ :: p.log⟩ := by
  obtain ⟨k, hk⟩ := next?_some h
  exact ⟨k, hk, by unfold turn; rw [hk]⟩

theorem turn_none (h : p.next? i = none) : p.turn x i = p := by
  unfold next? at h
  unfold turn
  split at h
  · cases h
  · rfl

theorem play_keeps {guard : Pool τ C R ε α S → ℕ → τ → C → Prop} {J : Pool τ C R ε α S → Prop} {is : List ℕ}
    (hJ : ∀ p i t c, J p → p.next? i = some (t, c) → guard p i t c → J (p.turn x i)) (h : p.Meets x guard is) (h₀ : J p) :
    J (p.play x is) := by
  induction is generalizing p with
  | nil => exact h₀
  | cons i is ih =>
    refine ih h.2 ?_
    cases hn : p.next? i with
    | none =>
      rw [turn_none hn]
      exact h₀
    | some tc => exact hJ p i tc.1 tc.2 h₀ hn (h.1 tc hn)

theorem play_invariant {J : Pool τ C R ε α S → Prop}
    (hJ : ∀ p i t c, J p → p.next? i = some (t, c) → J (p.turn x i)) (h : J p) (is : List ℕ) : J (p.play x is) := by
  induction is generalizing p with
  | nil => exact h
  | cons i is ih =>
    refine ih ?_
    cases hn : p.next? i with
    | none =>
      rw [turn_none hn]
      exact h
    | some tc => exact hJ p i tc.1 tc.2 h hn

theorem play_append (is js : List ℕ) : p.play x (is ++ js) = (p.play x is).play x js := List.foldl_append

theorem meets_append {guard : Pool τ C R ε α S → ℕ → τ → C → Prop} {is js : List ℕ} :
    p.Meets x guard (is ++ js) ↔ p.Meets x guard is ∧ (p.play x is).Meets x guard js := by
  induction is generalizing p with
  | nil => simp [Meets, play]
  | cons i is ih =>
    simp only [List.cons_append, Meets, ih, and_assoc]
    rfl

/-- What a guarded schedule keeps holds after each of its beginnings. -/
theorem play_prefixes {guard : Pool τ C R ε α S → ℕ → τ → C → Prop} {J : Pool τ C R ε α S → Prop} {schedule : List ℕ}
    (hJ : ∀ p i t c, J p → p.next? i = some (t, c) → guard p i t c → J (p.turn x i)) (h : p.Meets x guard schedule) (h₀ : J p)
    {is js : List ℕ} (heq : schedule = is ++ js) : J (p.play x is) :=
  play_keeps hJ (meets_append.mp (heq ▸ h)).1 h₀

theorem meets_of_prefixes {guard : Pool τ C R ε α S → ℕ → τ → C → Prop} {J : Pool τ C R ε α S → Prop} {P : S → Prop}
    {schedule : List ℕ} (hJ : ∀ p i t c, J p → p.next? i = some (t, c) → J (p.turn x i))
    (hP : ∀ p i t c, J p → p.next? i = some (t, c) → P p.state → P (p.turn x i).state → guard p i t c) (h₀ : J p)
    (h : ∀ is js, schedule = is ++ js → P (p.play x is).state) : p.Meets x guard schedule := by
  induction schedule generalizing p with
  | nil => trivial
  | cons i schedule ih =>
    refine ⟨fun tc htc => hP p i tc.1 tc.2 h₀ htc (h [] _ rfl) (h [i] schedule rfl), ih ?_ fun is js heq => ?_⟩
    · cases hn : p.next? i with
      | none =>
        rw [turn_none hn]
        exact h₀
      | some tc => exact hJ p i tc.1 tc.2 h₀ hn
    · exact h (i :: is) js (by rw [heq, List.cons_append])

theorem meets_of_invariant {guard : Pool τ C R ε α S → ℕ → τ → C → Prop} {J : Pool τ C R ε α S → Prop}
    (hJ : ∀ p i t c, J p → p.next? i = some (t, c) → J (p.turn x i))
      (hguard : ∀ p i t c, J p → p.next? i = some (t, c) → guard p i t c)
    (h₀ : J p) (schedule : List ℕ) : p.Meets x guard schedule := by
  induction schedule generalizing p with
  | nil => trivial
  | cons i schedule ih =>
    refine ⟨fun tc htc => hguard p i tc.1 tc.2 h₀ htc, ih ?_⟩
    cases hn : p.next? i with
    | none =>
      rw [turn_none hn]
      exact h₀
    | some tc => exact hJ p i tc.1 tc.2 h₀ hn

theorem meets_imp {guard guard' : Pool τ C R ε α S → ℕ → τ → C → Prop} {J : Pool τ C R ε α S → Prop} {schedule : List ℕ}
    (hJ : ∀ p i t c, J p → p.next? i = some (t, c) → guard p i t c → J (p.turn x i))
    (himp : ∀ p i t c, J p → p.next? i = some (t, c) → guard p i t c → guard' p i t c) (h₀ : J p) (h : p.Meets x guard schedule) :
    p.Meets x guard' schedule := by
  induction schedule generalizing p with
  | nil => trivial
  | cons i schedule ih =>
    refine ⟨fun tc htc => himp p i tc.1 tc.2 h₀ htc (h.1 tc htc), ih ?_ h.2⟩
    cases hn : p.next? i with
    | none =>
      rw [turn_none hn]
      exact h₀
    | some tc => exact hJ p i tc.1 tc.2 h₀ hn (h.1 tc hn)

/-- Two guards that say the same wherever one of them was met so far. -/
theorem meets_congr {guard guard' : Pool τ C R ε α S → ℕ → τ → C → Prop} {J : Pool τ C R ε α S → Prop} {schedule : List ℕ}
    (hJ : ∀ p i t c, J p → p.next? i = some (t, c) → guard p i t c → J (p.turn x i))
    (hiff : ∀ p i t c, J p → p.next? i = some (t, c) → (guard p i t c ↔ guard' p i t c)) (h₀ : J p) :
    p.Meets x guard schedule ↔ p.Meets x guard' schedule := by
  induction schedule generalizing p with
  | nil => exact Iff.rfl
  | cons i schedule ih =>
    unfold Meets
    cases hn : p.next? i with
    | none =>
      rw [turn_none hn, ih h₀]
      simp
    | some tc =>
      have hhere := hiff p i tc.1 tc.2 h₀ hn
      simp only [Option.mem_def, Option.some.injEq, forall_eq']
      rw [← hhere]
      exact and_congr_right fun hg => ih (hJ p i tc.1 tc.2 h₀ hn hg)

/-- A property that is only lost by a step that misses the guard, and then for good. -/
theorem meets_iff_kept {guard : Pool τ C R ε α S → ℕ → τ → C → Prop} {J : Pool τ C R ε α S → Prop} {P : S → Prop}
    {schedule : List ℕ} (hJ : ∀ p i t c, J p → p.next? i = some (t, c) → J (p.turn x i))
    (hP : ∀ p i t c, J p → p.next? i = some (t, c) → (guard p i t c ∧ P p.state ↔ P (p.turn x i).state)) (h₀ : J p) :
    p.Meets x guard schedule ∧ P p.state ↔ P (p.play x schedule).state := by
  induction schedule generalizing p with
  | nil => simp [Meets, play]
  | cons i schedule ih =>
    have hplay : p.play x (i :: schedule) = (p.turn x i).play x schedule := rfl
    rw [hplay]
    unfold Meets
    cases hn : p.next? i with
    | none =>
      rw [turn_none hn, ← ih h₀]
      simp
    | some tc =>
      rw [← ih (hJ p i tc.1 tc.2 h₀ hn), ← hP p i tc.1 tc.2 h₀ hn]
      simp only [Option.mem_def, Option.some.injEq, forall_eq']
      tauto

theorem play_log {is : List ℕ} {e : Event C R} (he : e ∈ (p.play x is).log) :
    e ∈ p.log ∨ ∃ js ks t, is = js ++ e.task :: ks ∧
    (p.play x js).next? e.task = some (t, e.command) ∧ e.answer = (x e.command (p.play x js).state).1 := by
  induction is generalizing p with
  | nil => exact .inl he
  | cons i is ih =>
    rcases ih he with hlog | ⟨js, ks, t, rfl, hnext, hanswer⟩
    · cases hn : p.next? i with
      | none =>
        rw [turn_none hn] at hlog
        exact .inl hlog
      | some tc =>
        obtain ⟨t, c⟩ := tc
        obtain ⟨k, -, hturn⟩ := turn_some (x := x) hn
        rw [hturn] at hlog
        rcases List.mem_cons.mp hlog with rfl | hlog
        · exact .inr ⟨[], is, t, rfl, hn, rfl⟩
        · exact .inl hlog
    · exact .inr ⟨i :: js, ks, t, rfl, hnext, hanswer⟩

theorem labels_turn (p : Pool τ C R ε α S) (i : ℕ) : (p.turn x i).tasks.map Prod.fst = p.tasks.map Prod.fst := by
  cases hn : p.next? i with
  | none => rw [turn_none hn]
  | some tc =>
    obtain ⟨k, htask, hturn⟩ := turn_some (x := x) hn
    rw [hturn]
    obtain ⟨hi, hget⟩ := List.getElem?_eq_some_iff.mp htask
    have hi' : i < (p.tasks.map Prod.fst).length := by simpa using hi
    have hself : (p.tasks.map Prod.fst).set i (p.tasks.map Prod.fst)[i] = p.tasks.map Prod.fst := List.set_getElem_self hi'
    simpa [hget] using hself

theorem labels_play (p : Pool τ C R ε α S) (is : List ℕ) : (p.play x is).tasks.map Prod.fst = p.tasks.map Prod.fst := by
  refine play_invariant (J := fun q => q.tasks.map Prod.fst = p.tasks.map Prod.fst) (fun q i _ _ hq _ => ?_) rfl is
  rw [labels_turn, hq]

end Pool

/-! ## Commands that depend on earlier answers -/

/-- The commands a task has issued with their answers, latest first. -/
abbrev History (C : Type) (R : C → Type) := List ((c : C) × R c)

/-- Whatever it is answered, the program issues commands allowed after its history, and ends
with `Q`. -/
def Issues (allows : History C R → C → Prop) (Q : α → History C R → Prop) : Prog C R ε α → History C R → Prop
  | pure a, h => Q a h
  | fail _, _ => True
  | cmd c k, h => allows h c ∧ ∀ r, Issues allows Q (k r) (⟨c, r⟩ :: h)

section Issues
variable {allows : History C R → C → Prop}

theorem Issues.seq {p : Prog C R ε α} {f : α → Prog C R ε β} {P : α → History C R → Prop} {Q : β → History C R → Prop}
    {h : History C R} (hp : p.Issues allows P h) (hf : ∀ a h', P a h' → (f a).Issues allows Q h') :
    (p >>= f).Issues allows Q h := by
  rw [bind_eq]
  induction p generalizing h with
  | pure a => exact hf a h hp
  | fail e => trivial
  | cmd c k ih => exact ⟨hp.1, fun r => ih r (hp.2 r)⟩

theorem Issues.mapError {ε' : Type} {f : ε → ε'} {p : Prog C R ε α} {Q : α → History C R → Prop} {h : History C R}
    (hp : p.Issues allows Q h) : (p.mapError f).Issues allows Q h := by
  induction p generalizing h with
  | pure a => exact hp
  | fail e => trivial
  | cmd c k ih => exact ⟨hp.1, fun r => ih r (hp.2 r)⟩

theorem Issues.attempt {ε' : Type} {p : Prog C R ε α} {Q : α → History C R → Prop} {h : History C R}
    (hp : p.Issues allows Q h) : (p.attempt : Prog C R ε' _).Issues allows (fun _ _ => True) h := by
  induction p generalizing h with
  | pure a => trivial
  | fail e => trivial
  | cmd c k ih => exact ⟨hp.1, fun r => ih r (hp.2 r)⟩

theorem Issues.imp {p : Prog C R ε α} {P Q : α → History C R → Prop} {h : History C R} (hp : p.Issues allows P h)
    (hPQ : ∀ a h', P a h' → Q a h') : p.Issues allows Q h := by
  induction p generalizing h with
  | pure a => exact hPQ a h hp
  | fail e => trivial
  | cmd c k ih => exact ⟨hp.1, fun r => ih r (hp.2 r)⟩

theorem Issues.mono {allows' : History C R → C → Prop} {p : Prog C R ε α} {Q : α → History C R → Prop} {h : History C R}
    (hp : p.Issues allows Q h) (hallows : ∀ h c, allows h c → allows' h c) : p.Issues allows' Q h := by
  induction p generalizing h with
  | pure a => exact hp
  | fail e => trivial
  | cmd c k ih => exact ⟨hallows h c hp.1, fun r => ih r (hp.2 r)⟩

/-- A program of commands that are always allowed only lengthens its history by such. -/
theorem Only.issues {P : C → Prop} (hP : ∀ h c, P c → allows h c) {p : Prog C R ε α} (hp : p.Only P) (h : History C R) :
    p.Issues allows (fun _ h' => ∃ more, h' = more ++ h ∧ ∀ e ∈ more, P e.1) h := by
  induction p generalizing h with
  | pure a => exact ⟨[], rfl, by simp⟩
  | fail e => trivial
  | cmd c k ih =>
    refine ⟨hP h c hp.1, fun r => (ih r (hp.2 r) _).imp ?_⟩
    rintro a h' ⟨more, rfl, hmore⟩
    refine ⟨more ++ [⟨c, r⟩], by simp, fun e he => ?_⟩
    rcases List.mem_append.mp he with he | he
    · exact hmore e he
    · rw [List.mem_singleton.mp he]
      exact hp.1

theorem Only.issues_within {P : C → Prop} {I : History C R → Prop} (hP : ∀ h c, P c → I h → allows h c)
    (hI : ∀ h c r, P c → I h → I (⟨c, r⟩ :: h)) {p : Prog C R ε α} (hp : p.Only P) {h : History C R} (hh : I h) :
    p.Issues allows (fun _ h' => I h') h := by
  induction p generalizing h with
  | pure a => exact hh
  | fail e => trivial
  | cmd c k ih => exact ⟨hP h c hp.1 hh, fun r => ih r (hp.2 r) (hI h c r hp.1 hh)⟩

theorem Issues.and {allows' : History C R → C → Prop} {p : Prog C R ε α} {Q Q' : α → History C R → Prop} {h : History C R}
    (hp : p.Issues allows Q h) (hp' : p.Issues allows' Q' h) :
    p.Issues (fun h c => allows h c ∧ allows' h c) (fun a h' => Q a h' ∧ Q' a h') h := by
  induction p generalizing h with
  | pure a => exact ⟨hp, hp'⟩
  | fail e => trivial
  | cmd c k ih => exact ⟨⟨hp.1, hp'.1⟩, fun r => ih r (hp.2 r) (hp'.2 r)⟩

/-- What every command keeps that the program may issue, the run keeps. -/
theorem Issues.run_keeps {p : Prog C R ε α} {Q : α → History C R → Prop} {h : History C R} (hp : p.Issues allows Q h)
    (x : Exec C R S) {J : S → Prop} (hJ : ∀ h c s, allows h c → J s → J (x c s).2) {s : S} (hs : J s) : J (p.run x s).2 := by
  induction p generalizing h s with
  | pure a => exact hs
  | fail e => exact hs
  | cmd c k ih => exact ih _ (hp.2 _) (hJ h c s hp.1 hs)

/-- What commands keep that are issued after answers, where an answer says something that holds when it
is given and from then on. -/
theorem reach_issues {x : Exec C R S} {entry : τ → Prog C R ε α → Prop} {guard : τ → S → C → Prop} {s₀ : S}
    {cfg : Config τ C R ε α S} {allows : τ → History C R → C → Prop} {holds : (c : C) × R c → S → Prop} {J : S → Prop}
    (hentry : ∀ t p, entry t p → p.Issues (allows t) (fun _ _ => True) [])
    (hanswer : ∀ c s, holds ⟨c, (x c s).1⟩ (x c s).2) (hstable : ∀ e c s, holds e s → holds e (x c s).2)
    (hJ : ∀ t h c s, J s → allows t h c → (∀ e ∈ h, holds e s) → J (x c s).2) (h : Reach x entry guard s₀ cfg) (h₀ : J s₀) :
    J cfg.state := by
  suffices hall : J cfg.state ∧ ∀ tp ∈ cfg.tasks, ∃ h : History C R, (∀ e ∈ h, holds e cfg.state) ∧
      tp.2.Issues (allows tp.1) (fun _ _ => True) h from hall.1
  induction h with
  | refl => exact ⟨h₀, by simp⟩
  | tail _ hstep ih =>
    obtain ⟨hs, htasks⟩ := ih
    cases hstep with
    | spawn hp =>
      refine ⟨hs, fun tp htp => ?_⟩
      rcases List.mem_append.mp htp with htp | htp
      · exact htasks tp htp
      · rw [List.mem_singleton.mp htp]
        exact ⟨[], by simp, hentry _ _ hp⟩
    | @exec s ts i t c k hi hg =>
      obtain ⟨h, hholds, hissues⟩ := htasks _ (List.mem_of_getElem? hi)
      refine ⟨hJ t h c s hs hissues.1 hholds, fun tp htp => ?_⟩
      rcases List.mem_or_eq_of_mem_set htp with htp | rfl
      · obtain ⟨h', hholds', hissues'⟩ := htasks tp htp
        exact ⟨h', fun e he => hstable e c s (hholds' e he), hissues'⟩
      · refine ⟨⟨c, (x c s).1⟩ :: h, List.forall_mem_cons.mpr ⟨hanswer c s, fun e he => hstable e c s (hholds e he)⟩, ?_⟩
        exact hissues.2 _

end Issues

/-! ## What a program has become -/

def Ran (p₀ : Prog C R ε α) : History C R → Prog C R ε α → Prop
  | [], p => p = p₀
  | ⟨c, r⟩ :: h, p => ∃ k, Ran p₀ h (cmd c k) ∧ p = k r

theorem ran_cmd {c : C} {k : R c → Prog C R ε α} {h : History C R} {p : Prog C R ε α} (hran : Ran (cmd c k) h p) :
    h = [] ∧ p = cmd c k ∨ ∃ r h', h = h' ++ [⟨c, r⟩] ∧ Ran (k r) h' p := by
  induction h generalizing p with
  | nil => exact .inl ⟨rfl, hran⟩
  | cons e h ih =>
    obtain ⟨k', hran', rfl⟩ := hran
    rcases ih hran' with ⟨rfl, heq⟩ | ⟨r, h', rfl, hrest⟩
    · cases heq
      exact .inr ⟨e.2, [], rfl, rfl⟩
    · exact .inr ⟨r, e :: h', rfl, k', hrest, rfl⟩

theorem ran_pure {a : α} {h : History C R} {p : Prog C R ε α} (hran : Ran (pure a) h p) : h = [] ∧ p = pure a := by
  induction h generalizing p with
  | nil => exact ⟨rfl, hran⟩
  | cons e h ih =>
    obtain ⟨k, hran', -⟩ := hran
    cases (ih hran').2

theorem ran_fail {e : ε} {h : History C R} {p : Prog C R ε α} (hran : Ran (fail e) h p) : h = [] ∧ p = fail e := by
  induction h generalizing p with
  | nil => exact ⟨rfl, hran⟩
  | cons e h ih =>
    obtain ⟨k, hran', -⟩ := hran
    cases (ih hran').2

theorem Only.ran {P : C → Prop} {p₀ p : Prog C R ε α} {h : History C R} (hp : p₀.Only P) (hran : Ran p₀ h p) :
    p.Only P ∧ ∀ e ∈ h, P e.1 := by
  induction h generalizing p with
  | nil =>
    cases hran
    exact ⟨hp, by simp⟩
  | cons e h ih =>
    obtain ⟨k, hran', rfl⟩ := hran
    obtain ⟨honly, hpast⟩ := ih hran'
    exact ⟨honly.2 _, List.forall_mem_cons.mpr ⟨honly.1, hpast⟩⟩

namespace Pool
variable {x : Exec C R S}

/-- What one task has seen of the log. -/
def seen (log : List (Event C R)) (i : ℕ) : History C R :=
  log.filterMap fun e => if e.task = i then some ⟨e.command, e.answer⟩ else none

theorem mem_seen {log : List (Event C R)} {e : Event C R} (h : e ∈ log) :
    (⟨e.command, e.answer⟩ : (c : C) × R c) ∈ seen log e.task :=
  List.mem_filterMap.mpr ⟨e, h, if_pos rfl⟩

theorem seen_split {log : List (Event C R)} {i : ℕ} {newer older : History C R} {c : C} {r : R c}
    (h : seen log i = newer ++ ⟨c, r⟩ :: older) :
    ∃ before after, log = before ++ ⟨i, c, r⟩ :: after ∧ seen before i = newer ∧ seen after i = older := by
  obtain ⟨before, rest, rfl, hbefore, hrest⟩ := List.filterMap_eq_append_iff.mp h
  obtain ⟨skipped, e, after, rfl, hskipped, he, hafter⟩ := List.filterMap_eq_cons_iff.mp hrest
  obtain ⟨j, c', r'⟩ := e
  split at he
  · rename_i hj
    obtain rfl : j = i := hj
    cases he
    refine ⟨before ++ skipped, after, by simp, ?_, hafter⟩
    rw [seen, List.filterMap_append, hbefore, List.filterMap_eq_nil_iff.mpr hskipped, List.append_nil]
  · cases he

/-- Every task still issues what its label allows after what it has seen. -/
def Obeys (allows : τ → History C R → C → Prop) (p : Pool τ C R ε α S) : Prop :=
  ∀ (i : ℕ) (tp : τ × Prog C R ε α), p.tasks[i]? = some tp → tp.2.Issues (allows tp.1) (fun _ _ => True) (seen p.log i)

theorem Obeys.allowed {allows : τ → History C R → C → Prop} {p : Pool τ C R ε α S} (h : p.Obeys allows) {i : ℕ} {t : τ}
    {c : C} (hn : p.next? i = some (t, c)) : allows t (seen p.log i) c := by
  obtain ⟨k, htask⟩ := next?_some hn
  exact (h i _ htask).1

theorem Obeys.mono {allows allows' : τ → History C R → C → Prop} {p : Pool τ C R ε α S} (h : p.Obeys allows)
    (hallows : ∀ t h c, allows t h c → allows' t h c) : p.Obeys allows' := fun i tp hi => (h i tp hi).mono (hallows tp.1)

theorem Obeys.turn {allows : τ → History C R → C → Prop} {p : Pool τ C R ε α S} (h : p.Obeys allows) (i : ℕ) :
    (p.turn x i).Obeys allows := by
  cases hn : p.next? i with
  | none =>
    rw [turn_none hn]
    exact h
  | some tc =>
    obtain ⟨k, htask, hturn⟩ := turn_some (x := x) hn
    rw [hturn]
    intro j tp hj
    by_cases hij : i = j
    · subst hij
      rw [List.getElem?_set_self (List.getElem?_eq_some_iff.mp htask).1] at hj
      cases hj
      simpa [seen] using (h i _ htask).2 _
    · rw [List.getElem?_set_ne hij] at hj
      simpa [seen, hij] using h j tp hj

theorem Obeys.start {allows : τ → History C R → C → Prop} {s : S} {tasks : List (τ × Prog C R ε α)}
    (h : ∀ tp ∈ tasks, tp.2.Issues (allows tp.1) (fun _ _ => True) []) : (Pool.start s tasks).Obeys allows :=
  fun _ tp hi => h tp (List.mem_of_getElem? hi)

/-- What commands keep that go by answers, where every answer given is `good`. -/
theorem Obeys.play_good {allows : τ → History C R → C → Prop} {good : (c : C) × R c → Prop} {J : S → Prop}
    (hanswer : ∀ c s, J s → good ⟨c, (x c s).1⟩) (hJ : ∀ t h c s, allows t h c → (∀ e ∈ h, good e) → J s → J (x c s).2)
    {p : Pool τ C R ε α S} (h : p.Obeys allows) (hlog : p.log = []) (hs : J p.state) (is : List ℕ) :
    J (p.play x is).state ∧ ∀ e ∈ (p.play x is).log, good ⟨e.command, e.answer⟩ := by
  let K (q : Pool τ C R ε α S) : Prop := q.Obeys allows ∧ J q.state ∧ ∀ e ∈ q.log, good ⟨e.command, e.answer⟩
  have hplayed : K (p.play x is) := by
    refine play_invariant (fun q i t c hq hn => ?_) ⟨h, hs, by simp [hlog]⟩ is
    obtain ⟨hobeys, hstate, hgood⟩ := hq
    obtain ⟨k, -, hturn⟩ := turn_some (x := x) hn
    refine ⟨hobeys.turn i, ?_, ?_⟩
    · rw [hturn]
      refine hJ t _ c q.state (hobeys.allowed hn) (fun e he => ?_) hstate
      obtain ⟨event, hevent, heq⟩ := List.mem_filterMap.mp he
      split at heq
      · cases heq
        exact hgood event hevent
      · cases heq
    · rw [hturn]
      exact List.forall_mem_cons.mpr ⟨hanswer c q.state hstate, hgood⟩
  exact hplayed.2

theorem Obeys.play_keeps {allows : τ → History C R → C → Prop} {good : (c : C) × R c → Prop} {J : S → Prop}
    (hanswer : ∀ c s, J s → good ⟨c, (x c s).1⟩) (hJ : ∀ t h c s, allows t h c → (∀ e ∈ h, good e) → J s → J (x c s).2)
    {p : Pool τ C R ε α S} (h : p.Obeys allows) (hlog : p.log = []) (hs : J p.state) (is : List ℕ) : J (p.play x is).state :=
  (h.play_good hanswer hJ hlog hs is).1

/-- A task is what its program has become on what it has seen. -/
structure Remembers (start : List (τ × Prog C R ε α)) (p : Pool τ C R ε α S) : Prop where
  ran : ∀ (i : ℕ) (tp : τ × Prog C R ε α), p.tasks[i]? = some tp → ∃ p₀, start[i]? = some (tp.1, p₀) ∧ Ran p₀ (seen p.log i) tp.2
  known : ∀ e ∈ p.log, e.task < p.tasks.length

theorem remembers_start (s : S) (tasks : List (τ × Prog C R ε α)) : (Pool.start s tasks).Remembers tasks :=
  ⟨fun _ tp hi => ⟨tp.2, hi, rfl⟩, fun _ he => absurd he List.not_mem_nil⟩

theorem Remembers.turn {start : List (τ × Prog C R ε α)} {p : Pool τ C R ε α S} (h : p.Remembers start) (i : ℕ) :
    (p.turn x i).Remembers start := by
  cases hn : p.next? i with
  | none =>
    rw [turn_none hn]
    exact h
  | some tc =>
    obtain ⟨k, htask, hturn⟩ := turn_some (x := x) hn
    rw [hturn]
    refine ⟨fun j tp hj => ?_, fun e he => ?_⟩
    · by_cases hij : i = j
      · subst hij
        rw [List.getElem?_set_self (List.getElem?_eq_some_iff.mp htask).1] at hj
        cases hj
        obtain ⟨p₀, hp₀, hran⟩ := h.ran i _ htask
        exact ⟨p₀, hp₀, by simpa [seen] using ⟨k, hran, rfl⟩⟩
      · rw [List.getElem?_set_ne hij] at hj
        simpa [seen, hij] using h.ran j tp hj
    · rw [List.length_set]
      rcases List.mem_cons.mp he with rfl | he
      · exact (List.getElem?_eq_some_iff.mp htask).1
      · exact h.known e he

theorem Remembers.author {start : List (τ × Prog C R ε α)} {p : Pool τ C R ε α S} (h : p.Remembers start) {e : Event C R}
    (he : e ∈ p.log) : ∃ tp p₀, p.tasks[e.task]? = some tp ∧ start[e.task]? = some (tp.1, p₀) ∧
      Ran p₀ (seen p.log e.task) tp.2 := by
  obtain ⟨tp, htask⟩ : ∃ tp, p.tasks[e.task]? = some tp := ⟨_, List.getElem?_eq_getElem (h.known e he)⟩
  obtain ⟨p₀, hp₀, hran⟩ := h.ran e.task tp htask
  exact ⟨tp, p₀, htask, hp₀, hran⟩

end Pool
end Prog
