import CognitiveMemory.Lib.Prog

/-! Rules for uninterrupted runs: what one run of a program ends in, and what two runs of it
from two states have in common. -/

namespace Prog
variable {C : Type} {R : C → Type} {ε ε' α β S : Type} {x : Exec C R S}

/-- The run ends with a value and a state in `Q`, or with an error in `E`. -/
def wp (x : Exec C R S) (Q : α → S → Prop) (E : ε → Prop) : Prog C R ε α → S → Prop
  | pure a, s => Q a s
  | fail e, _ => E e
  | cmd c k, s => wp x Q E (k (x c s).1) (x c s).2

section
variable {Q : α → S → Prop} {E : ε → Prop} {s : S}

theorem wp_run {p : Prog C R ε α} : p.wp x Q E s ↔
    (∀ a s', p.run x s = (.ok a, s') → Q a s') ∧ ∀ e s', p.run x s = (.error e, s') → E e := by
  induction p generalizing s with
  | pure a => simp [wp]
  | fail e => simp [wp]
  | cmd c k ih => exact ih _

theorem wp_ok {p : Prog C R ε α} {a : α} (h : p.wp x Q E s) (hrun : (p.run x s).1 = .ok a) : Q a (p.run x s).2 :=
  (wp_run.mp h).1 a _ (Prod.ext hrun rfl)

theorem wp_total {p : Prog C R ε α} (h : p.wp x Q E s) (hE : ∀ e, ¬ E e) :
    ∃ a, (p.run x s).1 = .ok a ∧ Q a (p.run x s).2 := by
  obtain ⟨hok, herr⟩ := wp_run.mp h
  cases hrun : p.run x s with
  | mk answer s' =>
    cases answer with
    | ok a => exact ⟨a, rfl, hok a s' hrun⟩
    | error e => exact absurd (herr e s' hrun) (hE e)

theorem wp.imp {Q' : α → S → Prop} {p : Prog C R ε α} (h : p.wp x Q E s) (hQ : ∀ a s', Q a s' → Q' a s') :
    p.wp x Q' E s := by
  induction p generalizing s with
  | pure a => exact hQ a s h
  | fail e => exact h
  | cmd c k ih => exact ih _ h

theorem wp.imp_error {E' : ε → Prop} {p : Prog C R ε α} (h : p.wp x Q E s) (hE : ∀ e, E e → E' e) : p.wp x Q E' s := by
  induction p generalizing s with
  | pure a => exact h
  | fail e => exact hE e h
  | cmd c k ih => exact ih _ h

theorem wp.seq {p : Prog C R ε α} {f : α → Prog C R ε β} {P : α → S → Prop} {Q : β → S → Prop} (hp : p.wp x P E s)
    (hf : ∀ a s', P a s' → (f a).wp x Q E s') : (p >>= f).wp x Q E s := by
  rw [bind_eq]
  induction p generalizing s with
  | pure a => exact hf a s hp
  | fail e => exact hp
  | cmd c k ih => exact ih _ hp

theorem wp.mapError {E' : ε' → Prop} {f : ε → ε'} {p : Prog C R ε α} (h : p.wp x Q E s) (hE : ∀ e, E e → E' (f e)) :
    (p.mapError f).wp x Q E' s := by
  induction p generalizing s with
  | pure a => exact h
  | fail e => exact hE e h
  | cmd c k ih => exact ih _ h

theorem wp.and {Q' : α → S → Prop} {p : Prog C R ε α} (h : p.wp x Q E s) (h' : p.wp x Q' E s) :
    p.wp x (fun a s' => Q a s' ∧ Q' a s') E s := by
  induction p generalizing s with
  | pure a => exact ⟨h, h'⟩
  | fail e => exact h
  | cmd c k ih => exact ih _ h h'

theorem Only.wp {P : C → Prop} {p : Prog C R ε α} (hp : p.Only P) {J : S → Prop}
    (hJ : ∀ c s, P c → J s → J (x c s).2) (h : J s) :
    p.wp x (fun _ s' => J s') (fun _ => True) s := by
  induction p generalizing s with
  | pure a => exact h
  | fail e => trivial
  | cmd c k ih => exact ih _ (hp.2 _) (hJ c s hp.1 h)

theorem wp_ofExcept {r : Except ε α} (hok : ∀ a, r = .ok a → Q a s) (herr : ∀ e, r = .error e → E e) :
    (ofExcept r : Prog C R ε α).wp x Q E s := by
  cases r with
  | ok a => exact hok a rfl
  | error e => exact herr e rfl

end

/-! ## Outcomes -/

/-- The run ends with an answer and a state in `Q`. -/
def ends (x : Exec C R S) (Q : Except ε α → S → Prop) : Prog C R ε α → S → Prop
  | pure a, s => Q (.ok a) s
  | fail e, s => Q (.error e) s
  | cmd c k, s => ends x Q (k (x c s).1) (x c s).2

section
variable {Q : Except ε α → S → Prop} {s : S}

theorem ends_run {p : Prog C R ε α} : p.ends x Q s ↔ Q (p.run x s).1 (p.run x s).2 := by
  induction p generalizing s with
  | pure a => exact Iff.rfl
  | fail e => exact Iff.rfl
  | cmd c k ih => exact ih _

theorem ends_ofExcept {r : Except ε α} : (ofExcept r : Prog C R ε α).ends x Q s ↔ Q r s := by cases r <;> rfl

theorem ends.imp {Q' : Except ε α → S → Prop} {p : Prog C R ε α} (h : p.ends x Q s) (hQ : ∀ r s', Q r s' → Q' r s') :
    p.ends x Q' s := ends_run.mpr (hQ _ _ (ends_run.mp h))

theorem ends.seq {p : Prog C R ε α} {f : α → Prog C R ε β} {P : Except ε α → S → Prop} {Q : Except ε β → S → Prop}
    (hp : p.ends x P s) (hok : ∀ a s', P (.ok a) s' → (f a).ends x Q s') (herr : ∀ e s', P (.error e) s' → Q (.error e) s') :
    (p >>= f).ends x Q s := by
  rw [bind_eq]
  induction p generalizing s with
  | pure a => exact hok a s hp
  | fail e => exact herr e s hp
  | cmd c k ih => exact ih _ hp

theorem ends.mapError {f : ε → ε'} {p : Prog C R ε α} {Q : Except ε' α → S → Prop}
    (h : p.ends x (fun r => Q (r.mapError f)) s) : (p.mapError f).ends x Q s := by
  induction p generalizing s with
  | pure a => exact h
  | fail e => exact h
  | cmd c k ih => exact ih _ h

theorem Only.ends {P : C → Prop} {p : Prog C R ε α} (hp : p.Only P) {J : S → Prop} (hJ : ∀ c s, P c → J s → J (x c s).2)
    (h : J s) : p.ends x (fun _ => J) s := ends_run.mpr (hp.run_keeps x hJ h)

end
/-! ## Every state on the way -/

/-- Every command leaves a state in `J`, and the run ends with an answer and a state in `Q`. -/
def stays (x : Exec C R S) (J : S → Prop) (Q : Except ε α → S → Prop) : Prog C R ε α → S → Prop
  | pure a, s => Q (.ok a) s
  | fail e, s => Q (.error e) s
  | cmd c k, s => J (x c s).2 ∧ stays x J Q (k (x c s).1) (x c s).2

section
variable {J : S → Prop} {Q : Except ε α → S → Prop} {s : S}

theorem stays.imp {J' : S → Prop} {Q' : Except ε α → S → Prop} {p : Prog C R ε α} (h : p.stays x J Q s)
    (hJ : ∀ s', J s' → J' s') (hQ : ∀ r s', Q r s' → Q' r s') : p.stays x J' Q' s := by
  induction p generalizing s with
  | pure a => exact hQ _ s h
  | fail e => exact hQ _ s h
  | cmd c k ih => exact ⟨hJ _ h.1, ih _ h.2⟩

theorem stays.seq {p : Prog C R ε α} {f : α → Prog C R ε β} {P : Except ε α → S → Prop} {Q : Except ε β → S → Prop}
    (hp : p.stays x J P s) (hok : ∀ a s', P (.ok a) s' → (f a).stays x J Q s')
      (herr : ∀ e s', P (.error e) s' → Q (.error e) s') :
    (p >>= f).stays x J Q s := by
  rw [bind_eq]
  induction p generalizing s with
  | pure a => exact hok a s hp
  | fail e => exact herr e s hp
  | cmd c k ih => exact ⟨hp.1, ih _ hp.2⟩

theorem Only.stays {P : C → Prop} {p : Prog C R ε α} (hp : p.Only P) (hJ : ∀ c s, P c → J s → J (x c s).2) (h : J s) :
    p.stays x J (fun _ => J) s := by
  induction p generalizing s with
  | pure a => exact h
  | fail e => exact h
  | cmd c k ih => exact ⟨hJ c s hp.1 h, ih _ (hp.2 _) (hJ c s hp.1 h)⟩

theorem stays.runFor {p : Prog C R ε α} (h : p.stays x J Q s) (hs : J s) (n : ℕ) : J (p.runFor x n s) := by
  induction p generalizing s n with
  | pure a => rwa [runFor_pure]
  | fail e => rwa [runFor_fail]
  | cmd c k ih =>
    cases n with
    | zero => exact hs
    | succ n => exact ih _ h.2 h.1 n

end
end Prog
