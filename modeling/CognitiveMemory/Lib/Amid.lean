import CognitiveMemory.Lib.Rely
import CognitiveMemory.Lib.Wp

/-! Programs at work among others: how they end whatever becomes of the state between two commands,
and that they leave the others alone in turn. -/

namespace Prog
variable {C : Type} {R : C → Type} {ε ε' α β τ S : Type}

/-- However the others move the state, the program ends with an answer and a state in `Q`. -/
def Amid (x : Exec C R S) (K : Rely S) (Q : Except ε α → S → Prop) : Prog C R ε α → S → Prop
  | pure a, s => ∀ s', K.rel s s' → Q (.ok a) s'
  | fail e, s => ∀ s', K.rel s s' → Q (.error e) s'
  | cmd c k, s => ∀ s', K.rel s s' → Amid x K Q (k (x c s').1) (x c s').2

variable {x : Exec C R S} {K : Rely S} {Q : Except ε α → S → Prop} {s s' : S}

theorem Amid.mono {p : Prog C R ε α} (h : p.Amid x K Q s) (hr : K.rel s s') : p.Amid x K Q s' := by
  cases p with
  | pure a => exact fun s'' hr' => h s'' (K.trans hr hr')
  | fail e => exact fun s'' hr' => h s'' (K.trans hr hr')
  | cmd c k => exact fun s'' hr' => h s'' (K.trans hr hr')

theorem Amid.imp {Q' : Except ε α → S → Prop} {p : Prog C R ε α} (h : p.Amid x K Q s) (hQ : ∀ r s', Q r s' → Q' r s') :
    p.Amid x K Q' s := by
  induction p generalizing s with
  | pure a => exact fun s' hr => hQ _ s' (h s' hr)
  | fail e => exact fun s' hr => hQ _ s' (h s' hr)
  | cmd c k ih => exact fun s' hr => ih _ (h s' hr)

theorem Amid.seq {p : Prog C R ε α} {f : α → Prog C R ε β} {P : Except ε α → S → Prop} {Q : Except ε β → S → Prop}
    (hp : p.Amid x K P s) (hok : ∀ a s', P (.ok a) s' → (f a).Amid x K Q s')
    (herr : ∀ e s', P (.error e) s' → Q (.error e) s') : (p >>= f).Amid x K Q s := by
  rw [bind_eq]
  induction p generalizing s with
  | pure a => exact hok a s (hp s (K.refl s))
  | fail e => exact fun s' hr => herr e s' (hp s' hr)
  | cmd c k ih => exact fun s' hr => ih _ (hp s' hr)

theorem Amid.mapError {f : ε → ε'} {p : Prog C R ε α} {Q : Except ε' α → S → Prop}
    (h : p.Amid x K (fun r => Q (r.mapError f)) s) : (p.mapError f).Amid x K Q s := by
  induction p generalizing s with
  | pure a => exact h
  | fail e => exact h
  | cmd c k ih => exact fun s' hr => ih _ (h s' hr)

/-- A single command ends as it does alone, in whatever state the others leave it. -/
theorem amid_single {c : C} {k : R c → Prog C R ε α} (hk : ∀ r, ∃ answer, k r = ofExcept answer)
    (h : ∀ s', K.rel s s' → (cmd c k).ends x (fun answer s₁ => ∀ s₂, K.rel s₁ s₂ → Q answer s₂) s') : (cmd c k).Amid x K Q s := by
  intro s' hr
  have hends : (k (x c s').1).ends x (fun answer s₁ => ∀ s₂, K.rel s₁ s₂ → Q answer s₂) (x c s').2 := h s' hr
  obtain ⟨answer, hanswer⟩ := hk (x c s').1
  rw [hanswer] at hends ⊢
  cases answer with
  | ok a => exact hends
  | error e => exact hends

theorem amid_any (p : Prog C R ε α) (s : S) : p.Amid x K (fun _ _ => True) s := by
  induction p generalizing s with
  | pure a => exact fun _ _ => trivial
  | fail e => exact fun _ _ => trivial
  | cmd c k ih => exact fun s' _ => ih _ _

theorem Only.amid {P : C → Prop} {p : Prog C R ε α} (hp : p.Only P) {J : S → Prop} (hrel : ∀ s s', K.rel s s' → J s → J s')
    (hJ : ∀ c s, P c → J s → J (x c s).2) (h : J s) : p.Amid x K (fun _ => J) s := by
  induction p generalizing s with
  | pure a => exact fun s' hr => hrel s s' hr h
  | fail e => exact fun s' hr => hrel s s' hr h
  | cmd c k ih => exact fun s' hr => ih _ (hp.2 _) (hJ c s' hp.1 (hrel s s' hr h))

theorem Amid.ended {r : Except ε α} (h : (ofExcept r : Prog C R ε α).Amid x K Q s) : Q r s := by
  cases r with
  | ok a => exact h s (K.refl s)
  | error e => exact h s (K.refl s)

/-- However the others move the state, the program moves it no otherwise itself. -/
def Abides (x : Exec C R S) (K : Rely S) : Prog C R ε α → S → Prop
  | pure _, _ | fail _, _ => True
  | cmd c k, s => ∀ s', K.rel s s' → K.rel s' (x c s').2 ∧ Abides x K (k (x c s').1) (x c s').2

theorem Abides.mono {p : Prog C R ε α} (h : p.Abides x K s) (hr : K.rel s s') : p.Abides x K s' := by
  cases p with
  | pure | fail => trivial
  | cmd c k => exact fun s'' hr' => h s'' (K.trans hr hr')

theorem Only.abides {P : C → Prop} {p : Prog C R ε α} (hp : p.Only P) (hP : ∀ c s, P c → K.rel s (x c s).2) :
    p.Abides x K s := by
  induction p generalizing s with
  | pure | fail => trivial
  | cmd c k ih => exact fun s' _ => ⟨hP c s' hp.1, ih _ (hp.2 _)⟩

theorem Abides.seq {p : Prog C R ε α} {f : α → Prog C R ε β} {P : Except ε α → S → Prop} (hp : p.Abides x K s)
    (hend : p.Amid x K P s) (hf : ∀ a s', P (.ok a) s' → (f a).Abides x K s') : (p >>= f).Abides x K s := by
  rw [bind_eq]
  induction p generalizing s with
  | pure a => exact hf a s (hend s (K.refl s))
  | fail e => trivial
  | cmd c k ih => exact fun s' hr => ⟨(hp s' hr).1, ih _ (hp s' hr).2 (hend s' hr)⟩

namespace Pool
variable {p : Pool τ C R ε α S}

/-- Tasks that leave each other alone end as each of them is to end. -/
theorem play_amid {Q : ℕ → τ → Except ε α → S → Prop} (h : ∀ (i : ℕ) (tp : τ × Prog C R ε α), p.tasks[i]? = some tp →
      tp.2.Abides x K p.state ∧ tp.2.Amid x K (Q i tp.1) p.state) (is : List ℕ) :
    K.rel p.state (p.play x is).state ∧ ∀ (i : ℕ) (tp : τ × Prog C R ε α), (p.play x is).tasks[i]? = some tp →
      tp.2.Abides x K (p.play x is).state ∧ tp.2.Amid x K (Q i tp.1) (p.play x is).state := by
  refine play_invariant (J := fun q => K.rel p.state q.state ∧ ∀ (i : ℕ) (tp : τ × Prog C R ε α), q.tasks[i]? = some tp →
    tp.2.Abides x K q.state ∧ tp.2.Amid x K (Q i tp.1) q.state) ?_ ⟨K.refl _, h⟩ is
  rintro q i t c ⟨hstate, htasks⟩ hn
  obtain ⟨k, htask, hturn⟩ := turn_some (x := x) hn
  obtain ⟨habides, hamid⟩ := htasks i _ htask
  have hstep := (habides q.state (K.refl _)).1
  rw [hturn]
  refine ⟨K.trans hstate hstep, fun j tp hj => ?_⟩
  by_cases hij : i = j
  · subst hij
    rw [List.getElem?_set_self (List.getElem?_eq_some_iff.mp htask).1] at hj
    cases hj
    exact ⟨(habides q.state (K.refl _)).2, hamid q.state (K.refl _)⟩
  · rw [List.getElem?_set_ne hij] at hj
    exact ⟨(htasks j tp hj).1.mono hstep, (htasks j tp hj).2.mono hstep⟩

theorem play_abides (h : ∀ tp ∈ p.tasks, tp.2.Abides x K p.state) (is : List ℕ) : K.rel p.state (p.play x is).state :=
  (play_amid (Q := fun _ _ _ _ => True) (fun _ tp hi => ⟨h tp (List.mem_of_getElem? hi), amid_any _ _⟩) is).1

theorem play_waiting {i : ℕ} {is : List ℕ} (h : i ∉ is) : (p.play x is).tasks[i]? = p.tasks[i]? := by
  induction is generalizing p with
  | nil => rfl
  | cons j is ih =>
    obtain ⟨hj, hrest⟩ := not_or.mp (List.mem_cons.not.mp h)
    refine (ih (p := p.turn x j) hrest).trans ?_
    cases hn : p.next? j with
    | none => rw [turn_none hn]
    | some tc =>
      obtain ⟨k, -, hturn⟩ := turn_some (x := x) hn
      rw [hturn]
      exact List.getElem?_set_ne (Ne.symm hj)

end Pool
end Prog
