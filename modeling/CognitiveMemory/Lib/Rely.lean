import CognitiveMemory.Lib.Schedule

/-! Programs that end well: judged by the answers they get, or by the states they meet while other
tasks are at work between their commands. -/

namespace Prog
variable {C : Type} {R : C → Type} {ε ε' α β τ S : Type}

/-! ## Answers -/

/-- Given good answers the program issues commands in `P` only, does not fail, and ends with a value in `Q`. -/
def Yields (P : C → Prop) (good : (c : C) → R c → Prop) (Q : α → Prop) : Prog C R ε α → Prop
  | pure a => Q a
  | fail _ => False
  | cmd c k => P c ∧ ∀ r, good c r → Yields P good Q (k r)

section Yields
variable {P : C → Prop} {good : (c : C) → R c → Prop} {Q : α → Prop}

theorem Yields.seq {p : Prog C R ε α} {f : α → Prog C R ε β} {Q' : β → Prop} (hp : p.Yields P good Q)
    (hf : ∀ a, Q a → (f a).Yields P good Q') : (p >>= f).Yields P good Q' := by
  rw [bind_eq]
  induction p with
  | pure a => exact hf a hp
  | fail e => exact hp
  | cmd c k ih => exact ⟨hp.1, fun r hr => ih r (hp.2 r hr)⟩

theorem Yields.mapError {f : ε → ε'} {p : Prog C R ε α} (hp : p.Yields P good Q) : (p.mapError f).Yields P good Q := by
  induction p with
  | pure a => exact hp
  | fail e => exact hp
  | cmd c k ih => exact ⟨hp.1, fun r hr => ih r (hp.2 r hr)⟩

theorem yields_ofExcept {r : Except ε α} {a : α} (hr : r = .ok a) (ha : Q a) :
    (ofExcept r : Prog C R ε α).Yields P good Q := by
  rw [hr]
  exact ha

end Yields

/-! ## Interference -/

/-- What other tasks may do to the state. -/
structure Rely (S : Type) where
  rel : S → S → Prop
  refl : ∀ s, rel s s
  trans : ∀ {s₁ s₂ s₃}, rel s₁ s₂ → rel s₂ s₃ → rel s₁ s₃

variable {x : Exec C R S} {K : Rely S} {G : History C R → S → C → Prop}

/-- Whatever the others do between two commands, the program does not fail and ends with `Q`, provided
each command meets `G` when its turn comes. -/
def Withstands (x : Exec C R S) (K : Rely S) (G : History C R → S → C → Prop) (Q : α → History C R → S → Prop) :
    Prog C R ε α → History C R → S → Prop
  | pure a, h, s => ∀ s', K.rel s s' → Q a h s'
  | fail _, _, _ => False
  | cmd c k, h, s => ∀ s', K.rel s s' → G h s' c → Withstands x K G Q (k (x c s').1) (⟨c, (x c s').1⟩ :: h) (x c s').2

section Withstands
variable {Q : α → History C R → S → Prop} {h : History C R} {s s' : S}

theorem Withstands.mono {p : Prog C R ε α} (hp : p.Withstands x K G Q h s) (hr : K.rel s s') :
    p.Withstands x K G Q h s' := by
  cases p with
  | pure a => exact fun s'' hr' => hp s'' (K.trans hr hr')
  | fail e => exact hp
  | cmd c k => exact fun s'' hr' => hp s'' (K.trans hr hr')

theorem Withstands.seq {p : Prog C R ε α} {f : α → Prog C R ε β} {Q' : β → History C R → S → Prop}
    (hp : p.Withstands x K G Q h s) (hf : ∀ a h' s', Q a h' s' → (f a).Withstands x K G Q' h' s') :
    (p >>= f).Withstands x K G Q' h s := by
  rw [bind_eq]
  induction p generalizing h s with
  | pure a => exact hf a h s (hp s (K.refl s))
  | fail e => exact hp.elim
  | cmd c k ih => exact fun s' hr hg => ih _ (hp s' hr hg)

theorem Withstands.mapError {f : ε → ε'} {p : Prog C R ε α} (hp : p.Withstands x K G Q h s) :
    (p.mapError f).Withstands x K G Q h s := by
  induction p generalizing h s with
  | pure a => exact hp
  | fail e => exact hp
  | cmd c k ih => exact fun s' hr hg => ih _ (hp s' hr hg)

theorem Yields.withstands {P : C → Prop} {good : (c : C) → R c → Prop} {Q : α → Prop} {J : History C R → S → Prop}
    {p : Prog C R ε α} (hp : p.Yields P good Q) (hrel : ∀ h s s', K.rel s s' → J h s → J h s')
    (hP : ∀ h s c, P c → J h s → G h s c → good c (x c s).1 ∧ J (⟨c, (x c s).1⟩ :: h) (x c s).2) (hJ : J h s) :
    p.Withstands x K G (fun a h' s' => Q a ∧ J h' s') h s := by
  induction p generalizing h s with
  | pure a => exact fun s' hr => ⟨hp, hrel h s s' hr hJ⟩
  | fail e => exact hp
  | cmd c k ih =>
    intro s' hr hg
    obtain ⟨hgood, hJ'⟩ := hP h s' c hp.1 (hrel h s s' hr hJ) hg
    exact ih _ (hp.2 _ hgood) hJ'

end Withstands

namespace Pool
variable {p : Pool τ C R ε α S} {Q : α → History C R → S → Prop}

theorem play_withstands {i : ℕ} {t : τ} {prog : Prog C R ε α} {D : C → Prop} {guard : Pool τ C R ε α S → ℕ → τ → C → Prop}
    (htask : p.tasks[i]? = some (t, prog)) (hprog : prog.Withstands x K G Q (seen p.log i) p.state)
    (hguard : ∀ (p : Pool τ C R ε α S) t c, guard p i t c → G (seen p.log i) p.state c)
    (hothers : ∀ j tp, j ≠ i → p.tasks[j]? = some tp → tp.2.Only D) (hD : ∀ c s, D c → K.rel s (x c s).2)
    {schedule : List ℕ} (h : p.Meets x guard schedule) :
    ∃ prog', (p.play x schedule).tasks[i]? = some (t, prog') ∧
      prog'.Withstands x K G Q (seen (p.play x schedule).log i) (p.play x schedule).state := by
  refine (play_keeps (J := fun p => (∃ prog', p.tasks[i]? = some (t, prog') ∧
    prog'.Withstands x K G Q (seen p.log i) p.state) ∧ ∀ j tp, j ≠ i → p.tasks[j]? = some tp → tp.2.Only D)
    (fun p j t' c hp hn hg => ?_) h ⟨⟨prog, htask, hprog⟩, hothers⟩).1
  obtain ⟨⟨prog, htask, hprog⟩, hothers⟩ := hp
  obtain ⟨k, hk, hturn⟩ := turn_some (x := x) hn
  rw [hturn]
  have hlt := (List.getElem?_eq_some_iff.mp hk).1
  by_cases hij : j = i
  · subst hij
    rw [hk] at htask
    cases htask
    refine ⟨⟨k (x c p.state).1, List.getElem?_set_self hlt, ?_⟩, fun j' tp hj' htp => hothers j' tp hj' ?_⟩
    · simpa [seen] using hprog p.state (K.refl _) (hguard p _ c hg)
    · rwa [List.getElem?_set_ne (Ne.symm hj')] at htp
  · have honly : (cmd c k).Only D := hothers j _ hij hk
    refine ⟨⟨prog, ?_, ?_⟩, fun j' tp hj' htp => ?_⟩
    · rwa [List.getElem?_set_ne hij]
    · simpa [seen, hij] using hprog.mono (hD c p.state honly.1)
    · by_cases hjj : j = j'
      · subst hjj
        rw [List.getElem?_set_self hlt] at htp
        cases htp
        exact honly.2 _
      · rw [List.getElem?_set_ne hjj] at htp
        exact hothers j' tp hj' htp

theorem exhausted (p : Pool τ C R ε α S) (i : ℕ) : ∃ n, (p.play x (List.replicate n i)).next? i = none := by
  cases htask : p.tasks[i]? with
  | none => exact ⟨0, by simp [play, next?, htask]⟩
  | some tp =>
    obtain ⟨t, prog⟩ := tp
    induction prog generalizing p with
    | pure a => exact ⟨0, by simp [play, next?, htask]⟩
    | fail e => exact ⟨0, by simp [play, next?, htask]⟩
    | cmd c k ih =>
      have hturn : p.turn x i = ⟨(x c p.state).2, p.tasks.set i (t, k (x c p.state).1), ⟨i, c, (x c p.state).1⟩ :: p.log⟩ := by
        unfold turn
        rw [htask]
      obtain ⟨n, hn⟩ := ih (x c p.state).1 (p.turn x i) (by
        rw [hturn]
        exact List.getElem?_set_self (List.getElem?_eq_some_iff.mp htask).1)
      exact ⟨n + 1, hn⟩

end Pool
end Prog
