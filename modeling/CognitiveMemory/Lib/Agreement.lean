import CognitiveMemory.Lib.Wp

/-! Two runs of one program from states its task cannot tell apart. -/

namespace Prog

/-! ## Results -/

def Alike {ε α β : Type} (rel : α → β → Prop) : Except ε α → Except ε β → Prop
  | .ok a, .ok b => rel a b
  | .error e, .error e' => e = e'
  | _, _ => False

theorem alike_iff {ε α β : Type} {rel : α → β → Prop} {r : Except ε α} {r' : Except ε β} :
    Alike rel r r' ↔ (∃ e, r = .error e ∧ r' = .error e) ∨ ∃ a b, r = .ok a ∧ r' = .ok b ∧ rel a b := by
  cases r <;> cases r' <;> simp [Alike, eq_comm]

section
variable {ε α β γ δ : Type} {rel : α → β → Prop} {rel' : γ → δ → Prop} {r : Except ε α} {r' : Except ε β}

theorem Alike.bind {f : α → Except ε γ} {f' : β → Except ε δ} (h : Alike rel r r')
    (hf : ∀ a b, rel a b → Alike rel' (f a) (f' b)) : Alike rel' (r >>= f) (r' >>= f') := by
  obtain ⟨e, rfl, rfl⟩ | ⟨a, b, rfl, rfl, hrel⟩ := alike_iff.mp h
  · rfl
  · exact hf a b hrel

theorem Alike.map {f : α → γ} {f' : β → δ} (h : Alike rel r r') (hf : ∀ a b, rel a b → rel' (f a) (f' b)) :
    Alike rel' (r.map f) (r'.map f') := by
  obtain ⟨e, rfl, rfl⟩ | ⟨a, b, rfl, rfl, hrel⟩ := alike_iff.mp h
  · rfl
  · exact hf a b hrel

theorem Alike.imp {rel' : α → β → Prop} (h : Alike rel r r') (hrel : ∀ a b, rel a b → rel' a b) : Alike rel' r r' := by
  obtain ⟨e, rfl, rfl⟩ | ⟨a, b, rfl, rfl, hab⟩ := alike_iff.mp h
  · rfl
  · exact hrel a b hab

theorem Alike.and {P : α → Prop} {P' : β → Prop} (h : Alike rel r r') (hP : ∀ a, r = .ok a → P a)
    (hP' : ∀ b, r' = .ok b → P' b) :
    Alike (fun a b => rel a b ∧ P a ∧ P' b) r r' := by
  obtain ⟨e, rfl, rfl⟩ | ⟨a, b, rfl, rfl, hab⟩ := alike_iff.mp h
  · rfl
  · exact ⟨hab, hP a rfl, hP' b rfl⟩

end

theorem alike_foldlM {ε α β γ : Type} {rel : α → β → Prop} {step : α → γ → Except ε α} {step' : β → γ → Except ε β}
    (xs : List γ) (hstep : ∀ a b, ∀ c ∈ xs, rel a b → Alike rel (step a c) (step' b c)) {a : α} {b : β} (h : rel a b) :
    Alike rel (xs.foldlM step a) (xs.foldlM step' b) := by
  induction xs generalizing a b with
  | nil => exact h
  | cons c xs ih =>
    rw [List.foldlM_cons, List.foldlM_cons]
    refine (hstep a b c List.mem_cons_self h).bind fun a' b' h' => ?_
    exact ih (fun a b c hc => hstep a b c (List.mem_cons_of_mem _ hc)) h'

/-! ## Runs -/

namespace Contract
variable {C : Type} {R : C → Type} {ε α β τ S : Type} {x : Exec C R S}

/-- From two states alike in which it keeps the contract, the program comes to one end, and leaves
states alike. -/
def AgreesAt (K : Contract x τ) (t : τ) (alike : S → S → Prop) (p : Prog C R ε α) (s s' : S) : Prop :=
  K.Emits t p (fun _ _ => True) s → K.Emits t p (fun _ _ => True) s' →
    (p.run x s).1 = (p.run x s').1 ∧ alike (p.run x s).2 (p.run x s').2

def Agrees (K : Contract x τ) (t : τ) (alike : S → S → Prop) (p : Prog C R ε α) : Prop :=
  ∀ s s', K.inv s → K.inv s' → alike s s' → K.AgreesAt t alike p s s'

variable {K : Contract x τ} {t : τ} {alike : S → S → Prop}

theorem Emits.run_inv {p : Prog C R ε α} {Q : α → S → Prop} {s : S} (h : K.Emits t p Q s) (hi : K.inv s) :
    K.inv (p.run x s).2 := (h.run_keeps (J := fun _ => True) hi trivial fun _ _ _ _ _ => trivial).1

theorem Emits.run_post {p : Prog C R ε α} {Q : α → S → Prop} {s s' : S} {a : α} (h : K.Emits t p Q s) (hi : K.inv s)
    (hrun : p.run x s = (.ok a, s')) : Q a s' := by
  have hpost := (h.run_keeps (J := fun _ => True) hi trivial fun _ _ _ _ _ => trivial).2.2.2 a
  rw [hrun] at hpost
  exact hpost rfl

theorem agrees_pure (a : α) : K.Agrees t alike (pure a : Prog C R ε α) := fun _ _ _ _ h _ _ => ⟨rfl, h⟩

theorem agrees_fail (e : ε) : K.Agrees t alike (fail e : Prog C R ε α) := fun _ _ _ _ h _ _ => ⟨rfl, h⟩

theorem agrees_ofExcept (r : Except ε α) : K.Agrees t alike (ofExcept r : Prog C R ε α) := by
  cases r with
  | ok a => exact agrees_pure a
  | error e => exact agrees_fail e

/-- Sequencing, with what the first part establishes from both states. -/
theorem AgreesAt.seq {p : Prog C R ε α} {f : α → Prog C R ε β} {P : α → S → Prop} {E : ε → Prop} {s s' : S} (hi : K.inv s)
    (hi' : K.inv s') (hp : K.AgreesAt t alike p s s') (hP : p.wp x P E s) (hP' : p.wp x P E s')
    (hf : ∀ a s₁ s₁', K.inv s₁ → K.inv s₁' → alike s₁ s₁' → P a s₁ → P a s₁' → K.AgreesAt t alike (f a) s₁ s₁') :
    K.AgreesAt t alike (p >>= f) s s' := by
  intro he he'
  have hrest := he.of_seq
  have hrest' := he'.of_seq
  obtain ⟨hresult, halike⟩ := hp (hrest.imp fun _ _ _ _ => trivial) (hrest'.imp fun _ _ _ _ => trivial)
  have hinv := hrest.run_inv hi
  have hinv' := hrest'.run_inv hi'
  cases hrun : p.run x s with
  | mk r s₁ =>
    cases hrun' : p.run x s' with
    | mk r' s₁' =>
      rw [hrun] at hresult halike hinv
      rw [hrun'] at hresult halike hinv'
      obtain rfl : r = r' := hresult
      rw [bind_eq]
      cases r with
      | error e =>
        rw [run_bind_error x hrun, run_bind_error x hrun']
        exact ⟨rfl, halike⟩
      | ok a =>
        rw [run_bind_ok x hrun, run_bind_ok x hrun']
        exact hf a s₁ s₁' hinv hinv' halike ((wp_run.mp hP).1 a s₁ hrun) ((wp_run.mp hP').1 a s₁' hrun')
          (hrest.run_post hi hrun) (hrest'.run_post hi' hrun')

theorem wp_true {p : Prog C R ε α} {s : S} : p.wp x (fun _ _ => True) (fun _ => True) s :=
  wp_run.mpr ⟨fun _ _ _ => trivial, fun _ _ _ => trivial⟩

theorem Agrees.seq {p : Prog C R ε α} {f : α → Prog C R ε β} (hp : K.Agrees t alike p) (hf : ∀ a, K.Agrees t alike (f a)) :
    K.Agrees t alike (p >>= f) := fun s s' hi hi' halike =>
  .seq hi hi' (hp s s' hi hi' halike) wp_true wp_true fun a s₁ s₁' hi₁ hi₁' halike₁ _ _ => hf a s₁ s₁' hi₁ hi₁' halike₁

theorem AgreesAt.mapError {ε' : Type} {f : ε → ε'} {p : Prog C R ε α} {s s' : S} (hp : K.AgreesAt t alike p s s') :
    K.AgreesAt t alike (p.mapError f) s s' := by
  intro he he'
  obtain ⟨hresult, hafter⟩ := hp he.of_mapError he'.of_mapError
  rw [run_mapError, run_mapError, hresult]
  exact ⟨rfl, hafter⟩

theorem Agrees.mapError {ε' : Type} {f : ε → ε'} {p : Prog C R ε α} (hp : K.Agrees t alike p) :
    K.Agrees t alike (p.mapError f) := fun s s' hi hi' halike => (hp s s' hi hi' halike).mapError

theorem AgreesAt.cmd {c : C} {k : R c → Prog C R ε α} {s s' : S} (hi : K.inv s) (hi' : K.inv s')
    (hc : K.allows t s c → K.allows t s' c → (x c s).1 = (x c s').1 ∧ alike (x c s).2 (x c s').2)
    (hk : ∀ r, K.Agrees t alike (k r)) : K.AgreesAt t alike (cmd c k) s s' := by
  intro he he'
  obtain ⟨hall, hrest⟩ := he.cmd_inv hi
  obtain ⟨hall', hrest'⟩ := he'.cmd_inv hi'
  obtain ⟨hanswer, hafter⟩ := hc hall hall'
  rw [run_command, run_command]
  rw [hanswer] at hrest ⊢
  exact hk _ _ _ (K.preserve hi hall).1 (K.preserve hi' hall').1 hafter hrest hrest'

theorem agrees_cmd {c : C} {k : R c → Prog C R ε α}
    (hc : ∀ s s', K.inv s → K.inv s' → alike s s' → K.allows t s c → K.allows t s' c →
      (x c s).1 = (x c s').1 ∧ alike (x c s).2 (x c s').2)
    (hk : ∀ r, K.Agrees t alike (k r)) : K.Agrees t alike (cmd c k) := fun s s' hi hi' halike =>
  .cmd hi hi' (hc s s' hi hi' halike) hk

theorem agrees_of_only {P : C → Prop}
    (hP : ∀ c s s', P c → K.inv s → K.inv s' → alike s s' → K.allows t s c → K.allows t s' c →
      (x c s).1 = (x c s').1 ∧ alike (x c s).2 (x c s').2)
    {p : Prog C R ε α} (hp : p.Only P) : K.Agrees t alike p := by
  induction p with
  | pure a => exact agrees_pure a
  | fail e => exact agrees_fail e
  | cmd c k ih => exact agrees_cmd (fun s s' => hP c s s' hp.1) fun r => ih r (hp.2 r)

end Contract
end Prog
