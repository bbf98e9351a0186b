import CognitiveMemory.Lib.Schedule

/-! Programs with commands of two kinds on a state of two parts. Where one shadows a program of the first
kind alone, a pool of such programs works on the first part as a pool of the others does. -/

namespace Prog
variable {C D : Type} {R : C → Type} {A : D → Type} {ε ε' α β τ τ' S T : Type}

def left : Prog C R ε α → Prog (C ⊕ D) (Sum.elim R A) ε α
  | pure a => pure a
  | fail e => fail e
  | cmd c k => cmd (.inl c) fun r => (k r).left

theorem left_bind {γ : Type} (p : Prog C R ε α) (f : α → Prog C R ε γ) :
    (p.bind f).left (A := A) = p.left.bind fun a => (f a).left := by
  induction p with
  | pure | fail => rfl
  | cmd c k ih => exact congrArg (cmd (Sum.inl c)) (funext ih)

theorem left_attempt (p : Prog C R ε α) : (p.attempt : Prog C R ε' _).left (A := A) = p.left.attempt := by
  induction p with
  | pure | fail => rfl
  | cmd c k ih => exact congrArg (cmd (Sum.inl c)) (funext ih)

def Exec.beside (x : Exec C R S) (y : Exec D A T) : Exec (C ⊕ D) (Sum.elim R A) (S × T)
  | .inl c, s => ((x c s.1).1, (x c s.1).2, s.2)
  | .inr d, s => ((y d s.2).1, s.1, (y d s.2).2)

/-- The commands of the first kind are those of the other program, one for one; `rel` is between the
results. -/
def Shadows (rel : Except ε α → Except ε' β → Prop) : Prog (C ⊕ D) (Sum.elim R A) ε' β → Prog C R ε α → Prop
  | pure b, q => ∃ r, q = ofExcept r ∧ rel r (.ok b)
  | fail e, q => ∃ r, q = ofExcept r ∧ rel r (.error e)
  | cmd (.inl c) k, q => ∃ k', q = cmd c k' ∧ ∀ r, (k r).Shadows rel (k' r)
  | cmd (.inr _) k, q => ∀ r, (k r).Shadows rel q

variable {rel : Except ε α → Except ε' β → Prop}

/-- What comes after a program of the first kind may go by how that ended. -/
theorem shadows_attempt {p : Prog C R ε α} {f : Except ε α → Prog (C ⊕ D) (Sum.elim R A) ε' β}
    (hf : ∀ r, (f r).Shadows rel (ofExcept r)) : (p.left.attempt >>= f).Shadows rel p := by
  rw [bind_eq]
  induction p with
  | pure a => exact hf (.ok a)
  | fail e => exact hf (.error e)
  | cmd c k ih => exact ⟨k, rfl, ih⟩

namespace Pool

/-- The first part of the state is the state of the other pool, and its tasks are shadowed in their order. -/
structure Shadows (rel : τ → τ' → Except ε α → Except ε' β → Prop) (p : Pool τ (C ⊕ D) (Sum.elim R A) ε' β (S × T))
    (q : Pool τ' C R ε α S) : Prop where
  state : p.state.1 = q.state
  length : p.tasks.length = q.tasks.length
  tasks : ∀ (i : ℕ) tp tq, p.tasks[i]? = some tp → q.tasks[i]? = some tq → tp.2.Shadows (rel tp.1 tq.1) tq.2

variable {x : Exec C R S} {y : Exec D A T} {rel : τ → τ' → Except ε α → Except ε' β → Prop}
  {p : Pool τ (C ⊕ D) (Sum.elim R A) ε' β (S × T)} {q : Pool τ' C R ε α S}

theorem Shadows.other (h : p.Shadows rel q) {i : ℕ} {tp : τ × Prog (C ⊕ D) (Sum.elim R A) ε' β}
    (hi : p.tasks[i]? = some tp) :
    ∃ tq, q.tasks[i]? = some tq ∧ tp.2.Shadows (rel tp.1 tq.1) tq.2 := by
  have hlt : i < q.tasks.length := by
    rw [← h.length]
    exact (List.getElem?_eq_some_iff.mp hi).1
  exact ⟨q.tasks[i], List.getElem?_eq_getElem hlt, h.tasks i tp _ hi (List.getElem?_eq_getElem hlt)⟩

theorem getElem?_set_cases {γ : Type} {l : List γ} {i j : ℕ} {a b : γ} (h : (l.set i a)[j]? = some b) :
    (i = j ∧ a = b) ∨ (i ≠ j ∧ l[j]? = some b) := by
  by_cases hij : i = j
  · subst hij
    rw [List.getElem?_set_self (by simpa using (List.getElem?_eq_some_iff.mp h).1)] at h
    exact .inl ⟨rfl, Option.some.inj h⟩
  · rw [List.getElem?_set_ne hij] at h
    exact .inr ⟨hij, h⟩

theorem Shadows.turn (h : p.Shadows rel q) (i : ℕ) :
    (p.turn (x.beside y) i).Shadows rel q ∨ (p.turn (x.beside y) i).Shadows rel (q.turn x i) := by
  cases hn : p.next? i with
  | none =>
    rw [turn_none hn]
    exact .inl h
  | some tc =>
    obtain ⟨t, c⟩ := tc
    obtain ⟨k, hk, hturn⟩ := turn_some (x := x.beside y) hn
    obtain ⟨⟨t', prog⟩, hi, hshadow⟩ := h.other hk
    rw [hturn]
    cases c with
    | inl c =>
      obtain ⟨k', rfl, hk'⟩ := hshadow
      have hturn' : q.turn x i = ⟨(x c q.state).2, q.tasks.set i (t', k' (x c q.state).1), ⟨i, c, (x c q.state).1⟩ :: q.log⟩ := by
        unfold Pool.turn
        rw [hi]
      refine .inr ?_
      rw [hturn']
      refine ⟨?_, ?_, fun j tp tq hp hq => ?_⟩
      · show (x c p.state.1).2 = _
        rw [h.state]
      · simpa using h.length
      · obtain ⟨rfl, rfl⟩ | ⟨hij, hp⟩ := getElem?_set_cases hp
        · obtain ⟨-, rfl⟩ | ⟨hne, -⟩ := getElem?_set_cases hq
          · show (k (x c p.state.1).1).Shadows _ _
            rw [h.state]
            exact hk' _
          · exact absurd rfl hne
        · obtain ⟨heq, -⟩ | ⟨-, hq⟩ := getElem?_set_cases hq
          · exact absurd heq hij
          · exact h.tasks j tp tq hp hq
    | inr d =>
      refine .inl ⟨h.state, ?_, fun j tp tq hp hq => ?_⟩
      · simpa using h.length
      · obtain ⟨rfl, rfl⟩ | ⟨-, hp⟩ := getElem?_set_cases hp
        · rw [hi] at hq
          cases hq
          exact hshadow _
        · exact h.tasks j tp tq hp hq

/-- Some of the turns played, played by the other pool, lead to the pool that is shadowed then. -/
theorem Shadows.play (h : p.Shadows rel q) (is : List ℕ) :
    ∃ js, js.Sublist is ∧ (p.play (x.beside y) is).Shadows rel (q.play x js) := by
  induction is generalizing p q with
  | nil => exact ⟨[], .slnil, h⟩
  | cons i is ih =>
    obtain hturn | hturn := h.turn (x := x) (y := y) i
    · obtain ⟨js, hsub, hplay⟩ := ih hturn
      exact ⟨js, hsub.cons i, hplay⟩
    · obtain ⟨js, hsub, hplay⟩ := ih hturn
      exact ⟨i :: js, hsub.cons_cons i, hplay⟩

end Pool
end Prog
