import CognitiveMemory.Lib.Schedule
import Mathlib.Data.List.Nodup

/-! Tasks that sign a shared ledger, each once and as the last thing it does. The ledger is read off what
was executed; the state need not hold it whole. -/

namespace Prog
variable {C : Type} {R : C → Type} {ε α β L τ S : Type} {signs : C → Option L}

def Event.entry (signs : C → Option L) (e : Event C R) : List (ℕ × L) := ((signs e.command).map (e.task, ·)).toList

def ledger (signs : C → Option L) (log : List (Event C R)) : List (ℕ × L) := log.reverse.flatMap (·.entry signs)

@[simp] theorem ledger_nil : ledger signs ([] : List (Event C R)) = [] := rfl

@[simp] theorem ledger_cons (e : Event C R) (log : List (Event C R)) : ledger signs (e :: log) = ledger signs log ++ e.entry signs := by
  simp [ledger]

theorem Event.entry_none {e : Event C R} (h : signs e.command = none) : e.entry signs = [] := by simp [Event.entry, h]

theorem Event.entry_some {e : Event C R} {l : L} (h : signs e.command = some l) : e.entry signs = [(e.task, l)] := by
  simp [Event.entry, h]

/-- However the ledger grows meanwhile, the program ends right after signing it. `told` is between the
ledger of the moment, a command and its answer, `Q` between the entry, the result and the ledger before it. -/
def Signs (signs : C → Option L) (told : List (ℕ × L) → (c : C) → R c → Prop) (Q : L → Except ε α → List (ℕ × L) → Prop) :
    Prog C R ε α → List (ℕ × L) → Prop
  | pure _, _ | fail _, _ => False
  | cmd c k, D => ∀ D', D <+: D' → ∀ r, told D' c r →
    match signs c with
    | some l => ∃ answer, k r = ofExcept answer ∧ Q l answer D'
    | none => Signs signs told Q (k r) D'

variable {told : List (ℕ × L) → (c : C) → R c → Prop} {Q : L → Except ε α → List (ℕ × L) → Prop} {D D' : List (ℕ × L)}

theorem Signs.mono {p : Prog C R ε α} (h : p.Signs signs told Q D) (hD : D <+: D') : p.Signs signs told Q D' := by
  cases p with
  | pure | fail => exact h.elim
  | cmd c k => exact fun D'' h' => h D'' (hD.trans h')

theorem Signs.imp {Q' : L → Except ε α → List (ℕ × L) → Prop} {p : Prog C R ε α} (h : p.Signs signs told Q D)
    (hQ : ∀ l answer D, Q l answer D → Q' l answer D) : p.Signs signs told Q' D := by
  induction p generalizing D with
  | pure | fail => exact h.elim
  | cmd c k ih =>
    intro D' hD r hr
    have hstep := h D' hD r hr
    cases hc : signs c with
    | none =>
      rw [hc] at hstep
      exact ih r hstep
    | some l =>
      rw [hc] at hstep
      obtain ⟨answer, hanswer, hl⟩ := hstep
      exact ⟨answer, hanswer, hQ l answer D' hl⟩

theorem not_signs_ended {answer : Except ε α} : ¬ (ofExcept answer : Prog C R ε α).Signs signs told Q D := by
  cases answer <;> exact id

theorem signs_next {c : C} {k : R c → Prog C R ε α} (hc : signs c = none)
    (h : ∀ D', D <+: D' → ∀ r, told D' c r → (k r).Signs signs told Q D') : (cmd c k).Signs signs told Q D := by
  intro D' hD r hr
  rw [hc]
  exact h D' hD r hr

theorem signs_last {c : C} {k : R c → Prog C R ε α} {l : L} (hc : signs c = some l)
    (h : ∀ D', D <+: D' → ∀ r, ∃ answer, k r = ofExcept answer ∧ Q l answer D') : (cmd c k).Signs signs told Q D := by
  intro D' hD r _
  rw [hc]
  exact h D' hD r

theorem Signs.after [IsEmpty ε] {p : Prog C R ε β} {f : β → Prog C R ε α} (hp : p.Only (signs · = none))
    (hf : ∀ b D', D <+: D' → (f b).Signs signs told Q D') : (p >>= f).Signs signs told Q D := by
  rw [bind_eq]
  induction p generalizing D with
  | pure b => exact hf b D (List.prefix_refl D)
  | fail e => exact isEmptyElim e
  | cmd c k ih => exact signs_next hp.1 fun D' hD r _ => ih r (hp.2 r) fun b D'' hD' => hf b D'' (hD.trans hD')

namespace Pool
variable {x : Exec C R S} {p : Pool τ C R ε α S} {Q : ℕ → τ → L → Except ε α → List (ℕ × L) → Prop}

def ledger (signs : C → Option L) (p : Pool τ C R ε α S) : List (ℕ × L) := Prog.ledger signs p.log

def Signed (signs : C → Option L) (Q : L → Except ε α → List (ℕ × L) → Prop) (p : Pool τ C R ε α S) (i : ℕ)
    (prog : Prog C R ε α) :
    Prop := ∃ l answer D, D ++ [(i, l)] <+: p.ledger signs ∧ prog = ofExcept answer ∧ Q l answer D

structure Kept (signs : C → Option L) (told : List (ℕ × L) → (c : C) → R c → Prop)
    (Q : ℕ → τ → L → Except ε α → List (ℕ × L) → Prop) (p : Pool τ C R ε α S) : Prop where
  once : ((p.ledger signs).map Prod.fst).Nodup
  places : ∀ e ∈ p.ledger signs, e.1 < p.tasks.length
  tasks : ∀ (i : ℕ) tp, p.tasks[i]? = some tp →
    (i ∉ (p.ledger signs).map Prod.fst ∧ tp.2.Signs signs told (Q i tp.1) (p.ledger signs)) ∨ p.Signed signs (Q i tp.1) i tp.2

theorem Signed.mono {Q : L → Except ε α → List (ℕ × L) → Prop} {p' : Pool τ C R ε α S} {i : ℕ} {prog : Prog C R ε α}
    (h : p.Signed signs Q i prog) (hp : p.ledger signs <+: p'.ledger signs) : p'.Signed signs Q i prog := by
  obtain ⟨l, answer, D, hD, hprog, hQ⟩ := h
  exact ⟨l, answer, D, hD.trans hp, hprog, hQ⟩

theorem ledger_turn (signs : C → Option L) {i : ℕ} {t : τ} {c : C} (h : p.next? i = some (t, c)) :
    (p.turn x i).ledger signs = p.ledger signs ++ (Event.mk (R := R) i c (x c p.state).1).entry signs := by
  obtain ⟨k, -, hturn⟩ := turn_some (x := x) h
  rw [hturn]
  exact ledger_cons _ _

theorem Kept.turn (h : p.Kept signs told Q) {i : ℕ} {t : τ} {c : C} (hn : p.next? i = some (t, c))
    (htold : told (p.ledger signs) c (x c p.state).1) : (p.turn x i).Kept signs told Q := by
  obtain ⟨k, hk, hturn⟩ := turn_some (x := x) hn
  have hledger := ledger_turn signs (x := x) hn
  have hgrows : p.ledger signs <+: (p.turn x i).ledger signs := by
    rw [hledger]
    exact List.prefix_append _ _
  obtain ⟨hfresh, hsigns⟩ | ⟨l, answer, D, hD, hended, hQ⟩ := h.tasks i _ hk
  swap
  · cases answer <;> cases hended
  have hstep := hsigns _ (List.prefix_refl _) _ htold
  cases hc : signs c with
  | none =>
    rw [hc] at hstep
    rw [Event.entry_none hc, List.append_nil] at hledger
    refine ⟨?_, ?_, fun j tp hj => ?_⟩
    · rw [hledger]
      exact h.once
    · rw [hledger, hturn]
      intro e he
      rw [List.length_set]
      exact h.places e he
    · rw [hturn] at hj
      by_cases hij : i = j
      · subst hij
        rw [List.getElem?_set_self (List.getElem?_eq_some_iff.mp hk).1] at hj
        cases hj
        rw [hledger]
        exact .inl ⟨hfresh, hstep⟩
      · rw [List.getElem?_set_ne hij] at hj
        obtain ⟨hj', hs⟩ | hs := h.tasks j tp hj
        · rw [hledger]
          exact .inl ⟨hj', hs⟩
        · exact .inr (hs.mono hgrows)
  | some l =>
    rw [hc] at hstep
    rw [Event.entry_some hc] at hledger
    obtain ⟨answer, hanswer, hQ⟩ := hstep
    refine ⟨?_, ?_, fun j tp hj => ?_⟩
    · rw [hledger, List.map_append]
      exact h.once.append (List.nodup_singleton _) (List.disjoint_singleton.mpr hfresh)
    · rw [hledger, hturn]
      intro e he
      rw [List.length_set]
      obtain he | he := List.mem_append.mp he
      · exact h.places e he
      · rw [List.mem_singleton.mp he]
        exact (List.getElem?_eq_some_iff.mp hk).1
    · rw [hturn] at hj
      by_cases hij : i = j
      · subst hij
        rw [List.getElem?_set_self (List.getElem?_eq_some_iff.mp hk).1] at hj
        cases hj
        exact .inr ⟨l, answer, p.ledger signs, hledger ▸ List.prefix_refl _, hanswer, hQ⟩
      · rw [List.getElem?_set_ne hij] at hj
        obtain ⟨hj', hs⟩ | hs := h.tasks j tp hj
        · refine .inl ⟨?_, hs.mono hgrows⟩
          rw [hledger, List.map_append, List.mem_append, not_or]
          exact ⟨hj', fun hmem => hij (List.mem_singleton.mp hmem).symm⟩
        · exact .inr (hs.mono hgrows)

theorem kept_start {s : S} {tasks : List (τ × Prog C R ε α)}
    (h : ∀ (i : ℕ) tp, tasks[i]? = some tp → tp.2.Signs signs told (Q i tp.1) []) : (Pool.start s tasks).Kept signs told Q where
  once := List.nodup_nil
  places := fun _ he => (List.not_mem_nil he).elim
  tasks := fun i tp hi => .inl ⟨List.not_mem_nil, h i tp hi⟩

/-- Where the state answers by the ledger, tasks play on as they are to. -/
theorem Kept.play (h : p.Kept signs told Q) {J : S → List (ℕ × L) → Prop}
    (hJ : ∀ s D i c, J s D → told D c (x c s).1 ∧ J (x c s).2 (D ++ (Event.mk (R := R) i c (x c s).1).entry signs))
    (hs : J p.state (p.ledger signs)) (is : List ℕ) :
    J (p.play x is).state ((p.play x is).ledger signs) ∧ p.ledger signs <+: (p.play x is).ledger signs ∧ (p.play x is).Kept signs told Q := by
  refine play_invariant (J := fun q => J q.state (q.ledger signs) ∧ p.ledger signs <+: q.ledger signs ∧ q.Kept signs told Q) ?_
    ⟨hs, List.prefix_refl _, h⟩ is
  rintro q i t c ⟨hstate, hgrows, hkept⟩ hn
  obtain ⟨htold, hnext⟩ := hJ q.state (q.ledger signs) i c hstate
  have hledger := ledger_turn signs (x := x) hn
  refine ⟨?_, ?_, hkept.turn hn htold⟩
  · rw [hledger]
    obtain ⟨k, -, hturn⟩ := turn_some (x := x) hn
    rw [hturn]
    exact hnext
  · rw [hledger]
    exact hgrows.trans (List.prefix_append _ _)

/-- A task that has ended has signed, and one that has not has not. -/
theorem Kept.signed_iff (h : p.Kept signs told Q) {i : ℕ} {tp : τ × Prog C R ε α} (hi : p.tasks[i]? = some tp) :
    i ∈ (p.ledger signs).map Prod.fst ↔ ∃ answer, tp.2 = ofExcept answer := by
  obtain ⟨hfresh, hsigns⟩ | ⟨l, answer, D, hD, hended, -⟩ := h.tasks i tp hi
  · refine iff_of_false hfresh ?_
    rintro ⟨answer, hanswer⟩
    rw [hanswer] at hsigns
    exact not_signs_ended hsigns
  · refine iff_of_true ?_ ⟨answer, hended⟩
    exact List.mem_map.mpr ⟨(i, l), hD.subset (List.mem_append_right _ (List.mem_singleton_self _)), rfl⟩

/-- A task may be held to something else from here on if it has all of its work before it. -/
theorem Kept.renew {Q' : ℕ → τ → L → Except ε α → List (ℕ × L) → Prop} (h : p.Kept signs told Q)
    (hQ : ∀ (i : ℕ) tp, p.tasks[i]? = some tp →
      (∀ l answer D, Q i tp.1 l answer D → Q' i tp.1 l answer D) ∨ tp.2.Signs signs told (Q' i tp.1) (p.ledger signs)) :
    p.Kept signs told Q' := by
  refine ⟨h.once, h.places, fun i tp hi => ?_⟩
  obtain himp | hsigns := hQ i tp hi
  · obtain ⟨hfresh, hs⟩ | ⟨l, answer, D, hD, hended, hl⟩ := h.tasks i tp hi
    · exact .inl ⟨hfresh, hs.imp himp⟩
    · exact .inr ⟨l, answer, D, hD, hended, himp l answer D hl⟩
  · refine .inl ⟨fun hmem => ?_, hsigns⟩
    obtain ⟨answer, hended⟩ := (h.signed_iff hi).mp hmem
    rw [hended] at hsigns
    exact not_signs_ended hsigns

theorem Kept.entry (h : p.Kept signs told Q) {i : ℕ} {l : L} (hl : (i, l) ∈ p.ledger signs) :
    ∃ t answer D, p.tasks[i]? = some (t, ofExcept answer) ∧ D ++ [(i, l)] <+: p.ledger signs ∧ Q i t l answer D := by
  have hlt : i < p.tasks.length := h.places _ hl
  have htask : p.tasks[i]? = some p.tasks[i] := List.getElem?_eq_getElem hlt
  obtain ⟨hfresh, -⟩ | ⟨l', answer, D, hD, hended, hQ⟩ := h.tasks i _ htask
  · exact absurd (List.mem_map_of_mem hl) hfresh
  · have hl' : (i, l') ∈ p.ledger signs := hD.subset (List.mem_append_right _ (List.mem_singleton_self _))
    have hsame : l' = l := congrArg Prod.snd (List.inj_on_of_nodup_map h.once hl' hl rfl)
    subst hsame
    refine ⟨p.tasks[i].1, answer, D, ?_, hD, hQ⟩
    rw [htask, ← hended]

theorem Kept.absent (h : p.Kept signs told Q) {i : ℕ} {l : L} {D : List (ℕ × L)} (hD : D ++ [(i, l)] <+: p.ledger signs) :
    i ∉ D.map Prod.fst := by
  have honce : ((D ++ [(i, l)]).map Prod.fst).Nodup := h.once.sublist (hD.sublist.map Prod.fst)
  rw [List.map_append] at honce
  intro hi
  exact (List.nodup_append.mp honce).2.2 i hi i (List.mem_singleton_self i) rfl

end Pool
end Prog
