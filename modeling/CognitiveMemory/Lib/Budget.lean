import CognitiveMemory.Lib.Schedule
import Mathlib.Algebra.Order.Monoid.Canonical.Defs
import Mathlib.Algebra.Order.BigOperators.Group.Finset
import Mathlib.Algebra.BigOperators.Fin

/-! What programs may spend: every command takes its cost from a budget, and a task of a pool never spends
more than the budget it came with. -/

namespace Prog
variable {C : Type} {R : C → Type} {ε ε' α β τ S M : Type} [AddCommMonoid M] [PartialOrder M]

/-- With `n` to spend the program gets to its end, whatever it is answered as far as `good` goes; `Q` is
between a result and what is left then. -/
def Within (cost : C → M) (good : (c : C) → R c → Prop) (Q : α → M → Prop) : Prog C R ε α → M → Prop
  | pure a, n => Q a n
  | fail _, _ => True
  | cmd c k, n => ∃ m, cost c + m ≤ n ∧ ∀ r, good c r → Within cost good Q (k r) m

variable {cost : C → M} {good : (c : C) → R c → Prop} {Q : α → M → Prop} {n : M}

theorem Within.imp {Q' : α → M → Prop} {p : Prog C R ε α} (h : p.Within cost good Q n) (hQ : ∀ a m, Q a m → Q' a m) :
    p.Within cost good Q' n := by
  induction p generalizing n with
  | pure a => exact hQ a n h
  | fail e => trivial
  | cmd c k ih =>
    obtain ⟨m, hm, hk⟩ := h
    exact ⟨m, hm, fun r hr => ih r (hk r hr)⟩

theorem Within.seq {p : Prog C R ε α} {f : α → Prog C R ε β} {Q : β → M → Prop}
    (h : p.Within cost good (fun a m => (f a).Within cost good Q m) n) : (p >>= f).Within cost good Q n := by
  rw [bind_eq]
  induction p generalizing n with
  | pure a => exact h
  | fail e => trivial
  | cmd c k ih =>
    obtain ⟨m, hm, hk⟩ := h
    exact ⟨m, hm, fun r hr => ih r (hk r hr)⟩

theorem Within.mapError {f : ε → ε'} {p : Prog C R ε α} (h : p.Within cost good Q n) :
    (p.mapError f).Within cost good Q n := by
  induction p generalizing n with
  | pure a => exact h
  | fail e => trivial
  | cmd c k ih =>
    obtain ⟨m, hm, hk⟩ := h
    exact ⟨m, hm, fun r hr => ih r (hk r hr)⟩

theorem Only.within {p : Prog C R ε α} (hp : p.Only (cost · = 0)) : p.Within cost good (fun _ m => m = n) n := by
  induction p with
  | pure a => exact rfl
  | fail e => trivial
  | cmd c k ih =>
    refine ⟨n, ?_, fun r _ => ih r (hp.2 r)⟩
    rw [hp.1, zero_add]

theorem Within.after {p : Prog C R ε α} {f : α → Prog C R ε β} {Q : β → M → Prop} (hp : p.Only (cost · = 0))
    (hf : ∀ a, (f a).Within cost good Q n) : (p >>= f).Within cost good Q n := by
  refine .seq (hp.within.imp fun a m hm => ?_)
  rw [hm]
  exact hf a

namespace Pool
variable {x : Exec C R S} {p : Pool τ C R ε α S}

def spent (cost : C → M) (p : Pool τ C R ε α S) (i : ℕ) : M := ((p.log.filter (·.task = i)).map fun e => cost e.command).sum

def spending (cost : C → M) (p : Pool τ C R ε α S) : M := (p.log.map fun e => cost e.command).sum

omit [PartialOrder M] in
theorem spent_turn (cost : C → M) {i : ℕ} {t : τ} {c : C} (h : p.next? i = some (t, c)) (j : ℕ) :
    (p.turn x i).spent cost j = if i = j then cost c + p.spent cost j else p.spent cost j := by
  obtain ⟨k, -, hturn⟩ := turn_some (x := x) h
  rw [hturn]
  unfold spent
  by_cases hij : i = j
  · simp [hij]
  · simp [hij]

omit [PartialOrder M] in
theorem spending_turn (cost : C → M) {i : ℕ} {t : τ} {c : C} (h : p.next? i = some (t, c)) :
    (p.turn x i).spending cost = cost c + p.spending cost := by
  obtain ⟨k, -, hturn⟩ := turn_some (x := x) h
  rw [hturn]
  rfl

omit [PartialOrder M] in
theorem spending_eq (cost : C → M) (s : S) (tasks : List (τ × Prog C R ε α)) (is : List ℕ) :
    ((start s tasks).play x is).spending cost = ∑ i : Fin tasks.length, ((start s tasks).play x is).spent cost i := by
  have hplayed := play_invariant (x := x) (J := fun q : Pool τ C R ε α S => q.tasks.length = tasks.length ∧
    q.spending cost = ∑ i : Fin tasks.length, q.spent cost i) ?_ (p := start s tasks) ?_ is
  · exact hplayed.2
  · rintro q i t c ⟨hlen, hq⟩ hn
    obtain ⟨k, hk, hturn⟩ := turn_some (x := x) hn
    have hi : i < tasks.length := hlen ▸ (List.getElem?_eq_some_iff.mp hk).1
    refine ⟨?_, ?_⟩
    · rw [hturn]
      simpa using hlen
    · have hbill : ∀ j : Fin tasks.length, (q.turn x i).spent cost j = (if j = ⟨i, hi⟩ then cost c else 0) + q.spent cost j := by
        intro j
        rw [spent_turn cost hn]
        by_cases hj : i = j
        · rw [if_pos hj, if_pos (Fin.ext hj.symm)]
        · rw [if_neg hj, if_neg fun h => hj (congrArg Fin.val h).symm, zero_add]
      calc (q.turn x i).spending cost = cost c + ∑ j : Fin tasks.length, q.spent cost j := by rw [spending_turn cost hn, hq]
        _ = ∑ j : Fin tasks.length, ((if j = ⟨i, hi⟩ then cost c else 0) + q.spent cost j) := by
            rw [Finset.sum_add_distrib, Finset.sum_ite_eq' Finset.univ (⟨i, hi⟩ : Fin tasks.length), if_pos (Finset.mem_univ _)]
        _ = ∑ j : Fin tasks.length, (q.turn x i).spent cost j := Finset.sum_congr rfl fun j _ => (hbill j).symm
  · refine ⟨rfl, ?_⟩
    simp [spending, spent, start]

variable [IsOrderedAddMonoid M] [CanonicallyOrderedAdd M]

theorem spent_le {budget : τ → M} (hgood : ∀ c s, good c (x c s).1) (s : S) {tasks : List (τ × Prog C R ε α)}
    (h : ∀ tp ∈ tasks, tp.2.Within cost good (fun _ _ => True) (budget tp.1)) (is : List ℕ) (i : Fin tasks.length) :
    ((start s tasks).play x is).spent cost i ≤ budget tasks[i].1 := by
  let J (q : Pool τ C R ε α S) : Prop := ∀ i : Fin tasks.length, ∃ p n, q.tasks[i.val]? = some (tasks[i].1, p) ∧
    q.spent cost i + n ≤ budget tasks[i].1 ∧ p.Within cost good (fun _ _ => True) n
  have hplayed : J ((start s tasks).play x is) := by
    refine play_invariant (fun q i t c hq hn j => ?_) (fun i => ?_) is
    · obtain ⟨k, hk, hturn⟩ := turn_some (x := x) hn
      obtain ⟨p, n, hp, hle, hp'⟩ := hq j
      rw [spent_turn cost hn, hturn]
      by_cases hij : i = j
      · have htask : some (t, Prog.cmd c k) = some (tasks[j].1, p) := by rw [← hk, hij, hp]
        obtain ⟨ht, hpk⟩ := Prod.mk.inj (Option.some.inj htask)
        subst hpk
        obtain ⟨m, hm, hrest⟩ := hp'
        refine ⟨k (x c q.state).1, m, ?_, ?_, hrest _ (hgood c q.state)⟩
        · show (q.tasks.set i (t, k (x c q.state).1))[j.val]? = _
          have hset := List.getElem?_set_self (a := (t, k (x c q.state).1)) (List.getElem?_eq_some_iff.mp hk).1
          rw [hij, ht] at hset
          rw [hij, ht]
          exact hset
        · rw [if_pos hij]
          calc cost c + q.spent cost j + m = q.spent cost j + (cost c + m) := by rw [add_comm (cost c), add_assoc]
            _ ≤ q.spent cost j + n := by gcongr
            _ ≤ budget tasks[j].1 := hle
      · rw [if_neg hij]
        exact ⟨p, n, (List.getElem?_set_ne hij).trans hp, hle, hp'⟩
    · refine ⟨tasks[i].2, budget tasks[i].1, List.getElem?_eq_getElem i.isLt, ?_, h _ (List.getElem_mem i.isLt)⟩
      simp [spent, start]
  obtain ⟨-, n, -, hle, -⟩ := hplayed i
  exact le_self_add.trans hle

theorem spending_le {budget : τ → M} (hgood : ∀ c s, good c (x c s).1) (s : S) {tasks : List (τ × Prog C R ε α)}
    (h : ∀ tp ∈ tasks, tp.2.Within cost good (fun _ _ => True) (budget tp.1)) (is : List ℕ) :
    ((start s tasks).play x is).spending cost ≤ (tasks.map fun tp => budget tp.1).sum := by
  rw [spending_eq]
  calc _ ≤ ∑ i : Fin tasks.length, budget tasks[i].1 := Finset.sum_le_sum fun i _ => spent_le hgood s h is i
    _ = (tasks.map fun tp => budget tp.1).sum := Fin.sum_univ_fun_getElem tasks fun tp => budget tp.1

end Pool
end Prog
