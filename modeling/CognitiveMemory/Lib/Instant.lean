import CognitiveMemory.Lib.Schedule
import Mathlib.Data.List.Induction

/-! Programs that touch what is shared once at most. Among any others they act at one instant: they come to
what they could have come to alone, there and then. -/

namespace Prog
variable {C : Type} {R : C → Type} {ε ε' α β τ S D O : Type}

/-- The state is what is shared and what is drawn from. A command of one's `own` goes by what it draws
only, a `joint` one by what is shared as well; and with other draws to come either is answered the same. -/
structure Draws (x : Exec C R S) (shared : S → D) (drawn : S → O) (own joint : C → Prop) : Prop where
  untouched : ∀ c s, own c → shared (x c s).2 = shared s
  own : ∀ c s (d : D) (o : O), own c → ∃ o', ∀ s', shared s' = d → drawn s' = o' →
    (x c s').1 = (x c s).1 ∧ shared (x c s').2 = d ∧ drawn (x c s').2 = o
  joint : ∀ c s (o : O), joint c → ∃ o', ∀ s', shared s' = shared s → drawn s' = o' →
    (x c s').1 = (x c s).1 ∧ shared (x c s').2 = shared (x c s).2 ∧ drawn (x c s').2 = o

/-! ## Programs that touch once -/

section
variable {own joint : C → Prop}

def Once (own joint : C → Prop) : Prog C R ε α → Prop
  | pure _ | fail _ => True
  | cmd c k => (own c ∧ ∀ r, (k r).Once own joint) ∨ joint c ∧ ∀ r, (k r).Only own

theorem Only.once {p : Prog C R ε α} (h : p.Only own) : p.Once own joint := by
  induction p with
  | pure | fail => trivial
  | cmd c k ih => exact .inl ⟨h.1, fun r => ih r (h.2 r)⟩

theorem once_bind {p : Prog C R ε α} {f : α → Prog C R ε β} (hp : p.Only own) (hf : ∀ a, (f a).Once own joint) :
    (p >>= f).Once own joint := by
  rw [bind_eq]
  induction p with
  | pure a => exact hf a
  | fail e => trivial
  | cmd c k ih => exact .inl ⟨hp.1, fun r => ih r (hp.2 r)⟩

theorem Once.before {p : Prog C R ε α} {f : α → Prog C R ε β} (hp : p.Once own joint) (hf : ∀ a, (f a).Only own) :
    (p >>= f).Once own joint := by
  rw [bind_eq]
  induction p with
  | pure a => exact (hf a).once
  | fail e => trivial
  | cmd c k ih =>
    rcases hp with ⟨hc, hk⟩ | ⟨hc, hk⟩
    · exact .inl ⟨hc, fun r => ih r (hk r)⟩
    · exact .inr ⟨hc, fun r => only_bind (hk r) hf⟩

theorem once_mapError {f : ε → ε'} {p : Prog C R ε α} (hp : p.Once own joint) : (p.mapError f).Once own joint := by
  induction p with
  | pure | fail => trivial
  | cmd c k ih =>
    rcases hp with ⟨hc, hk⟩ | ⟨hc, hk⟩
    · exact .inl ⟨hc, fun r => ih r (hk r)⟩
    · exact .inr ⟨hc, fun r => only_mapError (hk r)⟩

end

/-! ## Runs alone -/

section
variable {x : Exec C R S} {shared : S → D} {drawn : S → O} {own joint : C → Prop}

/-- Run alone where `d` is shared, on the right draws, the program comes to this. -/
def Could (x : Exec C R S) (shared : S → D) (drawn : S → O) (p : Prog C R ε α) (d : D) (r : Except ε α) (d' : D) : Prop :=
  ∃ o, ∀ s, shared s = d → drawn s = o → (p.run x s).1 = r ∧ shared (p.run x s).2 = d'

theorem could_ended (s : S) (r : Except ε α) (d : D) : Could x shared drawn (ofExcept r : Prog C R ε α) d r d := by
  refine ⟨drawn s, fun s' hd _ => ?_⟩
  cases r with
  | ok a => exact ⟨rfl, hd⟩
  | error e => exact ⟨rfl, hd⟩

variable {c : C} {k : R c → Prog C R ε α} {s : S} {r : Except ε α} {d d' : D}

theorem could_own (hx : Draws x shared drawn own joint) (hc : own c) (h : Could x shared drawn (k (x c s).1) d r d') :
    Could x shared drawn (cmd c k) d r d' := by
  obtain ⟨o, ho⟩ := h
  obtain ⟨o', ho'⟩ := hx.own c s d o hc
  refine ⟨o', fun s' hd hdrawn => ?_⟩
  obtain ⟨hanswer, hshared, hrest⟩ := ho' s' hd hdrawn
  rw [run_command, hanswer]
  exact ho _ hshared hrest

theorem could_joint (hx : Draws x shared drawn own joint) (hc : joint c)
    (h : Could x shared drawn (k (x c s).1) (shared (x c s).2) r d') : Could x shared drawn (cmd c k) (shared s) r d' := by
  obtain ⟨o, ho⟩ := h
  obtain ⟨o', ho'⟩ := hx.joint c s o hc
  refine ⟨o', fun s' hd hdrawn => ?_⟩
  obtain ⟨hanswer, hshared, hrest⟩ := ho' s' hd hdrawn
  rw [run_command, hanswer]
  exact ho _ hshared hrest

end

/-! ## Pools -/

namespace Pool
variable {x : Exec C R S} {shared : S → D} {drawn : S → O} {own joint : C → Prop}

/-- Of the turns of task `i` in `is` only the one after `js` touches what is shared. -/
def TouchesAt (x : Exec C R S) (shared : S → D) (p : Pool τ C R ε α S) (is : List ℕ) (i : ℕ) (js : List ℕ) : Prop :=
  ∀ ks, ks ++ [i] <+: is → ks ≠ js → shared (p.play x (ks ++ [i])).state = shared (p.play x ks).state

theorem TouchesAt.snoc {p : Pool τ C R ε α S} {is js : List ℕ} {i j : ℕ} (h : p.TouchesAt x shared is i js)
    (hj : i = j → is ≠ js → shared (p.play x (is ++ [j])).state = shared (p.play x is).state) :
    p.TouchesAt x shared (is ++ [j]) i js := by
  intro ks hks hne
  rcases List.prefix_concat_iff.mp hks with heq | hks
  · obtain ⟨rfl, hij⟩ := List.append_inj' heq rfl
    cases hij
    exact hj rfl hne
  · exact h ks hks hne

/-- How far a task has got that touches once: it has not yet, and could still come to what it could have from
the start; or it has after `js`, and what it could come to from there it could have come to alone. -/
inductive Acting (x : Exec C R S) (shared : S → D) (drawn : S → O) (own joint : C → Prop) (p : Pool τ C R ε α S)
    (p₀ : Prog C R ε α) (is : List ℕ) (i : ℕ) (q : Prog C R ε α) : Prop
  | waiting (hq : q.Once own joint) (hcould : ∀ d r d', Could x shared drawn q d r d' → Could x shared drawn p₀ d r d')
      (htouch : ∀ js, p.TouchesAt x shared is i js)
  | done (js : List ℕ) (hjs : js ++ [i] <+: is) (hq : q.Only own)
      (hcould : ∀ r d', Could x shared drawn q (shared (p.play x (js ++ [i])).state) r d' →
        Could x shared drawn p₀ (shared (p.play x js).state) r d')
      (htouch : p.TouchesAt x shared is i js)

variable {p : Pool τ C R ε α S} {p₀ : Prog C R ε α} {i : ℕ} {t : τ}

theorem play_snoc (is : List ℕ) (j : ℕ) : p.play x (is ++ [j]) = (p.play x is).turn x j := play_append is [j]

theorem acting_step (hx : Draws x shared drawn own joint) {is : List ℕ} {c : C} {k : R c → Prog C R ε α}
    (h : p.Acting x shared drawn own joint p₀ is i (cmd c k))
    (hturn : (p.play x (is ++ [i])).state = (x c (p.play x is).state).2) :
    p.Acting x shared drawn own joint p₀ (is ++ [i]) i (k (x c (p.play x is).state).1) := by
  have hsame : own c → shared (p.play x (is ++ [i])).state = shared (p.play x is).state := fun hc => by
    rw [hturn]
    exact hx.untouched c _ hc
  cases h with
  | waiting hq hcould htouch =>
    rcases hq with ⟨hc, hk⟩ | ⟨hc, hk⟩
    · exact .waiting (hk _) (fun d r d' h => hcould d r d' (could_own hx hc h)) fun js => (htouch js).snoc fun _ _ => hsame hc
    · refine .done is List.prefix_rfl (hk _) (fun r d' h => hcould _ r d' (could_joint hx hc ?_))
        ((htouch is).snoc fun _ hne => absurd rfl hne)
      rwa [← hturn]
  | done js hjs hq hcould htouch =>
    exact .done js (hjs.trans (List.prefix_append is [i])) (hq.2 _) (fun r d' h => hcould r d' (could_own hx hq.1 h))
      (htouch.snoc fun _ _ => hsame hq.1)

theorem Acting.other {is : List ℕ} {j : ℕ} {q : Prog C R ε α} (h : p.Acting x shared drawn own joint p₀ is i q)
    (hj : i = j → shared (p.play x (is ++ [j])).state = shared (p.play x is).state) :
    p.Acting x shared drawn own joint p₀ (is ++ [j]) i q := by
  cases h with
  | waiting hq hcould htouch => exact .waiting hq hcould fun js => (htouch js).snoc fun heq _ => hj heq
  | done js hjs hq hcould htouch =>
    exact .done js (hjs.trans (List.prefix_append is [j])) hq hcould (htouch.snoc fun heq _ => hj heq)

theorem acting_play (hx : Draws x shared drawn own joint) (hp₀ : p₀.Once own joint) (hi : p.tasks[i]? = some (t, p₀))
    (is : List ℕ) : ∃ q, (p.play x is).tasks[i]? = some (t, q) ∧ p.Acting x shared drawn own joint p₀ is i q := by
  induction is using List.reverseRecOn with
  | nil => exact ⟨p₀, hi, .waiting hp₀ (fun _ _ _ h => h) fun js ks hks => absurd (List.prefix_nil.mp hks) (by simp)⟩
  | append_singleton is j ih =>
    obtain ⟨q, hq, hacting⟩ := ih
    cases hn : (p.play x is).next? j with
    | none =>
      have hsame : p.play x (is ++ [j]) = p.play x is := (play_snoc is j).trans (turn_none hn)
      rw [hsame]
      exact ⟨q, hq, hacting.other fun _ => by rw [hsame]⟩
    | some tc =>
      obtain ⟨k, hk, hturn⟩ := turn_some (x := x) hn
      have hsnoc := (play_snoc is j).trans hturn
      by_cases hij : i = j
      · subst hij
        obtain ⟨rfl, rfl⟩ := Prod.mk.inj (Option.some.inj (hq.symm.trans hk))
        refine ⟨_, ?_, acting_step hx hacting (by rw [hsnoc])⟩
        rw [hsnoc]
        exact List.getElem?_set_self (List.getElem?_eq_some_iff.mp hk).1
      · refine ⟨q, ?_, hacting.other fun heq => absurd heq hij⟩
        rw [hsnoc]
        exact (List.getElem?_set_ne (Ne.symm hij)).trans hq

/-- A task that touches once and has ended with `r`: after some `js` it could have come to `r` alone, its turn
there did to what is shared what it would have done alone, and its other turns did nothing to it. Where it
has not touched at all, `js` are all the turns. -/
theorem acts_at_once (hx : Draws x shared drawn own joint) (hp₀ : p₀.Once own joint) (hi : p.tasks[i]? = some (t, p₀))
    {is : List ℕ} {r : Except ε α} (hend : (p.play x is).tasks[i]? = some (t, ofExcept r)) :
    ∃ js, (js ++ [i] <+: is ∨ js = is) ∧ p.TouchesAt x shared is i js ∧
      Could x shared drawn p₀ (shared (p.play x js).state) r (shared (p.play x (js ++ [i])).state) := by
  obtain ⟨q, hq, hacting⟩ := acting_play hx hp₀ hi is
  obtain ⟨-, rfl⟩ := Prod.mk.inj (Option.some.inj (hq.symm.trans hend))
  cases hacting with
  | waiting _ hcould htouch =>
    have hidle : (p.play x is).next? i = none := by
      unfold next?
      rw [hend]
      cases r <;> rfl
    refine ⟨is, .inr rfl, htouch is, hcould _ r _ ?_⟩
    rw [play_snoc, turn_none hidle]
    exact could_ended (p.play x is).state r _
  | done js hjs _ hcould htouch =>
    exact ⟨js, .inl hjs, htouch, hcould r _ (could_ended (p.play x is).state r _)⟩

end Pool
end Prog
