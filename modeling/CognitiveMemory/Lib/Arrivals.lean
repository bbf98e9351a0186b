import CognitiveMemory.Lib.Amid

/-! Pools that tasks come in to while others are at work. Such a pool is what one comes to at which all of
them stood from the start. -/

namespace Prog.Pool
variable {C : Type} {R : C → Type} {ε α τ S : Type} {x : Exec C R S} {p : Pool τ C R ε α S}

def enter (p : Pool τ C R ε α S) (late : List (τ × Prog C R ε α)) : Pool τ C R ε α S := { p with tasks := p.tasks ++ late }

theorem start_enter (s : S) (tasks late : List (τ × Prog C R ε α)) :
    (start s tasks).enter late = start s (tasks ++ late) := rfl

theorem length_turn (p : Pool τ C R ε α S) (i : ℕ) : (p.turn x i).tasks.length = p.tasks.length := by
  have hlabels := congrArg List.length (labels_turn (x := x) p i)
  rwa [List.length_map, List.length_map] at hlabels

variable (late : List (τ × Prog C R ε α))

/-- Who comes in does not matter to the turn of who was there. -/
theorem turn_enter {i : ℕ} (h : i < p.tasks.length) : (p.enter late).turn x i = (p.turn x i).enter late := by
  have hsame : (p.enter late).tasks[i]? = p.tasks[i]? := List.getElem?_append_left h
  unfold turn
  rw [hsame]
  split
  · simp only [enter, List.set_append_left _ _ h]
  · rfl

theorem play_enter {is : List ℕ} (h : ∀ i ∈ is, i < p.tasks.length) :
    (p.enter late).play x is = (p.play x is).enter late := by
  induction is generalizing p with
  | nil => rfl
  | cons i is ih =>
    obtain ⟨hi, his⟩ := List.forall_mem_cons.mp h
    have hrest : ∀ j ∈ is, j < (p.turn x i).tasks.length := by
      rw [length_turn]
      exact his
    calc (p.enter late).play x (i :: is) = ((p.enter late).turn x i).play x is := rfl
      _ = ((p.turn x i).enter late).play x is := by rw [turn_enter late hi]
      _ = ((p.turn x i).play x is).enter late := ih hrest

theorem ended_turn {i : ℕ} {t : τ} {r : Except ε α} (h : p.tasks[i]? = some (t, ofExcept r)) (j : ℕ) :
    (p.turn x j).tasks[i]? = some (t, ofExcept r) := by
  cases hn : p.next? j with
  | none => rwa [turn_none hn]
  | some tc =>
    obtain ⟨k, hk, hturn⟩ := turn_some (x := x) hn
    have hij : j ≠ i := by
      rintro rfl
      rw [h] at hk
      cases r <;> cases hk
    rw [hturn]
    exact (List.getElem?_set_ne hij).trans h

theorem ended_enter {i : ℕ} {tp : τ × Prog C R ε α} (h : p.tasks[i]? = some tp) : (p.enter late).tasks[i]? = some tp :=
  (List.getElem?_append_left (List.getElem?_eq_some_iff.mp h).1).trans h

end Prog.Pool
