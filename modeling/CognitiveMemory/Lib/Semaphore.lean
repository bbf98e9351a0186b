import Mathlib.Data.List.Nodup

/-! Fair semaphores: a permit that comes back goes to whoever waits longest, so that permits are
only free while nobody waits. -/

structure Semaphore (ι : Type) where
  free : ℕ
  queue : List ι
  idle : queue ≠ [] → free = 0

namespace Semaphore
variable {ι : Type} {s : Semaphore ι} {i j : ι}

def new (permits : ℕ) : Semaphore ι := ⟨permits, [], fun h => absurd rfl h⟩

theorem queue_eq_nil (s : Semaphore ι) (h : 0 < s.free) : s.queue = [] := by
  by_contra hne
  have := s.idle hne
  omega

/-- A permit at once, or a place at the end of the queue. -/
def acquire (s : Semaphore ι) (i : ι) : Bool × Semaphore ι :=
  if h : 0 < s.free then (true, ⟨s.free - 1, s.queue, fun hwait => absurd (s.queue_eq_nil h) hwait⟩)
  else (false, ⟨s.free, s.queue ++ [i], fun _ => by omega⟩)

/-- The permit goes to the first in the queue, if there is one. -/
def release (s : Semaphore ι) : Option ι × Semaphore ι :=
  match hq : s.queue with
  | [] => (none, ⟨s.free + 1, [], fun h => absurd rfl h⟩)
  | i :: rest => (some i, ⟨s.free, rest, fun _ => s.idle (by rw [hq]; exact List.cons_ne_nil i rest)⟩)

/-- Whoever stops waiting leaves the queue. -/
def abandon [DecidableEq ι] (s : Semaphore ι) (i : ι) : Semaphore ι :=
  ⟨s.free, s.queue.filter (· ≠ i), fun h => s.idle fun hnil => h (by rw [hnil]; rfl)⟩

theorem acquire_of_free (h : 0 < s.free) :
    ∃ s', s.acquire i = (true, s') ∧ s'.free + 1 = s.free ∧ s'.queue = s.queue :=
  ⟨_, dif_pos h, by show s.free - 1 + 1 = s.free; omega, rfl⟩

theorem acquire_of_taken (h : s.free = 0) :
    ∃ s', s.acquire i = (false, s') ∧ s'.free = 0 ∧ s'.queue = s.queue ++ [i] :=
  ⟨_, dif_neg (by omega), h, rfl⟩

theorem release_of_queue {rest : List ι} (h : s.queue = i :: rest) :
    ∃ s', s.release = (some i, s') ∧ s'.free = s.free ∧ s'.queue = rest := by
  unfold release
  split
  · rename_i hnil
    rw [hnil] at h
    cases h
  · rename_i heq
    cases heq.symm.trans h
    exact ⟨_, rfl, rfl, rfl⟩

theorem release_of_nil (h : s.queue = []) : ∃ s', s.release = (none, s') ∧ s'.free = s.free + 1 ∧ s'.queue = [] := by
  unfold release
  split
  · exact ⟨_, rfl, rfl, rfl⟩
  · rename_i heq
    rw [heq] at h
    cases h

@[simp] theorem abandon_free [DecidableEq ι] : (s.abandon i).free = s.free := rfl

theorem mem_abandon [DecidableEq ι] : j ∈ (s.abandon i).queue ↔ j ∈ s.queue ∧ j ≠ i := by
  simp [abandon]

theorem abandon_nodup [DecidableEq ι] (h : s.queue.Nodup) : (s.abandon i).queue.Nodup := h.filter _

end Semaphore
