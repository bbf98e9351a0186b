import Mathlib.Data.List.Basic

/-! Bounded broadcast channels: each receiver reads from its own position, and one that falls behind
the messages the channel still holds is told how many it has missed. -/

/-- All messages sent, of which the last `capacity` are held. -/
structure Broadcast (α : Type) where
  capacity : ℕ
  sent : List α

namespace Broadcast
variable {α : Type} {c : Broadcast α} {position : ℕ} {a : α}

inductive Received (α : Type)
  | message (a : α)
  | lagged (skipped : ℕ)

def send (c : Broadcast α) (a : α) : Broadcast α := { c with sent := c.sent ++ [a] }

def subscribe (c : Broadcast α) : ℕ := c.sent.length

/-- The next message, or how many of the unread are no longer held; nothing while none is unread. -/
def recv (c : Broadcast α) (position : ℕ) : Option (Received α × ℕ) :=
  if position + c.capacity < c.sent.length then
    some (.lagged (c.sent.length - c.capacity - position), c.sent.length - c.capacity)
  else (c.sent[position]?).map fun a => (.message a, position + 1)

/-- What has been sent since the receiver last read. -/
def unread (c : Broadcast α) (position : ℕ) : List α := c.sent.drop position

@[simp] theorem send_sent : (c.send a).sent = c.sent ++ [a] := rfl

theorem unread_subscribe : c.unread c.subscribe = [] := List.drop_length

theorem unread_send (h : position ≤ c.sent.length) : (c.send a).unread position = c.unread position ++ [a] :=
  List.drop_append_of_le_length h

theorem recv_message {next : ℕ} (h : c.recv position = some (.message a, next)) :
    next ≤ c.sent.length ∧ c.unread position = a :: c.unread next := by
  unfold recv at h
  split at h
  · cases h
  · obtain ⟨a', ha, heq⟩ := Option.map_eq_some_iff.mp h
    cases heq
    obtain ⟨hlt, rfl⟩ := List.getElem?_eq_some_iff.mp ha
    exact ⟨hlt, List.drop_eq_getElem_cons hlt⟩

theorem recv_lagged {skipped next : ℕ} (h : c.recv position = some (.lagged skipped, next)) :
    next ≤ c.sent.length ∧ skipped ≤ (c.unread position).length ∧ c.unread next = (c.unread position).drop skipped := by
  unfold recv at h
  split at h
  · rename_i hbehind
    cases h
    refine ⟨Nat.sub_le .., ?_, ?_⟩
    · show _ ≤ (c.sent.drop position).length
      rw [List.length_drop]
      omega
    · show c.sent.drop _ = (c.sent.drop position).drop _
      rw [List.drop_drop]
      congr 1
      omega
  · obtain ⟨a', -, heq⟩ := Option.map_eq_some_iff.mp h
    cases heq

end Broadcast
