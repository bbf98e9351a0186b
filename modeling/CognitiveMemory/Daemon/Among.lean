import CognitiveMemory.Daemon.Pooled
import CognitiveMemory.Lib.Amid

/-! Single statements of a request among the statements of others. -/

namespace CognitiveMemory
open Prog
variable {F : Type} [Field F] [LinearOrder F] {bm25 : Bm25 F} {K : Rely (World F)} {w : World F}

theorem amid_sqlx {α : Type} {p : Repo F α} : (sqlx p).Amid (exec bm25) K
    (fun answer _ => ∀ e, answer = .error e → ∃ e', e = .storage e') w := by
  refine .mapError ((amid_any p w).imp fun answer _ _ e he => ?_)
  cases answer with
  | ok a => cases he
  | error e' =>
    cases he
    exact ⟨e', rfl⟩

theorem amid_query {q : Query F} {J : World F → Prop} {P : q.Res → Prop} (hrel : ∀ w w', K.rel w w' → J w → J w')
    (hdb : ∀ w w' : World F, w'.db = w.db → J w → J w') (hP : ∀ (w : World F) a, J w → q.eval bm25 w.db = .ok a → P a) (h : J w) :
    (sqlx (query q)).Amid (exec bm25) K
      (fun answer w' => J w' ∧ (∀ e, answer = .error e → ∃ e', e = .storage e') ∧ ∀ a, answer = .ok a → P a) w := by
  refine .mapError (amid_single (fun r => ⟨r, rfl⟩) fun w₁ hr => ends_query.imp fun answer w₂ h₂ w₃ hr' => ?_)
  have h₁ := hrel _ _ hr h
  refine ⟨hrel _ _ hr' (hdb _ _ (by rw [h₂.1]; rfl) h₁), ?_⟩
  cases answer with
  | error e =>
    refine ⟨fun e' he => ?_, fun _ h => (by cases h)⟩
    cases he
    exact ⟨e, rfl⟩
  | ok a =>
    refine ⟨fun _ h => (by cases h), fun a' ha => ?_⟩
    cases ha
    have heval := h₂.2
    split at heval
    · cases heval
    · exact hP w₁ a h₁ heval.symm

/-- What requests issue from their beginning, they issue in the middle of a run. -/
theorem only_accepted [Elementary F] {P : Caller F → Cmd F → Prop} {ts : List (Caller F)}
    (h : ∀ t ∈ ts, (handleRequest t.app t.request t.user).Only (P t)) (is : List ℕ) :
    ∀ tp ∈ ((accepted w ts).play (exec bm25) is).tasks, tp.2.Only (P tp.1) := by
  refine Pool.play_invariant (J := fun p : Requests F => ∀ tp ∈ p.tasks, tp.2.Only (P tp.1)) (fun p i t c hp hn => ?_) ?_ is
  · obtain ⟨k, htask, hturn⟩ := Pool.turn_some (x := exec bm25) hn
    rw [hturn]
    intro tp htp
    obtain htp | rfl := List.mem_or_eq_of_mem_set htp
    · exact hp tp htp
    · exact (hp _ (List.mem_of_getElem? htask)).2 _
  · intro tp htp
    obtain ⟨t, ht, rfl⟩ := List.mem_map.mp htp
    exact h t ht

end CognitiveMemory
