import CognitiveMemory.Lib.Schedule
import Mathlib.Data.List.Nodup

/-! Tasks that write from what they have read. Where that still holds when they write, and none of them goes
on while another one writes, they come to what they come to one after the other. -/

namespace Prog
variable {C : Type} {R : C → Type} {ε α β τ S D : Type}

/-! ## Answers one after the other -/

def Chain (holds : (c : C) × R c → D → D → Prop) : History C R → D → D → Prop
  | [], d, d' => d = d'
  | e :: es, d, d' => ∃ d₁, holds e d d₁ ∧ Chain holds es d₁ d'

section
variable {holds : (c : C) × R c → D → D → Prop} {es es' : History C R} {d d' d'' : D}

theorem chain_append : Chain holds (es ++ es') d d' ↔ ∃ d₁, Chain holds es d d₁ ∧ Chain holds es' d₁ d' := by
  induction es generalizing d with
  | nil => simp [Chain]
  | cons e es ih =>
    simp only [List.cons_append, Chain, ih]
    constructor
    · rintro ⟨d₁, he, d₂, hes, hes'⟩
      exact ⟨d₂, ⟨d₁, he, hes⟩, hes'⟩
    · rintro ⟨d₂, ⟨d₁, he, hes⟩, hes'⟩
      exact ⟨d₁, he, d₂, hes, hes'⟩

theorem Chain.append (h : Chain holds es d d') (h' : Chain holds es' d' d'') : Chain holds (es ++ es') d d'' :=
  chain_append.mpr ⟨d', h, h'⟩

theorem chain_one {e : (c : C) × R c} (h : holds e d d') : Chain holds [e] d d' := ⟨d', h, rfl⟩

theorem chain_still (h : ∀ e ∈ es, holds e d d) : Chain holds es d d := by
  induction es with
  | nil => rfl
  | cons e es ih => exact ⟨d, h e List.mem_cons_self, ih fun e' he' => h e' (List.mem_cons_of_mem _ he')⟩

end

/-! ## What is shared -/

/-- What a command does with what is shared: nothing at all, or so that nobody sees it; nothing, as it draws
from outside; it reads it; or it writes it. -/
inductive Access
  | veiled
  | drawn
  | read
  | write
  deriving DecidableEq

/-- `holds e d d'`: where `d` is shared, the command may be answered so, and leaves `d'`. `still e s`: the
state would answer it so again. -/
structure Shares (x : Exec C R S) (issued : C → Prop) (access : C → Access) (shared : S → D)
    (holds : (c : C) × R c → D → D → Prop) (still : (c : C) × R c → S → Prop) : Prop where
  same : ∀ c s, issued c → access c ≠ .write → shared (x c s).2 = shared s
  answered : ∀ c s, issued c → access c ≠ .veiled → holds ⟨c, (x c s).1⟩ (shared s) (shared (x c s).2)
  again : ∀ c s s', issued c → access c ≠ .veiled → access c ≠ .write → still ⟨c, (x c s).1⟩ s' →
    holds ⟨c, (x c s).1⟩ (shared s') (shared s')

namespace Pool
variable {x : Exec C R S} {issued : C → Prop} {access : C → Access} {shared : S → D} {holds : (c : C) × R c → D → D → Prop}
  {still : (c : C) × R c → S → Prop} {ordered : (c : C) × R c → (c : C) × R c → Prop}

def told (access : C → Access) (log : List (Event C R)) (i : ℕ) : History C R :=
  ((seen log i).filter fun e => access e.1 ≠ .veiled).reverse

def wrote (access : C → Access) (log : List (Event C R)) (i : ℕ) : Bool :=
  log.any fun e => e.task == i && access e.command == .write

section
variable {log : List (Event C R)} {i j : ℕ} {c : C} {r : R c}

theorem told_self : told access (⟨i, c, r⟩ :: log) i = told access log i ++ if access c = .veiled then [] else [⟨c, r⟩] := by
  by_cases hc : access c = .veiled <;> simp [told, seen, hc]

theorem told_other (h : i ≠ j) : told access (⟨i, c, r⟩ :: log) j = told access log j := by
  simp [told, seen, h]

theorem wrote_self : wrote access (⟨i, c, r⟩ :: log) i = (access c == .write || wrote access log i) := by
  simp [wrote]

theorem wrote_other (h : i ≠ j) : wrote access (⟨i, c, r⟩ :: log) j = wrote access log j := by
  simp [wrote, h]

theorem mem_told {e : (c : C) × R c} (h : e ∈ told access log i) :
    access e.1 ≠ .veiled ∧ ∃ e' ∈ log, e'.task = i ∧ (⟨e'.command, e'.answer⟩ : (c : C) × R c) = e := by
  obtain ⟨hmem, hveil⟩ := List.mem_filter.mp (List.mem_reverse.mp h)
  obtain ⟨e', he', heq⟩ := List.mem_filterMap.mp hmem
  split at heq
  · rename_i htask
    exact ⟨by simpa using hveil, e', he', htask, Option.some.inj heq⟩
  · cases heq

theorem access_of_told (hwrote : wrote access log i = false) {e : (c : C) × R c} (h : e ∈ told access log i) :
    access e.1 ≠ .write := by
  obtain ⟨-, e', he', rfl, rfl⟩ := mem_told h
  intro hw
  have hnone := List.any_eq_false.mp hwrote e' he'
  simp [hw] at hnone

end

theorem next?_turn_other {p : Pool τ C R ε α S} {i j : ℕ} {t : τ} {c : C} (hn : p.next? i = some (t, c)) (h : i ≠ j) :
    (p.turn x i).next? j = p.next? j := by
  obtain ⟨k, -, hturn⟩ := turn_some (x := x) hn
  rw [hturn]
  simp only [next?, List.getElem?_set_ne h]

/-! ## Runs without staleness -/

/-- Nobody is in the middle of writing, what the task was told still holds, and it was told it no sooner than
those that have written, or ended, were told theirs. -/
structure Current (access : C → Access) (still : (c : C) × R c → S → Prop)
    (ordered : (c : C) × R c → (c : C) × R c → Prop) (p : Pool τ C R ε α S) (i : ℕ) : Prop where
  alone : ∀ j < p.tasks.length, wrote access p.log j = true → p.next? j = none
  still : ∀ e ∈ told access p.log i, still e p.state
  ordered : ∀ j < p.tasks.length, wrote access p.log j = true ∨ p.next? j = none →
    ∀ e ∈ told access p.log j, ∀ e' ∈ told access p.log i, ordered e e'

/-- A task that has not written yet is current whenever it reads, writes or ends. -/
def Fresh (x : Exec C R S) (access : C → Access) (still : (c : C) × R c → S → Prop)
    (ordered : (c : C) × R c → (c : C) × R c → Prop) (p : Pool τ C R ε α S) (i : ℕ) (_ : τ) (c : C) : Prop :=
  wrote access p.log i = true ∨
  ((access c = .veiled ∨ access c = .drawn) ∧ ((p.turn x i).next? i ≠ none ∨ told access (p.turn x i).log i = [])) ∨
  p.Current access still ordered i

section
variable [∀ e s, Decidable (still e s)] [∀ e e', Decidable (ordered e e')]

instance (p : Pool τ C R ε α S) (i : ℕ) :
    Decidable (p.next? i = none) := decidable_of_iff ((p.next? i).isNone = true) Option.isNone_iff_eq_none

instance (p : Pool τ C R ε α S) (i : ℕ) : Decidable (p.Current access still ordered i) :=
  decidable_of_iff ((∀ j < p.tasks.length, wrote access p.log j = true → p.next? j = none) ∧
    (∀ e ∈ told access p.log i, still e p.state) ∧
    ∀ j < p.tasks.length, wrote access p.log j = true ∨ p.next? j = none →
      ∀ e ∈ told access p.log j, ∀ e' ∈ told access p.log i, ordered e e')
    ⟨fun ⟨halone, hstill, hordered⟩ => ⟨halone, hstill, hordered⟩, fun h => ⟨h.alone, h.still, h.ordered⟩⟩

instance (x : Exec C R S) (p : Pool τ C R ε α S) (i : ℕ) (t : τ) (c : C) :
    Decidable (p.Fresh x access still ordered i t c) :=
  inferInstanceAs (Decidable (_ ∨ _ ∨ _))

end

/-- The tasks that have ended, so ordered that one after the other they would be answered the same; after
them the one that is writing, if there is one. -/
structure InOrder (x : Exec C R S) (issued : C → Prop) (access : C → Access) (shared : S → D)
    (holds : (c : C) × R c → D → D → Prop) (ordered : (c : C) × R c → (c : C) × R c → Prop) (d₀ : D) (p : Pool τ C R ε α S)
    (order active : List ℕ) : Prop where
  ended : ∀ i, i ∈ order ↔ i < p.tasks.length ∧ p.next? i = none
  writing : ∀ i, i ∈ active ↔ wrote access p.log i = true ∧ p.next? i ≠ none
  single : active.length ≤ 1
  nodup : order.Nodup
  chain : ∃ d, Chain holds (order.flatMap (told access p.log)) d₀ d ∧
    Chain holds (active.flatMap (told access p.log)) d (shared p.state)
  sorted : ((order ++ active).flatMap (told access p.log)).Pairwise ordered
  each : ∀ i, (told access p.log i).Pairwise ordered
  genuine : ∀ e ∈ p.log, issued e.command ∧ ∃ s, e.answer = (x e.command s).1

namespace InOrder
variable {d₀ : D} {p : Pool τ C R ε α S} {order active : List ℕ} {i : ℕ} {t : τ} {c : C}

theorem lt_of_next? (hn : p.next? i = some (t, c)) : i < p.tasks.length := by
  obtain ⟨k, htask⟩ := next?_some hn
  exact (List.getElem?_eq_some_iff.mp htask).1

theorem told_turn (access : C → Access) (hn : p.next? i = some (t, c)) {ids : List ℕ} (hi : i ∉ ids) :
    ids.flatMap (told access (p.turn x i).log) = ids.flatMap (told access p.log) := by
  obtain ⟨k, -, hturn⟩ := turn_some (x := x) hn
  rw [hturn]
  refine List.flatMap_congr fun j hj => told_other fun hij => hi (hij ▸ hj)

theorem not_mem_order (h : p.InOrder x issued access shared holds ordered d₀ order active) (hn : p.next? i = some (t, c)) :
    i ∉ order := by
  intro hi
  rw [((h.ended i).mp hi).2] at hn
  cases hn

theorem not_wrote (h : p.InOrder x issued access shared holds ordered d₀ order active) (hn : p.next? i = some (t, c))
    (hi : i ∉ active) : wrote access p.log i = false := by
  rw [← Bool.not_eq_true]
  exact fun hwrote => hi ((h.writing i).mpr ⟨hwrote, by simp [hn]⟩)

theorem each_turn (h : p.InOrder x issued access shared holds ordered d₀ order active) (hn : p.next? i = some (t, c))
    (htime : ∀ e ∈ p.log, access e.command ≠ .veiled → ordered ⟨e.command, e.answer⟩ ⟨c, (x c p.state).1⟩) (j : ℕ) :
    (told access (p.turn x i).log j).Pairwise ordered := by
  obtain ⟨k, -, hturn⟩ := turn_some (x := x) hn
  rw [hturn]
  by_cases hij : i = j
  · subst hij
    rw [told_self]
    refine List.pairwise_append.mpr ⟨h.each i, ?_, fun e he e' he' => ?_⟩
    · split
      · exact .nil
      · exact List.pairwise_singleton _ _
    · obtain ⟨hveil, event, hevent, -, rfl⟩ := mem_told he
      split at he'
      · cases he'
      · rw [List.mem_singleton.mp he']
        exact htime event hevent hveil
  · rw [told_other hij]
    exact h.each j

theorem genuine_turn (h : p.InOrder x issued access shared holds ordered d₀ order active) (hn : p.next? i = some (t, c))
    (hc : issued c) : ∀ e ∈ (p.turn x i).log, issued e.command ∧ ∃ s, e.answer = (x e.command s).1 := by
  obtain ⟨k, -, hturn⟩ := turn_some (x := x) hn
  rw [hturn]
  exact List.forall_mem_cons.mpr ⟨⟨hc, p.state, rfl⟩, h.genuine⟩

theorem ended_turn (h : p.InOrder x issued access shared holds ordered d₀ order active)
    (hn : p.next? i = some (t, c)) (j : ℕ) :
    (j < (p.turn x i).tasks.length ∧ (p.turn x i).next? j = none) ↔ j ∈ order ∨ j = i ∧ (p.turn x i).next? i = none := by
  have hlength : (p.turn x i).tasks.length = p.tasks.length := by
    obtain ⟨k, -, hturn⟩ := turn_some (x := x) hn
    rw [hturn, List.length_set]
  rw [hlength]
  by_cases hij : i = j
  · subst hij
    simp [lt_of_next? hn, h.not_mem_order hn]
  · rw [next?_turn_other hn hij, ← h.ended j]
    simp [Ne.symm hij]

theorem active_turn (h : p.InOrder x issued access shared holds ordered d₀ order active)
    (hn : p.next? i = some (t, c)) {j : ℕ} (hij : i ≠ j) : (wrote access (p.turn x i).log j = true ∧ (p.turn x i).next? j ≠ none) ↔ j ∈ active := by
  obtain ⟨k, -, hturn⟩ := turn_some (x := x) hn
  rw [next?_turn_other hn hij, hturn, wrote_other hij]
  exact (h.writing j).symm

/-- A task that is not writing and does nothing to what is shared. -/
theorem skip (hx : Shares x issued access shared holds still)
    (h : p.InOrder x issued access shared holds ordered d₀ order active)
    (hn : p.next? i = some (t, c)) (hc : issued c)
    (htime : ∀ e ∈ p.log, access e.command ≠ .veiled → ordered ⟨e.command, e.answer⟩ ⟨c, (x c p.state).1⟩)
    (hidle : i ∉ active) (haccess : access c ≠ .write)
    (hgoes : (p.turn x i).next? i ≠ none ∨ told access (p.turn x i).log i = []) :
    ∃ order' active', (p.turn x i).InOrder x issued access shared holds ordered d₀ order' active' := by
  obtain ⟨k, -, hturn⟩ := turn_some (x := x) hn
  have hshared : shared (p.turn x i).state = shared p.state := by
    rw [hturn]
    exact hx.same c p.state hc haccess
  have hwrote' : wrote access (p.turn x i).log i = false := by
    rw [hturn, wrote_self, h.not_wrote hn hidle]
    simpa using haccess
  have horder := told_turn (x := x) access hn (h.not_mem_order hn)
  have hactive := told_turn (x := x) access hn hidle
  have hmem : ∀ j, j ∈ active ↔ wrote access (p.turn x i).log j = true ∧ (p.turn x i).next? j ≠ none := by
    intro j
    by_cases hij : i = j
    · subst hij
      simp [hwrote', hidle]
    · exact (h.active_turn hn hij).symm
  obtain ⟨d, hbefore, hafter⟩ := h.chain
  by_cases hend : (p.turn x i).next? i = none
  · -- it ends, and has been told nothing
    have hnothing : told access (p.turn x i).log i = [] := hgoes.resolve_left fun hne => hne hend
    refine ⟨order ++ [i], active, fun j => ?_, hmem, h.single, ?_, ⟨d, ?_, ?_⟩, ?_, h.each_turn hn htime, h.genuine_turn hn hc⟩
    · rw [h.ended_turn hn]
      simp [hend]
    · exact h.nodup.append (List.nodup_singleton i) (List.disjoint_singleton.mpr (h.not_mem_order hn))
    · rw [List.flatMap_append, horder]
      simpa [hnothing] using hbefore
    · rw [hactive, hshared]
      exact hafter
    · have hsorted := h.sorted
      rw [List.flatMap_append] at hsorted ⊢
      rw [List.flatMap_append, horder, hactive]
      simpa [hnothing] using hsorted
  · refine ⟨order, active, fun j => ?_, hmem, h.single, h.nodup, ⟨d, horder ▸ hbefore, ?_⟩, ?_, h.each_turn hn htime,
      h.genuine_turn hn hc⟩
    · rw [h.ended_turn hn]
      simp [hend]
    · rw [hactive, hshared]
      exact hafter
    · rw [List.flatMap_append, horder, hactive, ← List.flatMap_append]
      exact h.sorted

theorem settle (h : p.InOrder x issued access shared holds ordered d₀ order active)
    (hn : p.next? i = some (t, c)) (hc : issued c)
    (htime : ∀ e ∈ p.log, access e.command ≠ .veiled → ordered ⟨e.command, e.answer⟩ ⟨c, (x c p.state).1⟩)
    (halone : ∀ j ∈ active, j = i) {d : D} (hbefore : Chain holds (order.flatMap (told access p.log)) d₀ d)
    (hchain : Chain holds (told access (p.turn x i).log i) d (shared (p.turn x i).state))
    (hsorted : (order.flatMap (told access p.log) ++ told access (p.turn x i).log i).Pairwise ordered)
    (hreads : wrote access (p.turn x i).log i = false → shared (p.turn x i).state = d) :
    ∃ order' active', (p.turn x i).InOrder x issued access shared holds ordered d₀ order' active' := by
  have horder := told_turn (x := x) access hn (h.not_mem_order hn)
  have hothers : ∀ j, i ≠ j → ¬ (wrote access (p.turn x i).log j = true ∧ (p.turn x i).next? j ≠ none) := by
    intro j hij hj
    exact hij (halone j ((h.active_turn hn hij).mp hj)).symm
  by_cases hend : (p.turn x i).next? i = none
  · refine ⟨order ++ [i], [], fun j => ?_, fun j => ?_, by simp, ?_, ⟨_, ?_, rfl⟩, ?_, h.each_turn hn htime, h.genuine_turn hn hc⟩
    · rw [h.ended_turn hn]
      simp [hend]
    · by_cases hij : i = j
      · subst hij
        simp [hend]
      · simpa using hothers j hij
    · exact h.nodup.append (List.nodup_singleton i) (List.disjoint_singleton.mpr (h.not_mem_order hn))
    · rw [List.flatMap_append, horder, List.flatMap_singleton]
      exact hbefore.append hchain
    · rw [List.append_nil, List.flatMap_append, horder, List.flatMap_singleton]
      exact hsorted
  have hended : ∀ j, j ∈ order ↔ j < (p.turn x i).tasks.length ∧ (p.turn x i).next? j = none := by
    intro j
    rw [h.ended_turn hn]
    simp [hend]
  cases hwrote : wrote access (p.turn x i).log i with
  | true =>
    refine ⟨order, [i], hended, fun j => ?_, by simp, h.nodup, ⟨d, horder ▸ hbefore, ?_⟩, ?_, h.each_turn hn htime,
      h.genuine_turn hn hc⟩
    · by_cases hij : i = j
      · subst hij
        simp [hwrote, hend]
      · simpa [Ne.symm hij] using hothers j hij
    · rw [List.flatMap_singleton]
      exact hchain
    · rw [List.flatMap_append, horder, List.flatMap_singleton]
      exact hsorted
  | false =>
    refine ⟨order, [], hended, fun j => ?_, by simp, h.nodup, ⟨d, horder ▸ hbefore, (hreads hwrote).symm⟩, ?_,
      h.each_turn hn htime, h.genuine_turn hn hc⟩
    · by_cases hij : i = j
      · subst hij
        simp [hwrote]
      · simpa using hothers j hij
    · rw [List.append_nil, horder]
      exact (List.pairwise_append.mp hsorted).1

theorem chain_turn (hx : Shares x issued access shared holds still) (hn : p.next? i = some (t, c)) (hc : issued c) {d : D}
    (h : Chain holds (told access p.log i) d (shared p.state)) :
    Chain holds (told access (p.turn x i).log i) d (shared (p.turn x i).state) := by
  obtain ⟨k, -, hturn⟩ := turn_some (x := x) hn
  rw [hturn, told_self]
  split
  · rename_i hveil
    rw [List.append_nil, hx.same c p.state hc (by simp [hveil])]
    exact h
  · rename_i hveil
    exact h.append (chain_one (hx.answered c p.state hc hveil))

/-- What a turn adds comes after all that was told before. -/
theorem sorted_turn (hn : p.next? i = some (t, c))
    (htime : ∀ e ∈ p.log, access e.command ≠ .veiled → ordered ⟨e.command, e.answer⟩ ⟨c, (x c p.state).1⟩)
    {order : List ℕ} (hsorted : (order.flatMap (told access p.log) ++ told access p.log i).Pairwise ordered) :
    (order.flatMap (told access p.log) ++ told access (p.turn x i).log i).Pairwise ordered := by
  obtain ⟨k, -, hturn⟩ := turn_some (x := x) hn
  rw [hturn, told_self]
  split
  · rwa [List.append_nil]
  · rw [← List.append_assoc]
    refine List.pairwise_append.mpr ⟨hsorted, List.pairwise_singleton _ _, fun e he e' he' => ?_⟩
    obtain ⟨j, hj⟩ : ∃ j, e ∈ told access p.log j := by
      rcases List.mem_append.mp he with he | he
      · obtain ⟨j, -, hj⟩ := List.mem_flatMap.mp he
        exact ⟨j, hj⟩
      · exact ⟨i, he⟩
    obtain ⟨hveil, event, hevent, -, rfl⟩ := mem_told hj
    rw [List.mem_singleton.mp he']
    exact htime event hevent hveil

/-- The one that is writing goes on. -/
theorem turn_writing (hx : Shares x issued access shared holds still)
    (h : p.InOrder x issued access shared holds ordered d₀ order active) (hn : p.next? i = some (t, c)) (hc : issued c)
    (htime : ∀ e ∈ p.log, access e.command ≠ .veiled → ordered ⟨e.command, e.answer⟩ ⟨c, (x c p.state).1⟩)
    (hi : i ∈ active) :
    ∃ order' active', (p.turn x i).InOrder x issued access shared holds ordered d₀ order' active' := by
  obtain rfl : active = [i] := by
    match active, h.single, hi with
    | [j], _, hi => rw [List.mem_singleton.mp hi]
  obtain ⟨d, hbefore, hafter⟩ := h.chain
  rw [List.flatMap_singleton] at hafter
  have hsorted := h.sorted
  rw [List.flatMap_append, List.flatMap_singleton] at hsorted
  refine h.settle hn hc htime (fun j hj => List.mem_singleton.mp hj) hbefore (chain_turn hx hn hc hafter)
    (sorted_turn hn htime hsorted) fun hwrote => ?_
  obtain ⟨k, -, hturn⟩ := turn_some (x := x) hn
  rw [hturn, wrote_self, ((h.writing i).mp hi).1] at hwrote
  simp at hwrote

/-- What a task was told while nobody was writing could be answered now, all of it. -/
theorem turn_current (hx : Shares x issued access shared holds still)
    (h : p.InOrder x issued access shared holds ordered d₀ order active) (hn : p.next? i = some (t, c)) (hc : issued c)
    (htime : ∀ e ∈ p.log, access e.command ≠ .veiled → ordered ⟨e.command, e.answer⟩ ⟨c, (x c p.state).1⟩)
    (hi : i ∉ active) (hcurrent : p.Current access still ordered i) :
    ∃ order' active', (p.turn x i).InOrder x issued access shared holds ordered d₀ order' active' := by
  have hwrote := h.not_wrote hn hi
  obtain rfl : active = [] := by
    refine List.eq_nil_iff_forall_not_mem.mpr fun j hj => ?_
    obtain ⟨hjwrote, hjnext⟩ := (h.writing j).mp hj
    obtain ⟨tc, htc⟩ := Option.ne_none_iff_exists'.mp hjnext
    exact hjnext (hcurrent.alone j (lt_of_next? htc) hjwrote)
  obtain ⟨d, hbefore, hafter⟩ := h.chain
  obtain rfl : d = shared p.state := hafter
  have hstill : ∀ e ∈ told access p.log i, holds e (shared p.state) (shared p.state) := by
    intro e he
    obtain ⟨hveil, event, hevent, -, rfl⟩ := mem_told he
    obtain ⟨hissued, s, hs⟩ := h.genuine event hevent
    have hagain := hx.again event.command s p.state hissued hveil (access_of_told hwrote he)
    rw [← hs] at hagain
    exact hagain (hcurrent.still _ he)
  have hsorted : (order.flatMap (told access p.log) ++ told access p.log i).Pairwise ordered := by
    refine List.pairwise_append.mpr ⟨by simpa using h.sorted, h.each i, fun e he e' he' => ?_⟩
    obtain ⟨j, hj, hej⟩ := List.mem_flatMap.mp he
    obtain ⟨hlt, hnone⟩ := (h.ended j).mp hj
    exact hcurrent.ordered j hlt (.inr hnone) e hej e' he'
  refine h.settle hn hc htime nofun hbefore (chain_turn hx hn hc (chain_still hstill)) (sorted_turn hn htime hsorted) fun hnot => ?_
  obtain ⟨k, -, hturn⟩ := turn_some (x := x) hn
  have haccess : access c ≠ .write := by
    rw [hturn, wrote_self, hwrote] at hnot
    simpa using hnot
  rw [hturn]
  exact hx.same c p.state hc haccess

theorem turn (hx : Shares x issued access shared holds still)
    (h : p.InOrder x issued access shared holds ordered d₀ order active) (hn : p.next? i = some (t, c)) (hc : issued c)
    (htime : ∀ e ∈ p.log, access e.command ≠ .veiled → ordered ⟨e.command, e.answer⟩ ⟨c, (x c p.state).1⟩)
    (hfresh : p.Fresh x access still ordered i t c) :
    ∃ order' active', (p.turn x i).InOrder x issued access shared holds ordered d₀ order' active' := by
  by_cases hi : i ∈ active
  · exact h.turn_writing hx hn hc htime hi
  rcases hfresh with hwrote | ⟨haccess, hgoes⟩ | hcurrent
  · rw [h.not_wrote hn hi] at hwrote
    cases hwrote
  · refine h.skip hx hn hc htime hi ?_ hgoes
    rcases haccess with haccess | haccess <;> simp [haccess]
  · exact h.turn_current hx hn hc htime hi hcurrent

end InOrder

/-! ## Runs -/

end Pool

/-! ## Programs in two parts -/

theorem Ran.trans {p p' q : Prog C R ε α} {h g : History C R} (hp : Ran p h p') (hq : Ran p' g q) : Ran p (g ++ h) q := by
  induction g generalizing q with
  | nil =>
    cases hq
    exact hp
  | cons e g ih =>
    obtain ⟨k, hran, rfl⟩ := hq
    exact ⟨k, ih hran, rfl⟩

theorem Ran.bind {p p' : Prog C R ε α} {h : History C R} (hp : Ran p h p') (f : α → Prog C R ε β) :
    Ran (p.bind f) h (p'.bind f) := by
  induction h generalizing p' with
  | nil =>
    cases hp
    rfl
  | cons e h ih =>
    obtain ⟨k, hran, rfl⟩ := hp
    exact ⟨fun r => (k r).bind f, ih hran, rfl⟩

theorem ran_bind {p : Prog C R ε α} {f : α → Prog C R ε β} {h : History C R} {q : Prog C R ε β} (hran : Ran (p.bind f) h q) :
    (∃ p', Ran p h p' ∧ q = p'.bind f) ∨ ∃ a g h', h = g ++ h' ∧ Ran p h' (pure a) ∧ Ran (f a) g q := by
  induction h generalizing q with
  | nil => exact .inl ⟨p, rfl, hran⟩
  | cons e h ih =>
    obtain ⟨k, hran, rfl⟩ := hran
    rcases ih hran with ⟨p', hp', heq⟩ | ⟨a, g, h', rfl, hp', hf⟩
    · cases p' with
      | pure a => exact .inr ⟨a, [e], h, rfl, hp', k, heq, rfl⟩
      | fail err => cases heq
      | cmd c k' =>
        cases heq
        exact .inl ⟨k' e.2, ⟨k', hp', rfl⟩, rfl⟩
    · exact .inr ⟨a, e :: g, h', rfl, hp', k, hf, rfl⟩

end Prog
