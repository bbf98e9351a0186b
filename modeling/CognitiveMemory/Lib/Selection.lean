import Mathlib.Data.List.Perm.Basic
import Mathlib.Data.List.Sort

/-! What sorting keeps of the order of a list, and what a predicate selects of it: of a sorted list,
of the positions in it, of a search. -/

namespace Selection
variable {α : Type}

section
variable {r : α → α → Prop} [DecidableRel r]

/-- What a search keeps of a sorted list is sorted, when it keeps the order of what it keeps. -/
theorem filterMap_orderedInsert {β : Type} {s : β → β → Prop} [DecidableRel s] [IsTrans α r] {f : α → Option β}
    (hf : ∀ a b x y, f a = some x → f b = some y → (r a b ↔ s x y)) (a : α) {l : List α} (hl : l.Pairwise r) :
    (l.orderedInsert r a).filterMap f = match f a with
      | some x => (l.filterMap f).orderedInsert s x
      | none => l.filterMap f := by
  induction l with
  | nil =>
    rw [List.orderedInsert_nil, List.filterMap_cons, List.filterMap_nil]
    cases f a <;> rfl
  | cons b l ih =>
    obtain ⟨hb, hl⟩ := List.pairwise_cons.mp hl
    by_cases hab : r a b
    · -- what is kept of the rest stands behind `a` as well
      rw [List.orderedInsert_cons_of_le r l hab, List.filterMap_cons]
      cases hfa : f a with
      | none => rfl
      | some x =>
        show x :: _ = List.orderedInsert s x _
        cases hkept : (b :: l).filterMap f with
        | nil => rfl
        | cons y rest =>
          obtain ⟨c, hc, hfc⟩ := List.mem_filterMap.mp (hkept ▸ List.mem_cons_self : y ∈ (b :: l).filterMap f)
          have hac : r a c := by
            rcases List.mem_cons.mp hc with rfl | hc
            · exact hab
            · exact IsTrans.trans _ _ _ hab (hb c hc)
          rw [List.orderedInsert_cons_of_le s rest ((hf a c x y hfa hfc).mp hac)]
    · rw [List.orderedInsert_of_not_le r l hab, List.filterMap_cons, List.filterMap_cons, ih hl]
      cases hfa : f a with
      | none => rfl
      | some x =>
        cases hfb : f b with
        | none => rfl
        | some y => exact (List.orderedInsert_of_not_le s _ fun hxy => hab ((hf a b x y hfa hfb).mpr hxy)).symm

theorem filterMap_insertionSort {β : Type} {s : β → β → Prop} [DecidableRel s] [Std.Total r] [IsTrans α r] {f : α → Option β}
    (hf : ∀ a b x y, f a = some x → f b = some y → (r a b ↔ s x y)) (l : List α) :
    (l.insertionSort r).filterMap f = (l.filterMap f).insertionSort s := by
  induction l with
  | nil => rfl
  | cons a l ih =>
    rw [List.insertionSort_cons, filterMap_orderedInsert hf a (List.pairwise_insertionSort r l), ih, List.filterMap_cons]
    cases f a <;> rfl

theorem filter_insertionSort [Std.Total r] [IsTrans α r] (p : α → Bool) (l : List α) :
    (l.insertionSort r).filter p = (l.filter p).insertionSort r := by
  have hguard : ∀ a b x y, Option.guard p a = some x → Option.guard p b = some y → (r a b ↔ r x y) := by
    intro a b x y hx hy
    rw [(Option.guard_eq_some_iff.mp hx).1, (Option.guard_eq_some_iff.mp hy).1]
  rw [← List.filterMap_eq_filter]
  exact filterMap_insertionSort hguard l

/-- Sorting keeps the order of elements neither of which comes before the other: what related them
still does. -/
theorem pairwise_orderedInsert_stable [Std.Total r] [IsTrans α r] {T : α → α → Prop} {a : α} {l : List α}
    (hl : l.Pairwise fun b c => r b c ∧ (r c b → T b c)) (ha : ∀ b ∈ l, T a b) :
    (l.orderedInsert r a).Pairwise fun b c => r b c ∧ (r c b → T b c) := by
  induction l with
  | nil => exact List.pairwise_singleton _ a
  | cons b l ih =>
    obtain ⟨hb, hl'⟩ := List.pairwise_cons.mp hl
    by_cases hab : r a b
    · rw [List.orderedInsert_cons_of_le r l hab]
      refine List.pairwise_cons.mpr ⟨fun c hc => ⟨?_, fun _ => ha c hc⟩, hl⟩
      rcases List.mem_cons.mp hc with rfl | hc
      · exact hab
      · exact IsTrans.trans _ _ _ hab (hb c hc).1
    · rw [List.orderedInsert_of_not_le r l hab]
      refine List.pairwise_cons.mpr ⟨fun c hc => ?_, ih hl' fun c hc => ha c (List.mem_cons_of_mem b hc)⟩
      rcases (List.mem_orderedInsert r).mp hc with rfl | hc
      · exact ⟨(Std.Total.total b c).resolve_right hab, fun h => absurd h hab⟩
      · exact hb c hc

theorem pairwise_insertionSort_stable [Std.Total r] [IsTrans α r] {T : α → α → Prop} {l : List α} (h : l.Pairwise T) :
    (l.insertionSort r).Pairwise fun b c => r b c ∧ (r c b → T b c) := by
  induction l with
  | nil => exact .nil
  | cons a l ih =>
    obtain ⟨ha, hl⟩ := List.pairwise_cons.mp h
    rw [List.insertionSort_cons]
    exact pairwise_orderedInsert_stable (ih hl) fun b hb => ha b ((List.mem_insertionSort r).mp hb)

end

theorem sublist_of_mem {a b : α} {l : List α} (hne : a ≠ b) (ha : a ∈ l) (hb : b ∈ l) :
    [a, b].Sublist l ∨ [b, a].Sublist l := by
  induction l with
  | nil => nomatch ha
  | cons c l ih =>
    rcases List.mem_cons.mp ha with rfl | ha'
    · exact .inl ((List.singleton_sublist.mpr ((List.mem_cons.mp hb).resolve_left hne.symm)).cons_cons a)
    · rcases List.mem_cons.mp hb with rfl | hb'
      · exact .inr ((List.singleton_sublist.mpr ha').cons_cons b)
      · exact (ih ha' hb').imp (List.Sublist.cons c) (List.Sublist.cons c)

theorem find?_filter_of_imp {p q : α → Bool} {l : List α} (h : ∀ a ∈ l, q a → p a) : (l.filter p).find? q = l.find? q := by
  induction l with
  | nil => rfl
  | cons a l ih =>
    obtain ⟨ha, hl⟩ := List.forall_mem_cons.mp h
    rw [List.filter_cons, List.find?_cons]
    split
    · rw [List.find?_cons, ih hl]
    · rename_i hp
      have hq : q a = false := by
        by_contra hq
        exact hp (ha (by simpa using hq))
      rw [hq, ih hl]

/-- Selected elements stand in the same order among the selected. -/
theorem idxOf_filter_le [DecidableEq α] {p : α → Bool} {l : List α} {a b : α} (ha : p a) (hb : p b) :
    (l.filter p).idxOf a ≤ (l.filter p).idxOf b ↔ l.idxOf a ≤ l.idxOf b := by
  induction l with
  | nil => simp
  | cons c l ih =>
    by_cases hca : c = a
    · subst hca
      rw [List.filter_cons, if_pos ha]
      simp
    · by_cases hcb : c = b
      · subst hcb
        rw [List.filter_cons, if_pos hb, List.idxOf_cons_self, List.idxOf_cons_self, List.idxOf_cons_ne _ hca,
          List.idxOf_cons_ne _ hca]
        simp
      · rw [List.idxOf_cons_ne _ hca, List.idxOf_cons_ne _ hcb, Nat.succ_le_succ_iff, ← ih, List.filter_cons]
        split
        · rw [List.idxOf_cons_ne _ hca, List.idxOf_cons_ne _ hcb, Nat.succ_le_succ_iff]
        · rfl

theorem filterMap_of_perm {β : Type} {f : α → Option β} {l l' : List α} (h : l.Perm l')
    (hone : (l'.filterMap f).length ≤ 1) :
    l.filterMap f = l'.filterMap f := by
  have hperm : (l.filterMap f).Perm (l'.filterMap f) := h.filterMap f
  cases hkept : l'.filterMap f with
  | nil => exact List.perm_nil.mp (hkept ▸ hperm)
  | cons b rest =>
    rw [hkept, List.length_cons] at hone
    obtain rfl : rest = [] := List.eq_nil_of_length_eq_zero (Nat.le_zero.mp (Nat.le_of_succ_le_succ hone))
    exact List.perm_singleton.mp (hkept ▸ hperm)

/-- A search that keeps the keys of what it keeps does not repeat one. -/
theorem nodup_filterMap {β γ : Type} {f : α → Option β} {k : α → γ} {k' : β → γ} (hkey : ∀ a b, f a = some b → k' b = k a)
    {l : List α} (h : (l.map k).Nodup) : ((l.filterMap f).map k').Nodup := by
  rw [List.nodup_iff_pairwise_ne, List.pairwise_map] at h ⊢
  refine h.filterMap f fun a a' hne b hb b' hb' => ?_
  rw [hkey a b hb, hkey a' b' hb']
  exact hne

end Selection
