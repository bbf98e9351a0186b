import Mathlib.Data.List.Nodup
import Mathlib.Data.List.Perm.Basic
import Mathlib.Data.Set.Card

/-! Books of notes: each owner's notes by their ids, as a partial map, and the tables that hold one. -/

abbrev Book (U I N : Type) := U → I → Option N

namespace Book
variable {U I N : Type} [DecidableEq U] [DecidableEq I]

def empty : Book U I N := fun _ _ => none

def write (b : Book U I N) (u : U) (i : I) (n : N) : Book U I N :=
  fun v j => if v = u ∧ j = i then some n else b v j

def revise (b : Book U I N) (u : U) (i : I) (f : N → N) : Book U I N :=
  fun v j => if v = u ∧ j = i then (b v j).map f else b v j

def erase (b : Book U I N) (u : U) (p : I → Bool) : Book U I N :=
  fun v j => if v = u ∧ p j then none else b v j

noncomputable def size (b : Book U I N) (u : U) (p : I → Bool) : ℕ := Set.ncard {i | p i = true ∧ (b u i).isSome}

def Unused (b : Book U I N) (i : I) : Prop := ∀ u, b u i = none

def Adds (b : Book U I N) (u : U) : List (I × N) → Book U I N → Prop
  | [], b' => b' = b
  | e :: es, b' => b.Unused e.1 ∧ Adds (b.write u e.1 e.2) u es b'

structure Grows (b b' : Book U I N) (kind : N → Prop) : Prop where
  kept : ∀ u i n, b u i = some n → b' u i = some n
  new : ∀ u i n, b' u i = some n → b u i = some n ∨ b.Unused i ∧ kind n

section
variable {b b' b'' : Book U I N} {u v : U} {i j : I} {n : N}

@[simp] theorem write_same : b.write u i n u i = some n := by simp [write]

theorem write_other (h : ¬ (v = u ∧ j = i)) : b.write u i n v j = b v j := if_neg h

theorem revise_other {f : N → N} (h : ¬ (v = u ∧ j = i)) : b.revise u i f v j = b v j := if_neg h

omit [DecidableEq I] in
theorem erase_other {p : I → Bool} (h : ¬ (v = u ∧ p j)) : b.erase u p v j = b v j := if_neg h

omit [DecidableEq U] in
theorem size_single (b : Book U I N) (u : U) (i : I) : b.size u (· == i) = if (b u i).isSome then 1 else 0 := by
  unfold size
  split
  · rename_i hsome
    have hone : {j | (j == i) = true ∧ (b u j).isSome} = {i} := by
      ext j
      simp only [Set.mem_ofPred_eq, beq_iff_eq, Set.mem_singleton_iff]
      exact ⟨fun h => h.1, fun h => ⟨h, h ▸ hsome⟩⟩
    rw [hone, Set.ncard_singleton]
  · rename_i hnone
    have hempty : {j | (j == i) = true ∧ (b u j).isSome} = ∅ := by
      ext j
      simp only [Set.mem_ofPred_eq, beq_iff_eq, Set.mem_empty_iff_false, iff_false, not_and]
      rintro rfl
      exact hnone
    rw [hempty, Set.ncard_empty]

omit [DecidableEq U] [DecidableEq I] in
theorem size_nothing (b : Book U I N) (u : U) {p : I → Bool} (hp : ∀ i, p i = false) : b.size u p = 0 := by
  unfold size
  simp [hp]

omit [DecidableEq I] in
theorem erase_nothing (b : Book U I N) (u : U) {p : I → Bool} (hp : ∀ i, p i = false) : b.erase u p = b := by
  funext v j
  apply erase_other
  simp [hp]

omit [DecidableEq U] [DecidableEq I] in
theorem Grows.refl (b : Book U I N) (kind : N → Prop) : b.Grows b kind := ⟨fun _ _ _ h => h, fun _ _ _ h => .inl h⟩

omit [DecidableEq U] [DecidableEq I] in
theorem Grows.trans {kind : N → Prop} (h : b.Grows b' kind) (h' : b'.Grows b'' kind) : b.Grows b'' kind := by
  refine ⟨fun u i n hn => h'.kept u i n (h.kept u i n hn), fun u i n hn => ?_⟩
  rcases h'.new u i n hn with hn | ⟨hunused, hkind⟩
  · exact h.new u i n hn
  · refine .inr ⟨fun v => ?_, hkind⟩
    -- a note of the first book would still be in the second
    cases hv : b v i with
    | none => rfl
    | some m =>
      have hm := h.kept v i m hv
      rw [hunused v] at hm
      cases hm

theorem grows_write {kind : N → Prop} (h : b.Unused i) (hn : kind n) : b.Grows (b.write u i n) kind := by
  constructor
  · intro v j m hm
    rw [write_other]
    · exact hm
    · rintro ⟨rfl, rfl⟩
      rw [h v] at hm
      cases hm
  · intro v j m hm
    by_cases hvj : v = u ∧ j = i
    · obtain ⟨rfl, rfl⟩ := hvj
      rw [write_same] at hm
      cases hm
      exact .inr ⟨h, hn⟩
    · rw [write_other hvj] at hm
      exact .inl hm

end

/-! ## Tables -/

def keyed (u : U) (i : I) (r : U × I × N) : Bool := decide (r.1 = u ∧ r.2.1 = i)

theorem keyed_iff {u : U} {i : I} {r : U × I × N} : keyed u i r = true ↔ r.1 = u ∧ r.2.1 = i := decide_eq_true_iff

def ofRows (rows : List (U × I × N)) : Book U I N := fun u i => (rows.find? (keyed u i)).map fun r => r.2.2

section
variable {rows : List (U × I × N)} {u : U} {i : I} {n : N}

theorem mem_of_ofRows (h : ofRows rows u i = some n) : (u, i, n) ∈ rows := by
  obtain ⟨r, hr, rfl⟩ := Option.map_eq_some_iff.mp h
  obtain ⟨rfl, rfl⟩ := keyed_iff.mp (List.find?_some hr)
  exact List.mem_of_find?_eq_some hr

theorem ofRows_none : ofRows rows u i = none ↔ ∀ m, (u, i, m) ∉ rows := by
  rw [ofRows, Option.map_eq_none_iff, List.find?_eq_none]
  constructor
  · exact fun h m hm => h _ hm (keyed_iff.mpr ⟨rfl, rfl⟩)
  · rintro h ⟨v, j, m⟩ hr hk
    obtain ⟨rfl, rfl⟩ := keyed_iff.mp hk
    exact h m hr

theorem ofRows_eq_some (hnodup : (rows.map fun r => r.2.1).Nodup) : ofRows rows u i = some n ↔ (u, i, n) ∈ rows := by
  refine ⟨mem_of_ofRows, fun hmem => ?_⟩
  cases hfound : ofRows rows u i with
  | none => exact absurd hmem (ofRows_none.mp hfound n)
  | some m =>
    have hm := mem_of_ofRows hfound
    have heq := List.inj_on_of_nodup_map hnodup hm hmem rfl
    cases heq
    rfl

theorem isSome_ofRows : (ofRows rows u i).isSome ↔ ∃ m, (u, i, m) ∈ rows := by
  rw [Option.isSome_iff_ne_none, ne_eq, ofRows_none]
  simp

/-- With unique ids the notes of an owner are counted by rows. -/
theorem size_ofRows (hnodup : (rows.map fun r => r.2.1).Nodup) (u : U) (p : I → Bool) :
    (ofRows rows).size u p = (rows.filter fun r => decide (r.1 = u ∧ p r.2.1 = true)).length := by
  let ids := (rows.filter fun r => decide (r.1 = u ∧ p r.2.1 = true)).map fun r => r.2.1
  have hids : ids.Nodup := hnodup.sublist (List.Sublist.map _ List.filter_sublist)
  have hset : {i | p i = true ∧ (ofRows rows u i).isSome} = ↑ids.toFinset := by
    ext i
    simp only [Set.mem_ofPred_eq, isSome_ofRows, List.coe_toFinset, ids, List.mem_map, List.mem_filter, decide_eq_true_eq]
    constructor
    · rintro ⟨hp, m, hm⟩
      exact ⟨_, ⟨hm, rfl, hp⟩, rfl⟩
    · rintro ⟨⟨v, j, m⟩, ⟨hm, rfl, hp⟩, rfl⟩
      exact ⟨hp, m, hm⟩
  unfold size
  rw [hset, Set.ncard_coe_finset, List.toFinset_card_of_nodup hids, List.length_map]

theorem unused_ofRows (h : ∀ r ∈ rows, r.2.1 ≠ i) : (ofRows rows).Unused i := fun _ =>
  ofRows_none.mpr fun _ hm => h _ hm rfl

theorem ofRows_append (h : ∀ r ∈ rows, r.2.1 ≠ i) : ofRows (rows ++ [(u, i, n)]) = (ofRows rows).write u i n := by
  funext v j
  unfold write
  rw [ofRows, List.find?_append]
  by_cases hk : v = u ∧ j = i
  · obtain ⟨rfl, rfl⟩ := hk
    have hnone : rows.find? (keyed v j) = none := List.find?_eq_none.mpr fun r hr hr' => h r hr (keyed_iff.mp hr').2
    have hnew : keyed v j (v, j, n) = true := keyed_iff.mpr ⟨rfl, rfl⟩
    simp [hnone, hnew]
  · have hother : keyed v j (u, i, n) = false := Bool.eq_false_iff.mpr fun hr => hk ⟨(keyed_iff.mp hr).1.symm, (keyed_iff.mp hr).2.symm⟩
    rw [if_neg hk, List.find?_singleton, hother]
    simp only [Bool.false_eq_true, if_false, Option.or_none]
    rfl

theorem ofRows_filter (p : I → Bool) :
    ofRows (rows.filter fun r => !decide (r.1 = u ∧ p r.2.1 = true)) = (ofRows rows).erase u p := by
  funext v j
  unfold erase
  rw [ofRows, List.find?_filter]
  split
  · rename_i hk
    obtain ⟨rfl, hp⟩ := hk
    rw [Option.map_eq_none_iff, List.find?_eq_none]
    rintro r - hr
    obtain ⟨hkeep, hr⟩ := of_decide_eq_true hr
    obtain ⟨rfl, rfl⟩ := keyed_iff.mp hr
    simp [hp] at hkeep
  · rename_i hk
    have hsame : ∀ r : U × I × N, keyed v j r = true → (!decide (r.1 = u ∧ p r.2.1 = true)) = true := by
      intro r hr
      obtain ⟨rfl, rfl⟩ := keyed_iff.mp hr
      simpa only [Bool.not_eq_true', decide_eq_false_iff_not] using hk
    unfold ofRows
    congr 2
    funext r
    cases hr : keyed v j r with
    | false => simp
    | true => exact decide_eq_true ⟨hsame r hr, rfl⟩

theorem ofRows_map (f : N → N) : ofRows (rows.map fun r => if r.1 = u ∧ r.2.1 = i then (r.1, r.2.1, f r.2.2) else r) =
    (ofRows rows).revise u i f := by
  funext v j
  unfold revise ofRows
  induction rows with
  | nil => simp
  | cons r rows ih =>
    have hkey : keyed v j (if r.1 = u ∧ r.2.1 = i then (r.1, r.2.1, f r.2.2) else r) = keyed v j r := by
      split <;> rfl
    rw [List.map_cons, List.find?_cons, List.find?_cons, hkey]
    cases hr : keyed v j r with
    | false => exact ih
    | true =>
      obtain ⟨rfl, rfl⟩ := keyed_iff.mp hr
      dsimp only
      split <;> rfl

end
end Book
