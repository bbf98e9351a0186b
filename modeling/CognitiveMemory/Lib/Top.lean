import Mathlib.Data.List.Nodup
import Mathlib.Data.List.Sort
import Mathlib.Order.Lattice

/-! The first entries of a list ranked by a key: when they depend on the order in which the ranking
met entries of the same key, and when two keys agree on them. -/

namespace Top
variable {α β κ : Type} [LinearOrder κ] {key : α → κ} {l l' : List α} {a b : α} {n i : ℕ}

def ranked (key : α → κ) (l : List α) : List α := l.insertionSort fun a b => key b ≤ key a

/-- How many entries go before `a`, whatever becomes of those that tie with it. -/
def above (key : α → κ) (l : List α) (a : α) : ℕ := l.countP fun b => decide (key a < key b)

theorem ranked_perm (key : α → κ) (l : List α) : (ranked key l).Perm l := List.perm_insertionSort _ l

theorem ranked_sorted (key : α → κ) (l : List α) : (ranked key l).Pairwise fun a b => key b ≤ key a := by
  have htotal : Std.Total fun a b : α => key b ≤ key a := ⟨fun a b => le_total (key b) (key a)⟩
  have htrans : IsTrans α fun a b : α => key b ≤ key a := ⟨fun _ _ _ hab hbc => le_trans hbc hab⟩
  exact List.pairwise_insertionSort _ l

/-! ## Counting what goes before -/

theorem above_perm (key : α → κ) (h : l.Perm l') (a : α) : above key l a = above key l' a := h.countP_eq _

theorem above_eq_of_key (h : key a = key b) : above key l a = above key l b := by
  unfold above
  rw [h]

theorem above_lt_of_key (ha : a ∈ l) (h : key b < key a) : above key l a < above key l b := by
  obtain ⟨before, after, rfl⟩ := List.append_of_mem ha
  have hmono : ∀ xs : List α, above key xs a ≤ above key xs b := fun xs =>
    List.countP_mono_left fun x _ hx => decide_eq_true (h.trans (of_decide_eq_true hx))
  have hfirst := hmono before
  have hrest := hmono after
  have hself : ¬ key a < key a := lt_irrefl _
  simp only [above, List.countP_append, List.countP_cons, decide_eq_true h, decide_eq_false hself] at hfirst hrest ⊢
  simp only [if_true, Bool.false_eq_true, if_false]
  omega

theorem above_le_of_sorted (hl : l.Pairwise fun a b => key b ≤ key a) (hi : l[i]? = some a) : above key l a ≤ i := by
  induction l generalizing i with
  | nil => simp at hi
  | cons c l ih =>
    obtain ⟨hc, hl⟩ := List.pairwise_cons.mp hl
    rw [above, List.countP_cons]
    cases i with
    | zero =>
      obtain rfl : c = a := by simpa using hi
      have hnone : l.countP (fun b => decide (key c < key b)) = 0 := by
        apply List.countP_eq_zero.mpr
        intro b hb
        simpa using hc b hb
      rw [hnone]
      simp
    | succ i =>
      have hrest : above key l a ≤ i := ih hl (by simpa using hi)
      unfold above at hrest
      split <;> omega

/-- The ranking puts the head of the list first of those that tie with it. -/
theorem ranked_cons_getElem? (a : α) (l : List α) : (ranked key (a :: l))[above key l a]? = some a := by
  have hcount : ((ranked key l).takeWhile fun b => decide (key a < key b)).length = above key l a := by
    rw [← above_perm key (ranked_perm key l) a]
    have hsorted := ranked_sorted key l
    generalize ranked key l = s at hsorted ⊢
    induction s with
    | nil => rfl
    | cons c s ih =>
      obtain ⟨hc, hs⟩ := List.pairwise_cons.mp hsorted
      rw [List.takeWhile_cons, above, List.countP_cons]
      by_cases hca : key a < key c
      · rw [if_pos (decide_eq_true hca), List.length_cons, ih hs, if_pos (decide_eq_true hca)]
        rfl
      · have hle : key c ≤ key a := not_lt.mp hca
        have hnone : s.countP (fun b => decide (key a < key b)) = 0 := by
          apply List.countP_eq_zero.mpr
          intro b hb
          simpa using (hc b hb).trans hle
        rw [if_neg (by simpa using hle), if_neg (by simpa using hle), hnone]
        rfl
  have hsplit : ranked key (a :: l) = ((ranked key l).takeWhile fun b => decide (key a < key b)) ++
      a :: (ranked key l).dropWhile fun b => decide (key a < key b) := by
    have h := List.insertionSort_cons_eq_take_drop (fun a b : α => key b ≤ key a) a l
    simpa [ranked] using h
  rw [hsplit, ← hcount, List.getElem?_append_right le_rfl]
  simp

theorem place_unique {j : ℕ} (hl : l.Nodup) (hi : l[i]? = some a) (hj : l[j]? = some a) : i = j := by
  obtain ⟨hlt, -⟩ := List.getElem?_eq_some_iff.mp hi
  exact (List.getElem?_inj hlt hl).mp (hi.trans hj.symm)

theorem exists_ranked_getElem? (key : α → κ) (ha : a ∈ l) : ∃ l', l'.Perm l ∧ (ranked key l')[above key l a]? = some a := by
  obtain ⟨before, after, rfl⟩ := List.append_of_mem ha
  have hperm : (a :: (before ++ after)).Perm (before ++ a :: after) := List.perm_middle.symm
  have habove : above key (before ++ a :: after) a = above key (before ++ after) a := by
    simp [above]
  exact ⟨_, hperm, by rw [habove]; exact ranked_cons_getElem? a _⟩

/-! ## Two rankings -/

section
variable {key₁ key₂ : α → κ} {f₁ f₂ : α → β}

/-- The entries that are among the first `n` by one key have the same key in both, and tie with nothing. -/
def Agree (key₁ key₂ : α → κ) (l : List α) (n : ℕ) : Prop :=
  ∀ a ∈ l, above key₁ l a < n ∨ above key₂ l a < n →
    key₁ a = key₂ a ∧ ∀ b ∈ l, b ≠ a → key₁ b ≠ key₁ a ∧ key₂ b ≠ key₂ a

theorem Agree.symm (h : Agree key₁ key₂ l n) : Agree key₂ key₁ l n := by
  intro a ha hn
  obtain ⟨heq, htie⟩ := h a ha hn.symm
  exact ⟨heq.symm, fun b hb hne => (htie b hb hne).symm⟩

theorem Agree.above_le (h : Agree key₁ key₂ l n) (ha : a ∈ l) (hn : above key₁ l a < n) :
    above key₁ l a ≤ above key₂ l a := by
  have heq := (h a ha (.inl hn)).1
  refine List.countP_mono_left fun x hx hax => ?_
  have hlt : key₁ a < key₁ x := of_decide_eq_true hax
  have hx₁ : above key₁ l x < n := (above_lt_of_key hx hlt).trans hn
  have hxeq := (h x hx (.inl hx₁)).1
  exact decide_eq_true (by rw [← heq, ← hxeq]; exact hlt)

/-- The two rankings have the same entry at each of the first places. -/
theorem Agree.eq (h : Agree key₁ key₂ l n) (ha : a ∈ l) (hb : b ∈ l) (hai : above key₁ l a = i) (hbi : above key₂ l b = i)
    (hi : i < n) : a = b := by
  have ha' : i ≤ above key₂ l a := hai ▸ h.above_le ha (hai ▸ hi)
  have hb' : i ≤ above key₁ l b := hbi ▸ h.symm.above_le hb (hbi ▸ hi)
  obtain ⟨haeq, htie⟩ := h a ha (.inl (hai ▸ hi))
  have hbeq := (h b hb (.inr (hbi ▸ hi))).1
  by_contra hne
  rcases lt_trichotomy (key₁ a) (key₁ b) with hlt | heq | hlt
  · have hless := above_lt_of_key hb hlt
    omega
  · exact (htie b hb (Ne.symm hne)).1 heq.symm
  · have hlt₂ : key₂ b < key₂ a := by rwa [← haeq, ← hbeq]
    have hless := above_lt_of_key ha hlt₂
    omega

theorem Agree.above_eq (h : Agree key₁ key₂ l n) (hl : l.Nodup) {s : List α} (hs : s.Perm l)
    (hsorted : s.Pairwise fun a b => key₁ b ≤ key₁ a) (hi : s[i]? = some a) (hn : i < n) : above key₁ l a = i := by
  have hle : above key₁ l a ≤ i := above_perm key₁ hs a ▸ above_le_of_sorted hsorted hi
  refine le_antisymm hle ?_
  -- everything that stands earlier has a larger key, since nothing ties with `a`
  have hmem : a ∈ l := hs.mem_iff.mp (List.mem_of_getElem? hi)
  obtain ⟨hi', rfl⟩ := List.getElem?_eq_some_iff.mp hi
  have hfirst : ∀ x ∈ s.take i, decide (key₁ s[i] < key₁ x) = true := by
    intro x hx
    obtain ⟨j, hj, rfl⟩ := List.mem_iff_getElem.mp hx
    have hji : j < i := by simpa using (List.length_take_le i s).trans_lt' hj
    rw [List.getElem_take]
    have hle' : key₁ s[i] ≤ key₁ s[j] := List.pairwise_iff_getElem.mp hsorted j i _ hi' hji
    have hne : s[j] ≠ s[i] := fun heq => hji.ne ((hs.nodup_iff.mpr hl).getElem_inj_iff.mp heq)
    have hj' : s[j] ∈ l := hs.mem_iff.mp (List.getElem_mem _)
    exact decide_eq_true (hle'.lt_of_ne ((h _ hmem (.inl (hle.trans_lt hn))).2 _ hj' hne).1.symm)
  have hcount : (s.take i).countP (fun x => decide (key₁ s[i] < key₁ x)) = i := by
    rw [List.countP_eq_length.mpr hfirst, List.length_take, Nat.min_eq_left hi'.le]
  calc i = (s.take i).countP (fun x => decide (key₁ s[i] < key₁ x)) := hcount.symm
    _ ≤ s.countP (fun x => decide (key₁ s[i] < key₁ x)) := (List.take_sublist i s).countP_le
    _ = above key₁ s s[i] := rfl
    _ = above key₁ l s[i] := above_perm key₁ hs s[i]

/-- Whatever order they met the entries in, two rankings show the same first `n` just when the keys
agree on them. -/
theorem ranked_take_iff (hl : l.Nodup) (hf : ∀ a ∈ l, ∀ b ∈ l, f₁ a = f₂ b ↔ a = b ∧ key₁ a = key₂ a) :
    (∀ l₁ l₂, l₁.Perm l → l₂.Perm l → ((ranked key₁ l₁).take n).map f₁ = ((ranked key₂ l₂).take n).map f₂) ↔
      Agree key₁ key₂ l n := by
  constructor
  · intro h
    have hshown : ∀ l₁ l₂ : List α, l₁.Perm l → l₂.Perm l → ∀ i < n,
        (ranked key₁ l₁)[i]?.map f₁ = (ranked key₂ l₂)[i]?.map f₂ := by
      intro l₁ l₂ h₁ h₂ i hi
      have heq := congrArg (fun s : List β => s[i]?) (h l₁ l₂ h₁ h₂)
      simpa [List.getElem?_take, hi] using heq
    have hone : ∀ {a}, a ∈ l → above key₁ l a < n → ∀ l₂, l₂.Perm l →
        (ranked key₂ l₂)[above key₁ l a]? = some a ∧ key₁ a = key₂ a := by
      intro a ha hn l₂ h₂
      obtain ⟨l₁, h₁, hat⟩ := exists_ranked_getElem? key₁ ha
      have hmap := hshown l₁ l₂ h₁ h₂ _ hn
      rw [hat, Option.map_some] at hmap
      obtain ⟨b, hb, hfb⟩ := Option.map_eq_some_iff.mp hmap.symm
      have hbl : b ∈ l := h₂.mem_iff.mp ((ranked_perm key₂ l₂).mem_iff.mp (List.mem_of_getElem? hb))
      obtain ⟨rfl, hkey⟩ := (hf a ha b hbl).mp hfb.symm
      exact ⟨hb, hkey⟩
    have htwo : ∀ {a}, a ∈ l → above key₂ l a < n → ∀ l₁, l₁.Perm l →
        (ranked key₁ l₁)[above key₂ l a]? = some a ∧ key₁ a = key₂ a := by
      intro a ha hn l₁ h₁
      obtain ⟨l₂, h₂, hat⟩ := exists_ranked_getElem? key₂ ha
      have hmap := hshown l₁ l₂ h₁ h₂ _ hn
      rw [hat, Option.map_some] at hmap
      obtain ⟨b, hb, hfb⟩ := Option.map_eq_some_iff.mp hmap
      have hbl : b ∈ l := h₁.mem_iff.mp ((ranked_perm key₁ l₁).mem_iff.mp (List.mem_of_getElem? hb))
      obtain ⟨rfl, hkey⟩ := (hf b hbl a ha).mp hfb
      exact ⟨hb, hkey⟩
    -- an entry stands at one place of each ranking, so both counts agree
    have hsame : ∀ {a}, a ∈ l → above key₁ l a < n ∨ above key₂ l a < n →
        above key₁ l a = above key₂ l a ∧ key₁ a = key₂ a := by
      intro a ha hn
      rcases hn with hn | hn
      · obtain ⟨l₂, h₂, hat⟩ := exists_ranked_getElem? key₂ ha
        obtain ⟨hat', hkey⟩ := hone ha hn l₂ h₂
        have hnodup : (ranked key₂ l₂).Nodup := ((ranked_perm key₂ l₂).trans h₂).nodup_iff.mpr hl
        exact ⟨place_unique hnodup hat' hat, hkey⟩
      · obtain ⟨l₁, h₁, hat⟩ := exists_ranked_getElem? key₁ ha
        obtain ⟨hat', hkey⟩ := htwo ha hn l₁ h₁
        have hnodup : (ranked key₁ l₁).Nodup := ((ranked_perm key₁ l₁).trans h₁).nodup_iff.mpr hl
        exact ⟨(place_unique hnodup hat' hat).symm, hkey⟩
    intro a ha hn
    obtain ⟨habove, hkey⟩ := hsame ha hn
    have hn₁ : above key₁ l a < n := hn.elim id fun hn => habove ▸ hn
    refine ⟨hkey, fun b hb hne => ⟨fun htie => hne ?_, fun htie => hne ?_⟩⟩
    · obtain ⟨l₁, h₁, hat⟩ := exists_ranked_getElem? key₁ hb
      rw [above_eq_of_key htie, habove] at hat
      have hat' := (htwo ha (habove ▸ hn₁) l₁ h₁).1
      exact Option.some.inj (hat.symm.trans hat')
    · obtain ⟨l₂, h₂, hat⟩ := exists_ranked_getElem? key₂ hb
      rw [above_eq_of_key htie, ← habove] at hat
      have hat' := (hone ha hn₁ l₂ h₂).1
      exact Option.some.inj (hat.symm.trans hat')
  · intro h l₁ l₂ h₁ h₂
    have hp₁ : (ranked key₁ l₁).Perm l := (ranked_perm key₁ l₁).trans h₁
    have hp₂ : (ranked key₂ l₂).Perm l := (ranked_perm key₂ l₂).trans h₂
    refine List.ext_getElem (by simp [hp₁.length_eq, hp₂.length_eq]) fun i hi₁ hi₂ => ?_
    have hlt₁ : i < n ∧ i < (ranked key₁ l₁).length := by simpa using hi₁
    have hlt₂ : i < n ∧ i < (ranked key₂ l₂).length := by simpa using hi₂
    have ha : (ranked key₁ l₁)[i]? = some (ranked key₁ l₁)[i] := List.getElem?_eq_getElem hlt₁.2
    have hb : (ranked key₂ l₂)[i]? = some (ranked key₂ l₂)[i] := List.getElem?_eq_getElem hlt₂.2
    have hal : (ranked key₁ l₁)[i] ∈ l := hp₁.mem_iff.mp (List.getElem_mem _)
    have hbl : (ranked key₂ l₂)[i] ∈ l := hp₂.mem_iff.mp (List.getElem_mem _)
    have haabove := h.above_eq hl hp₁ (ranked_sorted key₁ l₁) ha hlt₁.1
    have hbabove := h.symm.above_eq hl hp₂ (ranked_sorted key₂ l₂) hb hlt₂.1
    have heq := h.eq hal hbl haabove hbabove hlt₁.1
    have hkey := (h _ hal (.inl (haabove.trans_lt hlt₁.1))).1
    rw [List.getElem_map, List.getElem_map, List.getElem_take, List.getElem_take]
    exact (hf _ hal _ hbl).mpr ⟨heq, hkey⟩

end
end Top
