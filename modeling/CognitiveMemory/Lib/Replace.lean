import Mathlib.Data.List.Find
import Mathlib.Data.List.Infix

/-! Replacing patterns in a text, from left to right: several at once, one alone, and
`String.replace` as the second. -/

namespace Replace
variable {α : Type} [DecidableEq α]

abbrev Subst (α : Type) := List α × List α

/-- At each place the first pattern that fits is replaced and the text goes on behind it; `skip` counts what is left of
the last match. -/
def scan (subs : List (Subst α)) : ℕ → List α → List α
  | _, [] => []
  | skip + 1, _ :: cs => scan subs skip cs
  | 0, c :: cs =>
    match subs.find? fun p => decide (p.1 <+: c :: cs) with
    | some p => p.2 ++ scan subs (p.1.length - 1) cs
    | none => c :: scan subs 0 cs

def all (subs : List (Subst α)) (cs : List α) : List α := scan subs 0 cs

def one (pat rep cs : List α) : List α := all [(pat, rep)] cs

variable {subs : List (Subst α)} {pat rep : List α}

theorem scan_hit {c : α} {cs : List α} {p : Subst α} (h : subs.find? (fun p => decide (p.1 <+: c :: cs)) = some p) :
    scan subs 0 (c :: cs) = p.2 ++ scan subs (p.1.length - 1) cs := by
  rw [scan, h]

theorem scan_miss {c : α} {cs : List α} (h : subs.find? (fun p => decide (p.1 <+: c :: cs)) = none) :
    scan subs 0 (c :: cs) = c :: scan subs 0 cs := by
  rw [scan, h]

theorem scan_one_hit {c : α} {cs : List α} (h : pat <+: c :: cs) :
    scan [(pat, rep)] 0 (c :: cs) = rep ++ scan [(pat, rep)] (pat.length - 1) cs :=
  scan_hit (List.find?_cons_of_pos (decide_eq_true h))

theorem scan_one_miss {c : α} {cs : List α} (h : ¬ pat <+: c :: cs) :
    scan [(pat, rep)] 0 (c :: cs) = c :: scan [(pat, rep)] 0 cs := by
  apply scan_miss
  rw [List.find?_cons_of_neg (by simpa using h), List.find?_nil]

theorem scan_skip (m cs : List α) : scan subs m.length (m ++ cs) = scan subs 0 cs := by
  induction m with
  | nil => rfl
  | cons c m ih => exact ih

theorem all_match (hpat : pat ≠ []) {cs : List α}
    (h : subs.find? (fun p => decide (p.1 <+: pat ++ cs)) = some (pat, rep)) :
    all subs (pat ++ cs) = rep ++ all subs cs := by
  obtain ⟨c, rest, rfl⟩ := List.exists_cons_of_ne_nil hpat
  unfold all
  rw [List.cons_append] at h ⊢
  rw [scan_hit h]
  exact congrArg (rep ++ ·) (scan_skip rest cs)

theorem all_append_of_absent {q : α} (hq : ∀ p ∈ subs, p.1.head? = some q) {m : List α} (hm : q ∉ m) (cs : List α) :
    all subs (m ++ cs) = m ++ all subs cs := by
  unfold all
  induction m with
  | nil => rfl
  | cons c m ih =>
    have hnone : subs.find? (fun p => decide (p.1 <+: c :: (m ++ cs))) = none := by
      apply List.find?_eq_none.mpr
      intro p hp hfits
      obtain ⟨rest, hrest⟩ := List.head?_eq_some_iff.mp (hq p hp)
      rw [decide_eq_true_eq, hrest] at hfits
      exact hm ((List.cons_prefix_cons.mp hfits).1 ▸ List.mem_cons_self)
    rw [List.cons_append, scan_miss hnone, ih fun hmem => hm (List.mem_cons_of_mem c hmem)]
    rfl

theorem all_of_absent {q : α} (hq : ∀ p ∈ subs, p.1.head? = some q) {m : List α} (hm : q ∉ m) : all subs m = m := by
  have hstays := all_append_of_absent hq hm []
  rwa [List.append_nil, show all subs [] = [] from rfl, List.append_nil] at hstays

/-! ## One pattern -/

theorem one_match (hpat : pat ≠ []) (cs : List α) : one pat rep (pat ++ cs) = rep ++ one pat rep cs :=
  all_match hpat (List.find?_cons_of_pos (decide_eq_true (List.prefix_append pat cs)))

theorem one_cons {c : α} {cs : List α} (hmiss : ¬ pat <+: c :: cs) : one pat rep (c :: cs) = c :: one pat rep cs :=
  scan_one_miss hmiss

theorem one_append {m cs : List α} (hmiss : ∀ before after, m = before ++ after → after ≠ [] → ¬ pat <+: after ++ cs) :
    one pat rep (m ++ cs) = m ++ one pat rep cs := by
  induction m with
  | nil => rfl
  | cons c m ih =>
    have hrest : one pat rep (m ++ cs) = m ++ one pat rep cs :=
      ih fun before after heq => hmiss (c :: before) after (by rw [heq]; rfl)
    have hc : ¬ pat <+: c :: (m ++ cs) := hmiss [] (c :: m) rfl (List.cons_ne_nil c m)
    rw [List.cons_append, one_cons hc, hrest]
    rfl

theorem one_eq_self {cs : List α} (h : ¬ pat <:+: cs) : one pat rep cs = cs := by
  have hmiss : ∀ before after, cs = before ++ after → after ≠ [] → ¬ pat <+: after ++ [] := by
    rintro before after rfl - hfits
    rw [List.append_nil] at hfits
    exact h (hfits.isInfix.trans (List.suffix_append before after).isInfix)
  have hstays : one pat rep (cs ++ []) = cs ++ one pat rep [] := one_append hmiss
  rwa [List.append_nil, show one pat rep [] = [] from rfl, List.append_nil] at hstays

theorem scan_length (hpat : pat ≠ []) (skip : ℕ) (cs : List α) (hskip : skip ≤ cs.length) :
    ∃ k, (scan [(pat, rep)] skip cs).length + k * pat.length + skip = cs.length + k * rep.length := by
  induction cs generalizing skip with
  | nil =>
    obtain rfl : skip = 0 := Nat.le_zero.mp hskip
    exact ⟨0, by simp [scan]⟩
  | cons c cs ih =>
    cases skip with
    | succ skip =>
      obtain ⟨k, hk⟩ := ih skip (Nat.le_of_succ_le_succ hskip)
      exact ⟨k, by rw [scan, List.length_cons]; omega⟩
    | zero =>
      by_cases hfits : pat <+: c :: cs
      · have hlen : pat.length ≤ cs.length + 1 := hfits.length_le
        have hpos : 0 < pat.length := List.length_pos_iff.mpr hpat
        obtain ⟨k, hk⟩ := ih (pat.length - 1) (by omega)
        refine ⟨k + 1, ?_⟩
        rw [scan_one_hit hfits]
        simp only [List.length_append, List.length_cons, Nat.add_mul]
        omega
      · obtain ⟨k, hk⟩ := ih 0 (Nat.zero_le _)
        refine ⟨k, ?_⟩
        rw [scan_one_miss hfits]
        simp only [List.length_cons]
        omega

theorem exists_first {cs : List α} (h : pat <:+: cs) : ∃ before after, cs = before ++ (pat ++ after) ∧
    ∀ b a, before = b ++ a → a ≠ [] → ¬ pat <+: a ++ (pat ++ after) := by
  induction cs with
  | nil =>
    obtain rfl : pat = [] := List.infix_nil.mp h
    refine ⟨[], [], rfl, ?_⟩
    intro b a heq hne
    exact absurd (List.append_eq_nil_iff.mp heq.symm).2 hne
  | cons c cs ih =>
    by_cases hfits : pat <+: c :: cs
    · obtain ⟨after, hafter⟩ := hfits
      refine ⟨[], after, hafter.symm, ?_⟩
      intro b a heq hne
      exact absurd (List.append_eq_nil_iff.mp heq.symm).2 hne
    · have hinner : pat <:+: cs := (List.infix_cons_iff.mp h).resolve_left hfits
      obtain ⟨before, after, rfl, hfirst⟩ := ih hinner
      refine ⟨c :: before, after, rfl, ?_⟩
      intro b a heq hne
      cases b with
      | nil =>
        obtain rfl : c :: before = a := heq
        exact hfits
      | cons d b =>
        obtain ⟨-, hbefore⟩ := List.cons_eq_cons.mp heq
        exact hfirst b a hbefore hne

/-- Replacing changes nothing just if there is nothing to replace or nothing to change. -/
theorem one_eq_self_iff (hpat : pat ≠ []) {cs : List α} : one pat rep cs = cs ↔ ¬ pat <:+: cs ∨ rep = pat := by
  constructor
  · intro hsame
    by_contra! hboth
    obtain ⟨before, after, rfl, hfirst⟩ := exists_first hboth.1
    rw [one_append hfirst, one_match hpat, List.append_cancel_left_eq] at hsame
    -- the lengths agree only if the replacement is as long as the pattern
    obtain ⟨k, hk⟩ : ∃ k, (scan [(pat, rep)] 0 after).length + k * pat.length + 0 = after.length + k * rep.length :=
      scan_length hpat 0 after (Nat.zero_le _)
    have hlen : rep.length + (one pat rep after).length = pat.length + after.length := by
      rw [← List.length_append, ← List.length_append, hsame]
    have hsize : rep.length = pat.length := by
      have hscan : (scan [(pat, rep)] 0 after).length = (one pat rep after).length := rfl
      rw [hscan] at hk
      by_contra hne
      rcases Nat.lt_or_gt_of_ne hne with hlt | hgt
      · have := Nat.mul_le_mul_left k hlt.le
        omega
      · have := Nat.mul_le_mul_left k hgt.le
        omega
    exact hboth.2 (List.append_inj hsame hsize).1
  · rintro (hnone | rfl)
    · exact one_eq_self hnone
    -- what is left to skip of a match is part of it, so the induction is over both
    · have hself : ∀ (skip : ℕ) (cs : List α), scan [(rep, rep)] skip cs = cs.drop skip := by
        intro skip cs
        induction cs generalizing skip with
        | nil => rw [scan, List.drop_nil]
        | cons c cs ih =>
          cases skip with
          | succ skip => exact ih skip
          | zero =>
            by_cases hfits : rep <+: c :: cs
            · rw [scan_one_hit hfits]
              obtain ⟨after, hafter⟩ := hfits
              obtain ⟨d, rest, rfl⟩ := List.exists_cons_of_ne_nil hpat
              have hcs : cs = rest ++ after := (List.cons_eq_cons.mp hafter).2.symm
              have hdrop : cs.drop rest.length = after := by rw [hcs, List.drop_left]
              rw [ih, List.length_cons, Nat.add_sub_cancel, hdrop, hafter]
              rfl
            · rw [scan_one_miss hfits, ih]
              rfl
      exact hself 0 cs

/-! ## Fences -/

theorem scan_append_fence {q : α} (hq : ∀ p ∈ subs, p.1 ≠ [] ∧ q ∉ p.1) (skip : ℕ) (xs ys : List α)
    (hskip : skip ≤ xs.length) : scan subs skip (xs ++ q :: ys) = scan subs skip xs ++ q :: scan subs 0 ys := by
  induction xs generalizing skip with
  | nil =>
    obtain rfl : skip = 0 := Nat.le_zero.mp hskip
    have hnone : subs.find? (fun p => decide (p.1 <+: q :: ys)) = none := by
      apply List.find?_eq_none.mpr
      intro p hp hfits
      obtain ⟨c, rest, hc⟩ := List.exists_cons_of_ne_nil (hq p hp).1
      have hhead : q = c := by
        rw [decide_eq_true_eq, hc] at hfits
        exact (List.cons_prefix_cons.mp hfits).1.symm
      exact (hq p hp).2 (by rw [hc, hhead]; exact List.mem_cons_self)
    rw [List.nil_append, scan_miss hnone, scan]
    rfl
  | cons c xs ih =>
    cases skip with
    | succ skip => exact ih skip (Nat.le_of_succ_le_succ hskip)
    | zero =>
      have hfits : ∀ p ∈ subs, p.1 <+: c :: (xs ++ q :: ys) ↔ p.1 <+: c :: xs := by
        intro p hp
        constructor
        · intro hlong
          have hshort : c :: xs <+: c :: (xs ++ q :: ys) := List.prefix_append (c :: xs) (q :: ys)
          rcases List.prefix_or_prefix_of_prefix hlong hshort with hin | hover
          · exact hin
          · -- The pattern would reach over the fence.
            obtain ⟨more, hmore⟩ := hover
            cases more with
            | nil => rw [← hmore, List.append_nil]
            | cons d more =>
              rw [← hmore, ← List.cons_append, List.prefix_append_right_inj] at hlong
              have hd : d = q := (List.cons_prefix_cons.mp hlong).1
              refine absurd ?_ (hq p hp).2
              rw [← hmore, hd]
              simp
        · intro hin
          exact hin.trans (List.prefix_append (c :: xs) (q :: ys))
      have hfind : subs.find? (fun p => decide (p.1 <+: c :: (xs ++ q :: ys))) =
          subs.find? fun p => decide (p.1 <+: c :: xs) :=
        List.find?_congr fun p hp => decide_eq_decide.mpr (hfits p hp)
      rw [List.cons_append]
      cases hfound : subs.find? fun p => decide (p.1 <+: c :: xs) with
      | none =>
        rw [scan_miss (hfind.trans hfound), scan_miss hfound, ih 0 (Nat.zero_le _)]
        rfl
      | some p =>
        have hin : p.1 <+: c :: xs := by simpa using List.find?_some hfound
        have hlen : p.1.length ≤ xs.length + 1 := hin.length_le
        have hrest := ih (p.1.length - 1) (by omega)
        rw [scan_hit (hfind.trans hfound), scan_hit hfound, hrest, List.append_assoc]

theorem one_append_fence {q : α} (hpat : pat ≠ []) (hq : q ∉ pat) (xs ys : List α) :
    one pat rep (xs ++ q :: ys) = one pat rep xs ++ q :: one pat rep ys := by
  apply scan_append_fence _ 0 xs ys (Nat.zero_le _)
  intro p hp
  obtain rfl : p = (pat, rep) := List.mem_singleton.mp hp
  exact ⟨hpat, hq⟩

/-! ## Strings -/

section
open String.Slice.Pattern String.Slice.Pattern.Model

theorem toList_append_slice (s : String) (t : String.Slice) : (s ++ t).toList = s.toList ++ t.copy.toList := by
  rw [String.appendSlice_eq, String.toList_append]

/-- What `String.replace` does with one step of its search. -/
def put (rep : String) {s : String.Slice} (sofar : String) : SearchStep s → String
  | .matched .. => sofar ++ rep.toSlice
  | .rejected start stop => sofar ++ s.slice! start stop

theorem replace_eq_foldl (s pat rep : String) :
    s.replace pat rep = (ToForwardSearcher.toSearcher pat s.toSlice).toList.foldl (put rep) "" := by
  rw [Std.Iter.foldl_toList]
  unfold String.replace String.Slice.replace
  congr 1
  funext sofar step
  cases step <;> rfl

theorem matchesAt_iff_starts {s : String.Slice} {pat t₁ t₂ : String} {pos : s.Pos} (hsplit : pos.Splits t₁ t₂) :
    MatchesAt pat pos ↔ pat.toList <+: t₂.toList := by
  rw [ForwardStringSearcher.matchesAt_iff_splits]
  constructor
  · rintro ⟨u₁, u₂, hu⟩
    rw [hsplit.eq_right hu, String.toList_append]
    exact List.prefix_append _ _
  · rintro ⟨rest, hrest⟩
    have ht₂ : t₂ = pat ++ String.ofList rest := by
      apply String.toList_injective
      rw [String.toList_append, String.toList_ofList, hrest]
    exact ⟨t₁, String.ofList rest, ht₂ ▸ hsplit⟩

/-- The steps of a search from `pos` rewrite what is behind `pos`. -/
theorem toList_foldl_put {s : String.Slice} {pat : String} (hpat : pat ≠ "") (rep : String) {pos : s.Pos}
    {steps : List (SearchStep s)} (h : IsValidSearchFrom pat pos steps) {t₁ t₂ : String} (hsplit : pos.Splits t₁ t₂)
    (sofar : String) :
    (steps.foldl (put rep) sofar).toList = sofar.toList ++ one pat.toList rep.toList t₂.toList := by
  induction h generalizing t₁ t₂ sofar with
  | endPos =>
    obtain ⟨-, rfl⟩ := String.Slice.splits_endPos_iff.mp hsplit
    rw [List.foldl_nil, String.toList_empty]
    exact (List.append_nil _).symm
  | matched hmatch _ ih =>
    obtain ⟨u₁, u₂, hstart, hstop⟩ := ForwardStringSearcher.isLongestMatchAt_iff_splits.mp hmatch
    have hne : pat.toList ≠ [] := fun hnil => hpat (String.toList_eq_nil_iff.mp hnil)
    rw [List.foldl_cons, ih hstop, hsplit.eq_right hstart, String.toList_append, one_match hne, put, toList_append_slice,
      String.copy_toSlice, List.append_assoc]
  | @mismatched _ start stop hlt hmiss _ ih =>
    obtain ⟨part, hne, hfirst, rfl⟩ := (hsplit.lt_iff_exists_eq_append stop.splits).mp hlt
    have hpart : (s.slice! start stop).copy = part := by
      rw [← String.Slice.slice_eq_slice! (h := Std.le_of_lt hlt)]
      obtain ⟨_, hcopy⟩ := String.Slice.copy_slice_eq_iff_splits.mpr ⟨t₁, _, hsplit, hfirst ▸ stop.splits⟩
      exact hcopy
    have hstays : ∀ before after, part.toList = before ++ after → after ≠ [] →
        ¬ pat.toList <+: after ++ (s.sliceFrom stop).copy.toList := by
      intro before after heq hafter hfits
      have hparts : part = String.ofList before ++ String.ofList after := by
        apply String.toList_injective
        rw [String.toList_append, String.toList_ofList, String.toList_ofList, heq]
      have htext : s.copy = (t₁ ++ String.ofList before) ++ (String.ofList after ++ (s.sliceFrom stop).copy) := by
        rw [hsplit.eq_append, hparts, String.append_assoc, String.append_assoc]
      have hmiddle := String.Slice.Pos.splits_ofEqAppend htext
      have hafter' : String.ofList after ≠ "" := fun hnil => hafter (by
        rw [← String.toList_ofList (l := after), hnil, String.toList_empty])
      refine hmiss _ ?_ ?_ ((matchesAt_iff_starts hmiddle).mpr ?_)
      · exact (hsplit.le_iff_exists_eq_append hmiddle).mpr ⟨_, rfl, by rw [hparts, String.append_assoc]⟩
      · refine (hmiddle.lt_iff_exists_eq_append stop.splits).mpr ⟨_, hafter', ?_, rfl⟩
        rw [hfirst, hparts, String.append_assoc]
      · rwa [String.toList_append, String.toList_ofList]
    rw [List.foldl_cons, ih stop.splits, String.toList_append, one_append hstays, put, toList_append_slice, hpart,
      List.append_assoc]

theorem toList_replace (s : String) {pat : String} (hpat : pat ≠ "") (rep : String) :
    (s.replace pat rep).toList = one pat.toList rep.toList s.toList := by
  have hsearch := (ForwardStringSearcher.lawfulToForwardSearcherModel hpat).isValidSearchFrom_toList s.toSlice
  rw [replace_eq_foldl, toList_foldl_put hpat rep hsearch (String.Slice.splits_startPos _), String.copy_toSlice]
  rfl

end
end Replace
