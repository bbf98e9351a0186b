import Mathlib.Data.List.Basic
import Mathlib.Data.Nat.Notation

/-! A statement whose conditions take their values by position, and a list read in slices and in
pages. -/

namespace Listing
variable {α C V : Type}

/-! ## Conditions and the values of their places -/

def holdsAll (places : C → ℕ) (holds : C → List V → α → Bool) (row : α) : List C → List V → Bool
  | [], _ => true
  | c :: cs, values => holds c (values.take (places c)) row && holdsAll places holds row cs (values.drop (places c))

/-- Where every condition comes with as many values as it has places, each is asked about its own. -/
theorem holdsAll_aligned {places : C → ℕ} (holds : C → List V → α → Bool) (row : α) {cs : List (C × List V)}
    (h : ∀ c ∈ cs, c.2.length = places c.1) :
    holdsAll places holds row (cs.map Prod.fst) (cs.flatMap Prod.snd) = cs.all fun c => holds c.1 c.2 row := by
  induction cs with
  | nil => rfl
  | cons c cs ih =>
    obtain ⟨hc, hcs⟩ := List.forall_mem_cons.mp h
    have htake : (c.2 ++ cs.flatMap Prod.snd).take (places c.1) = c.2 := List.take_left' hc
    have hdrop : (c.2 ++ cs.flatMap Prod.snd).drop (places c.1) = cs.flatMap Prod.snd := List.drop_left' hc
    rw [List.map_cons, List.flatMap_cons, holdsAll, htake, hdrop, ih hcs, List.all_cons]

/-! ## Slices -/

def within (limit offset : Option Int) (i : ℕ) : Bool :=
  offset.all (· ≤ (i : Int)) && limit.all fun n => (i : Int) < offset.getD 0 + n

def slice (limit offset : Option Int) (l : List α) : List α :=
  (l.zipIdx.filter fun x => within limit offset x.2).map Prod.fst

theorem zipIdx_filter (l : List α) (k low high : ℕ) :
    ((l.zipIdx k).filter fun x => decide (low ≤ x.2 ∧ x.2 < high)).map Prod.fst = (l.take (high - k)).drop (low - k) := by
  induction l generalizing k with
  | nil => simp
  | cons a l ih =>
    rw [List.zipIdx_cons, List.filter_cons]
    by_cases hhigh : k < high
    · have hfirst : high - k = (high - (k + 1)) + 1 := by omega
      by_cases hlow : low ≤ k
      · have hnone : low - k = 0 := by omega
        have hnext : low - (k + 1) = 0 := by omega
        rw [if_pos (by simp [hlow, hhigh]), List.map_cons, ih, hfirst, hnone, hnext, List.take_succ_cons]
        rfl
      · have hskip : low - k = (low - (k + 1)) + 1 := by omega
        rw [if_neg (by simp [hlow]), ih, hfirst, hskip, List.take_succ_cons, List.drop_succ_cons]
    · have hnone : high - k = 0 := by omega
      have hnext : high - (k + 1) = 0 := by omega
      rw [if_neg (by simp [hhigh]), ih, hnone, hnext, List.take_zero, List.take_zero, List.drop_nil, List.drop_nil]

/-- A slice keeps what comes before its end, less what comes before its start. -/
theorem slice_eq (limit offset : Option Int) (l : List α) :
    slice limit offset l = (l.take (limit.elim l.length fun n => (offset.getD 0 + n).toNat)).drop (offset.getD 0).toNat := by
  have hrange := zipIdx_filter l 0 (offset.getD 0).toNat (limit.elim l.length fun n => (offset.getD 0 + n).toNat)
  rw [Nat.sub_zero, Nat.sub_zero] at hrange
  rw [slice, ← hrange]
  refine congrArg (List.map Prod.fst) (List.filter_congr fun x hx => ?_)
  have hx : x.2 < l.length := by
    have h := List.snd_lt_add_of_mem_zipIdx hx
    omega
  cases limit <;> cases offset <;> simp [within, hx]

theorem length_slice (limit offset : Option Int) {l l' : List α} (h : l.length = l'.length) :
    (slice limit offset l).length = (slice limit offset l').length := by
  simp only [slice_eq, List.length_drop, List.length_take, h]

theorem slice_none (l : List α) : slice none none l = l := by
  rw [slice_eq]
  exact List.take_length

/-! ## Pages -/

theorem pages_take (l : List α) (p K : ℕ) : (List.range K).flatMap (fun k => (l.drop (k * p)).take p) = l.take (K * p) := by
  induction K with
  | zero => simp
  | succ K ih =>
    rw [List.range_succ, List.flatMap_append, ih, Nat.succ_mul, List.take_add]
    simp

theorem pages_all {l : List α} {p K : ℕ} (h : l.length ≤ K * p) :
    (List.range K).flatMap (fun k => (l.drop (k * p)).take p) = l := by
  rw [pages_take, List.take_of_length_le h]

end Listing
