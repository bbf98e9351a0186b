import CognitiveMemory.Lib.Selection
import Mathlib.Algebra.Order.Field.Basic
import Mathlib.Algebra.Order.Floor.Defs
import Mathlib.Tactic.Positivity

/-! Floating-point programs: arithmetic that rounds and has values that are no numbers, and what becomes
of a list that is sorted by such values. -/

/-- Numbers of `F` are what a program writes and stores, `N` is what it computes with. -/
structure Floating (F N : Type) where
  /-- The nearest value. -/
  num : F → N
  /-- The number of a value that is finite. -/
  val : N → F
  /-- The nearest value of single precision. -/
  single : N → N
  add : N → N → N
  sub : N → N → N
  mul : N → N → N
  div : N → N → N
  neg : N → N
  /-- The greater of two, or the one that is a number. -/
  max : N → N → N
  min : N → N → N
  exp : N → N
  powf : N → N → N
  sqrt : N → N
  /-- `a <= b`, which no NaN meets. -/
  le : N → N → Bool

namespace Floating
variable {F N α : Type} (A : Floating F N)

def lt (a b : N) : Bool := A.le a b && !A.le b a

/-- Not a NaN. -/
def IsNumber (a : N) : Prop := A.le a a

instance (a : N) : Decidable (A.IsNumber a) := inferInstanceAs (Decidable (A.le a a = true))

/-- What rounding keeps of the order of the numbers and of their signs. -/
structure Lawful [Field F] [LinearOrder F] : Prop where
  le_trans : ∀ {a b c}, A.le a b → A.le b c → A.le a c
  le_left : ∀ {a b}, A.le a b → A.IsNumber a
  le_right : ∀ {a b}, A.le a b → A.IsNumber b
  le_total : ∀ {a b}, A.IsNumber a → A.IsNumber b → A.le a b ∨ A.le b a
  num_le : ∀ {x y}, x ≤ y → A.le (A.num x) (A.num y)
  one_pos : A.lt (A.num 0) (A.num 1)
  single_le : ∀ {a b}, A.le a b → A.le (A.single a) (A.single b)
  add_nonneg : ∀ {a b}, A.le (A.num 0) a → A.le (A.num 0) b → A.le (A.num 0) (A.add a b)
  add_pos : ∀ {a b}, A.le (A.num 0) a → A.lt (A.num 0) b → A.lt (A.num 0) (A.add a b)
  one_div_nonneg : ∀ {a}, A.lt (A.num 0) a → A.le (A.num 0) (A.div (A.num 1) a)

variable {A}

namespace Lawful
variable [Field F] [LinearOrder F] {a b : N}

theorem isNumber_num (h : A.Lawful) (x : F) : A.IsNumber (A.num x) := h.num_le le_rfl

theorem not_lt (h : A.Lawful) (ha : A.IsNumber a) (hb : A.IsNumber b) : A.lt a b = false ↔ A.le b a := by
  rw [lt, Bool.and_eq_false_iff, Bool.not_eq_false']
  refine ⟨fun hab => ?_, .inr⟩
  rcases hab with hab | hba
  · rcases h.le_total ha hb with hle | hle
    · rw [hle] at hab
      cases hab
    · exact hle
  · exact hba

end Lawful

theorem le_of_lt {a b : N} (h : A.lt a b) : A.le a b := (Bool.and_eq_true_iff.mp h).1

/-! ## Sorting -/

variable (A)

/-- A comparison that takes what cannot be compared for equal does not ask for `b` before `a` when it sorts
by falling key. -/
def before (key : α → N) (a b : α) : Bool := !A.lt (key a) (key b)

/-- On the list the comparison is a total order of the keys. -/
def Consistent (key : α → N) (l : List α) : Prop :=
  ∀ a ∈ l, ∀ b ∈ l, ∀ c ∈ l, A.before key a b → A.before key b c → A.before key a c

/-- A stable sort by falling key, as far as its documentation goes: all elements remain, and in what order
is left open for a list on which the comparison is no total order. -/
structure SortsBy (key : α → N) (sort : List α → List α) : Prop where
  perm : ∀ l, (sort l).Perm l
  stable : ∀ l, A.Consistent key l → sort l = l.insertionSort fun a b => A.before key a b

def Numbers (key : α → N) (l : List α) : Prop := ∀ a ∈ l, A.IsNumber (key a)

/-- By falling key, a NaN before or after nothing. -/
def Falling (key : α → N) (l : List α) : Prop := l.Pairwise fun a b => A.le (key b) (key a)

/-- However the list is sorted, its first `n` elements are in order. -/
def Tame (key : α → N) (n : ℕ) (l : List α) : Prop :=
  n ≤ 1 ∨ l.length ≤ 1 ∨ A.Consistent key l ∧ A.Numbers key (l.take n)

variable {A} {key : α → N} {sort sort' : List α → List α} {l l' : List α} {n : ℕ}

theorem Consistent.subset (h : A.Consistent key l) (hsub : l' ⊆ l) : A.Consistent key l' :=
  fun a ha b hb c hc => h a (hsub ha) b (hsub hb) c (hsub hc)

theorem Numbers.subset (h : A.Numbers key l) (hsub : l' ⊆ l) : A.Numbers key l' := fun a ha => h a (hsub ha)

section
variable [Field F] [LinearOrder F]

theorem before_iff (hA : A.Lawful) {a b : α} (ha : A.IsNumber (key a)) (hb : A.IsNumber (key b)) :
    A.before key a b ↔ A.le (key b) (key a) := by
  rw [before, Bool.not_eq_true', hA.not_lt ha hb]

theorem before_of_nan (hA : A.Lawful) {a b : α} (h : ¬ A.IsNumber (key a) ∨ ¬ A.IsNumber (key b)) : A.before key a b := by
  rw [before, Bool.not_eq_true', ← Bool.not_eq_true]
  intro hlt
  exact h.elim (absurd (hA.le_left (le_of_lt hlt))) (absurd (hA.le_right (le_of_lt hlt)))

theorem consistent_of_numbers (hA : A.Lawful) (h : A.Numbers key l) : A.Consistent key l := by
  intro a ha b hb c hc hab hbc
  rw [before_iff hA (h a ha) (h b hb)] at hab
  rw [before_iff hA (h b hb) (h c hc)] at hbc
  rw [before_iff hA (h a ha) (h c hc)]
  exact hA.le_trans hbc hab

/-- With a NaN in it, a list on which the comparison is consistent is one on which it tells nothing apart. -/
theorem Consistent.pairwise_before (hA : A.Lawful) (hc : A.Consistent key l) (hnan : ¬ A.Numbers key l) :
    l.Pairwise fun a b => A.before key a b := by
  obtain ⟨x, hx, hxnan⟩ : ∃ x ∈ l, ¬ A.IsNumber (key x) := by
    by_contra hnone
    exact hnan fun a ha => by_contra fun hanan => hnone ⟨a, ha, hanan⟩
  refine List.pairwise_of_forall_mem_list fun a ha b hb => ?_
  exact hc a ha x hx b hb (before_of_nan hA (.inr hxnan)) (before_of_nan hA (.inl hxnan))

theorem falling_insertionSort (hA : A.Lawful) (h : A.Numbers key l) :
    A.Falling key (l.insertionSort fun a b => A.before key a b) := by
  -- the comparison is an order on the elements of the list, if not on all there are
  let le (a b : {a // A.IsNumber (key a)}) : Prop := A.le (key b.1) (key a.1)
  have htotal : Std.Total le := ⟨fun a b => hA.le_total b.2 a.2⟩
  have htrans : IsTrans {a // A.IsNumber (key a)} le := ⟨fun a b c hab hbc => hA.le_trans hbc hab⟩
  have hdec : DecidableRel le := fun a b => inferInstanceAs (Decidable (A.le (key b.1) (key a.1) = true))
  obtain ⟨l', rfl⟩ : ∃ l' : List {a // A.IsNumber (key a)}, l'.map Subtype.val = l := by
    refine ⟨l.attach.map fun a => ⟨a.1, h a.1 a.2⟩, ?_⟩
    rw [List.map_map]
    exact List.attach_map_subtype_val l
  rw [← List.map_insertionSort le _ Subtype.val l' fun a _ b _ => (before_iff hA a.2 b.2).symm, Falling, List.pairwise_map]
  exact List.pairwise_insertionSort le l'

theorem Falling.numbers (hA : A.Lawful) (h : A.Falling key l) (htwo : 2 ≤ l.length) : A.Numbers key l := by
  match l, htwo with
  | a :: b :: rest, _ =>
    obtain ⟨ha, -⟩ := List.pairwise_cons.mp h
    intro c hc
    rcases List.mem_cons.mp hc with rfl | hc
    · exact hA.le_right (ha b List.mem_cons_self)
    · exact hA.le_left (ha c hc)

namespace SortsBy

theorem falling (hs : A.SortsBy key sort) (hA : A.Lawful) (h : A.Numbers key l) : A.Falling key (sort l) := by
  rw [hs.stable l (consistent_of_numbers hA h)]
  exact falling_insertionSort hA h

theorem eq_self (hs : A.SortsBy key sort) (hA : A.Lawful) (h : A.Numbers key l) (hfalling : A.Falling key l) :
    sort l = l := by
  rw [hs.stable l (consistent_of_numbers hA h)]
  refine List.Pairwise.insertionSort_eq ((List.Pairwise.and_mem.mp hfalling).imp fun {a b} hab => ?_)
  exact (before_iff hA (h a hab.1) (h b hab.2.1)).mpr hab.2.2

theorem falling_take (hs : A.SortsBy key sort) (hA : A.Lawful) (h : A.Tame key n l) : A.Falling key ((sort l).take n) := by
  have hshort : ((sort l).take n).length ≤ 1 → A.Falling key ((sort l).take n) := by
    intro hlen
    match (sort l).take n, hlen with
    | [], _ => exact .nil
    | [a], _ => exact List.pairwise_singleton _ a
  have hlength : (sort l).length = l.length := (hs.perm l).length_eq
  rcases h with hn | hl | ⟨hc, hnum⟩
  · exact hshort ((List.length_take_le n _).trans hn)
  · exact hshort ((List.length_take_le' n _).trans (hlength.trans_le hl))
  by_cases hall : A.Numbers key l
  · exact (hs.falling hA hall).sublist (List.take_sublist n _)
  · -- nothing is told apart, so the list stays as it is
    have hbefore := hc.pairwise_before hA hall
    rw [hs.stable l hc, List.Pairwise.insertionSort_eq hbefore]
    refine (List.Pairwise.and_mem.mp (hbefore.sublist (List.take_sublist n l))).imp fun {a b} hab => ?_
    exact (before_iff hA (hnum a hab.1) (hnum b hab.2.1)).mp hab.2.2

/-- Where the comparison is consistent, only a list that is tame falls. -/
theorem tame_of_falling (hs : A.SortsBy key sort) (hA : A.Lawful) (hc : A.Consistent key l)
    (h : A.Falling key ((sort l).take n)) : A.Tame key n l := by
  by_cases hn : n ≤ 1
  · exact .inl hn
  by_cases hl : l.length ≤ 1
  · exact .inr (.inl hl)
  refine .inr (.inr ⟨hc, ?_⟩)
  by_cases hall : A.Numbers key l
  · exact hall.subset (List.take_subset n l)
  · have hsame : sort l = l := (hs.stable l hc).trans (hc.pairwise_before hA hall).insertionSort_eq
    rw [hsame] at h
    exact h.numbers hA (by rw [List.length_take]; omega)

end SortsBy
end

/-! ## A sort that lets NaNs go first -/

open Classical in
/-- Stable where the comparison is consistent; else the NaNs go before the numbers. -/
noncomputable def nanFirst (A : Floating F N) (key : α → N) (l : List α) : List α :=
  if A.Consistent key l then l.insertionSort fun a b => A.before key a b
  else l.filter (fun a => !A.le (key a) (key a)) ++ l.filter fun a => A.le (key a) (key a)

theorem sortsBy_nanFirst : A.SortsBy key (A.nanFirst key) where
  perm l := by
    unfold nanFirst
    split
    · exact List.perm_insertionSort _ l
    · have hsplit := List.filter_append_perm (fun a => !A.le (key a) (key a)) l
      simpa only [Bool.not_not] using hsplit
  stable l hc := if_pos hc

theorem not_falling_nanFirst [Field F] [LinearOrder F] (hA : A.Lawful) (hc : ¬ A.Consistent key l) (hn : 2 ≤ n) :
    ¬ A.Falling key ((A.nanFirst key l).take n) := by
  intro hfalling
  have hlength : 2 ≤ l.length := by
    by_contra hshort
    refine hc fun a ha b hb c hc' hab _ => ?_
    obtain ⟨x, hx⟩ : ∃ x, ∀ y ∈ l, y = x := by
      match l, hshort with
      | [], _ => exact nomatch ha
      | [x], _ => exact ⟨x, fun y hy => List.mem_singleton.mp hy⟩
      | x :: y :: l, hshort => simp at hshort
    rwa [hx c hc', ← hx b hb]
  have hnumbers : A.Numbers key ((A.nanFirst key l).take n) := by
    refine hfalling.numbers hA ?_
    rw [List.length_take, (sortsBy_nanFirst.perm l).length_eq]
    omega
  obtain ⟨x, hx, hnan⟩ : ∃ x ∈ l, ¬ A.IsNumber (key x) := by
    by_contra hnone
    exact hc (consistent_of_numbers hA fun a ha => by_contra fun hanan => hnone ⟨a, ha, hanan⟩)
  obtain ⟨y, rest, hfirst⟩ : ∃ y rest, l.filter (fun a => !A.le (key a) (key a)) = y :: rest :=
    List.exists_cons_of_ne_nil (List.ne_nil_of_mem (List.mem_filter.mpr ⟨hx, by simpa [IsNumber] using hnan⟩))
  have hy : y ∈ l.filter (fun a => !A.le (key a) (key a)) := hfirst ▸ List.mem_cons_self
  obtain ⟨m, rfl⟩ : ∃ m, n = m + 1 := ⟨n - 1, by omega⟩
  rw [nanFirst, if_neg hc, hfirst] at hnumbers
  have hhead : A.IsNumber (key y) := hnumbers y (by rw [List.cons_append, List.take_succ_cons]; exact List.mem_cons_self)
  have hnotnumber := (List.mem_filter.mp hy).2
  rw [hhead] at hnotnumber
  cases hnotnumber

/-- What is open for one list is open whatever becomes of another. -/
theorem SortsBy.ite (hs : A.SortsBy key sort) (hs' : A.SortsBy key sort') (p : List α → Prop) [DecidablePred p] :
    A.SortsBy key fun l => if p l then sort l else sort' l where
  perm l := by
    split
    · exact hs.perm l
    · exact hs'.perm l
  stable l hc := by
    split
    · exact hs.stable l hc
    · exact hs'.stable l hc

/-! ## Two arithmetics -/

def exact [Field F] [LinearOrder F] (exp sqrt : F → F) (powf : F → F → F) : Floating F F where
  num := id
  val := id
  single := id
  add := (· + ·)
  sub := (· - ·)
  mul := (· * ·)
  div := (· / ·)
  neg := (- ·)
  max := Max.max
  min := Min.min
  exp := exp
  powf := powf
  sqrt := sqrt
  le a b := decide (a ≤ b)

theorem exact_lt [Field F] [LinearOrder F] {exp sqrt : F → F} {powf : F → F → F} {a b : F} :
    (exact exp sqrt powf).lt a b ↔ a < b := by
  simp only [lt, exact, Bool.and_eq_true, Bool.not_eq_true', decide_eq_true_eq, decide_eq_false_iff_not, not_le]
  exact ⟨fun h => h.2, fun h => ⟨h.le, h⟩⟩

theorem exact_lawful [Field F] [LinearOrder F] [IsStrictOrderedRing F] (exp sqrt : F → F) (powf : F → F → F) :
    (exact exp sqrt powf).Lawful where
  le_trans hab hbc := decide_eq_true ((of_decide_eq_true hab).trans (of_decide_eq_true hbc))
  le_left _ := decide_eq_true le_rfl
  le_right _ := decide_eq_true le_rfl
  le_total _ _ := (le_total _ _).imp decide_eq_true decide_eq_true
  num_le h := decide_eq_true h
  one_pos := exact_lt.mpr zero_lt_one
  single_le h := h
  add_nonneg ha hb := decide_eq_true (add_nonneg (of_decide_eq_true ha) (of_decide_eq_true hb))
  add_pos ha hb := exact_lt.mpr (add_pos_of_nonneg_of_pos (of_decide_eq_true ha) (exact_lt.mp hb))
  one_div_nonneg ha := decide_eq_true (one_div_nonneg.mpr (exact_lt.mp ha).le)

def lift₂ (f : F → F → Option F) : Option F → Option F → Option F
  | some x, some y => f x y
  | _, _ => none

def choose (f : F → F → F) : Option F → Option F → Option F
  | some x, some y => some (f x y)
  | some x, none => some x
  | none, y => y

/-- Arithmetic without rounding and without infinities, `none` the NaN: there is no number where a divisor
is zero, under the root of a negative number, or for a power of one unless the exponent is whole. -/
def withNaN [Field F] [LinearOrder F] [FloorRing F] (exp sqrt : F → F) (powf : F → F → F) : Floating F (Option F) where
  num := some
  val a := a.getD 0
  single := id
  add := lift₂ fun x y => some (x + y)
  sub := lift₂ fun x y => some (x - y)
  mul := lift₂ fun x y => some (x * y)
  div := lift₂ fun x y => if y = 0 then none else some (x / y)
  neg a := a.map (- ·)
  max := choose Max.max
  min := choose Min.min
  exp a := a.map exp
  powf
    | some x, some a => if x < 0 ∧ (⌊a⌋ : F) ≠ a then none else some (powf x a)
    | some x, none => if x = 1 then some 1 else none
    | none, a => if a = some 0 then some 1 else none
  sqrt a := a.bind fun x => if x < 0 then none else some (sqrt x)
  le
    | some x, some y => decide (x ≤ y)
    | _, _ => false

section
variable [Field F] [LinearOrder F] [FloorRing F] {exp sqrt : F → F} {powf : F → F → F} {a b : Option F}

theorem withNaN_le : (withNaN exp sqrt powf).le a b ↔ ∃ x y, a = some x ∧ b = some y ∧ x ≤ y := by
  cases a <;> cases b <;> simp [withNaN]

theorem withNaN_lt : (withNaN exp sqrt powf).lt a b ↔ ∃ x y, a = some x ∧ b = some y ∧ x < y := by
  cases a with
  | none => simp [lt, withNaN]
  | some x =>
    cases b with
    | none => simp [lt, withNaN]
    | some y =>
      simp only [lt, withNaN, Bool.and_eq_true, Bool.not_eq_true', decide_eq_true_eq, decide_eq_false_iff_not, not_le]
      exact ⟨fun h => ⟨x, y, rfl, rfl, h.2⟩, by rintro ⟨_, _, ⟨⟩, ⟨⟩, h⟩; exact ⟨h.le, h⟩⟩

theorem withNaN_lawful [IsStrictOrderedRing F] (exp sqrt : F → F) (powf : F → F → F) : (withNaN exp sqrt powf).Lawful where
  le_trans hab hbc := by
    obtain ⟨x, y, rfl, rfl, hxy⟩ := withNaN_le.mp hab
    obtain ⟨_, z, ⟨⟩, rfl, hyz⟩ := withNaN_le.mp hbc
    exact withNaN_le.mpr ⟨x, z, rfl, rfl, hxy.trans hyz⟩
  le_left hab := by
    obtain ⟨x, y, rfl, rfl, -⟩ := withNaN_le.mp hab
    exact withNaN_le.mpr ⟨x, x, rfl, rfl, le_rfl⟩
  le_right hab := by
    obtain ⟨x, y, rfl, rfl, -⟩ := withNaN_le.mp hab
    exact withNaN_le.mpr ⟨y, y, rfl, rfl, le_rfl⟩
  le_total ha hb := by
    obtain ⟨x, _, rfl, -, -⟩ := withNaN_le.mp ha
    obtain ⟨y, _, rfl, -, -⟩ := withNaN_le.mp hb
    exact (le_total x y).imp (fun h => withNaN_le.mpr ⟨x, y, rfl, rfl, h⟩) fun h => withNaN_le.mpr ⟨y, x, rfl, rfl, h⟩
  num_le h := withNaN_le.mpr ⟨_, _, rfl, rfl, h⟩
  one_pos := withNaN_lt.mpr ⟨0, 1, rfl, rfl, zero_lt_one⟩
  single_le h := h
  add_nonneg ha hb := by
    obtain ⟨_, x, ⟨⟩, rfl, hx⟩ := withNaN_le.mp ha
    obtain ⟨_, y, ⟨⟩, rfl, hy⟩ := withNaN_le.mp hb
    exact withNaN_le.mpr ⟨0, x + y, rfl, rfl, add_nonneg hx hy⟩
  add_pos ha hb := by
    obtain ⟨_, x, ⟨⟩, rfl, hx⟩ := withNaN_le.mp ha
    obtain ⟨_, y, ⟨⟩, rfl, hy⟩ := withNaN_lt.mp hb
    exact withNaN_lt.mpr ⟨0, x + y, rfl, rfl, add_pos_of_nonneg_of_pos hx hy⟩
  one_div_nonneg ha := by
    obtain ⟨_, x, ⟨⟩, rfl, hx⟩ := withNaN_lt.mp ha
    refine withNaN_le.mpr ⟨0, 1 / x, rfl, if_neg hx.ne', one_div_nonneg.mpr hx.le⟩

end
end Floating
