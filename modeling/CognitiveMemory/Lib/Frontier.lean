import Mathlib.Data.List.Chain
import Mathlib.Logic.Relation
import Mathlib.Data.Set.Basic

/-! Exploring a graph from a frontier: what has been found, and of it what has not been expanded
yet. -/

namespace Frontier
variable {α : Type} {R : α → α → Prop}

/-- A path of at most so many steps. -/
inductive Within (R : α → α → Prop) : ℕ → α → α → Prop
  | refl (n : ℕ) (a : α) : Within R n a a
  | step {n : ℕ} {a b c : α} : R a b → Within R n b c → Within R (n + 1) a c

theorem Within.mono {m n : ℕ} {a b : α} (h : Within R m a b) (hmn : m ≤ n) : Within R n a b := by
  induction h generalizing n with
  | refl _ a => exact .refl n a
  | step hab _ ih =>
    obtain ⟨k, rfl⟩ : ∃ k, n = k + 1 := ⟨n - 1, by omega⟩
    exact .step hab (ih (by omega))

theorem Within.zero {a b : α} (h : Within R 0 a b) : a = b := by
  cases h
  rfl

theorem Within.last {n : ℕ} {a c : α} (h : Within R n a c) : a = c ∨ ∃ b, R b c := by
  induction h with
  | refl => exact .inl rfl
  | step hab _ ih =>
    rcases ih with rfl | hlast
    · exact .inr ⟨_, hab⟩
    · exact .inr hlast

theorem within_succ_iff {n : ℕ} {a c : α} : Within R (n + 1) a c ↔ Within R n a c ∨ ∃ b, Within R n a b ∧ R b c := by
  constructor
  · intro h
    induction n generalizing a with
    | zero =>
      cases h with
      | refl => exact .inl (.refl 0 _)
      | step hab hbc =>
        cases hbc
        exact .inr ⟨a, .refl 0 a, hab⟩
    | succ n ih =>
      cases h with
      | refl => exact .inl (.refl _ _)
      | step hab hbc =>
        rcases ih hbc with hshort | ⟨d, hd, hdc⟩
        · exact .inl (.step hab hshort)
        · exact .inr ⟨d, .step hab hd, hdc⟩
  · rintro (h | ⟨b, hab, hbc⟩)
    · exact h.mono (Nat.le_succ n)
    · induction hab with
      | refl m a => exact .step hbc (.refl m c)
      | step hstep _ ih => exact .step hstep (ih hbc)

/-- A list of nodes from `a` to `b` along steps. -/
structure Trail (R : α → α → Prop) (a b : α) (p : List α) : Prop where
  first : p.head? = some a
  last : p.getLast? = some b
  chain : p.IsChain R

theorem Trail.single (a : α) : Trail R a a [a] := ⟨rfl, rfl, .singleton a⟩

theorem Trail.snoc {a b c : α} {p : List α} (h : Trail R a b p) (hbc : R b c) : Trail R a c (p ++ [c]) := by
  obtain ⟨hfirst, hlast, hchain⟩ := h
  refine ⟨by rw [List.head?_append, hfirst]; rfl, List.getLast?_concat, List.isChain_append.mpr ⟨hchain, .singleton c, ?_⟩⟩
  intro x hx y hy
  rw [hlast] at hx
  cases hx
  cases hy
  exact hbc

theorem Trail.within {a b : α} {p : List α} {n : ℕ} (h : Trail R a b p) (hlen : p.length ≤ n + 1) : Within R n a b := by
  obtain ⟨hfirst, hlast, hchain⟩ := h
  induction p generalizing a n with
  | nil => cases hfirst
  | cons x p ih =>
    obtain rfl : x = a := Option.some.inj hfirst
    cases p with
    | nil =>
      obtain rfl : x = b := Option.some.inj hlast
      exact .refl n x
    | cons y p =>
      obtain ⟨hxy, hrest⟩ := List.isChain_cons_cons.mp hchain
      obtain ⟨k, rfl⟩ : ∃ k, n = k + 1 := ⟨n - 1, by simp at hlen; omega⟩
      refine .step hxy (ih (by simpa using hlen) rfl ?_ hrest)
      rw [← hlast, List.getLast?_cons_cons]

/-- A way from the start set along labelled edges that enters no node twice and never comes back to
the start set: the edges it takes and the nodes they lead to. -/
inductive Route {ε : Type} (E : α → ε → α → Prop) (A : Set α) : α → List ε → List α → Prop
  | start {a : α} : a ∈ A → Route E A a [] []
  | follow {a b : α} {e : ε} {es : List ε} {bs : List α} : Route E A a es bs → E a e b → b ∉ A → b ∉ bs →
      Route E A b (es ++ [e]) (bs ++ [b])

theorem Route.within {ε : Type} {E : α → ε → α → Prop} {A : Set α} {b : α} {es : List ε} {bs : List α}
    (h : Route E A b es bs) :
    ∃ a ∈ A, Within (fun a b => ∃ e, E a e b) es.length a b := by
  induction h with
  | start ha => exact ⟨_, ha, .refl 0 _⟩
  | follow _ hedge _ _ ih =>
    obtain ⟨a, ha, hwithin⟩ := ih
    rw [List.length_append, List.length_singleton]
    exact ⟨a, ha, within_succ_iff.mpr (.inr ⟨_, hwithin, _, hedge⟩)⟩

theorem Route.last {ε : Type} {E : α → ε → α → Prop} {A : Set α} {b : α} {es : List ε} {bs : List α}
    (h : Route E A b es bs) :
    b ∈ A ∧ es = [] ∨ b ∉ A ∧ ∃ es' e a bs', es = es' ++ [e] ∧ E a e b ∧ Route E A a es' bs' := by
  cases h with
  | start ha => exact .inl ⟨ha, rfl⟩
  | follow hroute hedge hb _ => exact .inr ⟨hb, _, _, _, _, rfl, hedge, hroute⟩

theorem within_of_reaches {a b : α} (h : Relation.ReflTransGen R a b) : ∃ n, Within R (n + 1) a b := by
  induction h using Relation.ReflTransGen.head_induction_on with
  | refl => exact ⟨0, .refl 1 b⟩
  | head hab _ ih =>
    obtain ⟨n, hn⟩ := ih
    exact ⟨n + 1, .step hab hn⟩

/-- What has been found and expanded has all its neighbours among the found. -/
structure Explored (R : α → α → Prop) (found frontier : Set α) : Prop where
  frontier_found : frontier ⊆ found
  closed : ∀ a ∈ found, a ∉ frontier → ∀ b, R a b → b ∈ found

/-- Expanding the whole frontier; the new frontier is what is found beyond the old. -/
theorem Explored.expand {found frontier found' frontier' : Set α} (h : Explored R found frontier) (hsub : found ⊆ found')
    (hnew : found' ⊆ found ∪ frontier') (hfrontier : frontier' ⊆ found')
    (hexpand : ∀ a ∈ frontier, ∀ b, R a b → b ∈ found') : Explored R found' frontier' := by
  refine ⟨hfrontier, fun a ha hnot b hab => ?_⟩
  have hold : a ∈ found := (hnew ha).resolve_right hnot
  by_cases hfr : a ∈ frontier
  · exact hexpand a hfr b hab
  · exact hsub (h.closed a hold hfr b hab)

/-- With nothing left to expand, everything within reach has been found. -/
theorem Explored.done {found : Set α} (h : Explored R found ∅) {n : ℕ} {a b : α} (ha : a ∈ found) (hab : Within R n a b) :
    b ∈ found := by
  induction hab with
  | refl => exact ha
  | step hstep _ ih => exact ih (h.closed _ ha (Set.notMem_empty _) _ hstep)

theorem Explored.advance {found frontier found' : Set α} (h : Explored R found frontier) (hsub : found ⊆ found')
    (hexpand : ∀ a ∈ frontier, ∀ b, R a b → b ∈ found') {n : ℕ} {a c : α} (ha : a ∈ found) (hac : Within R (n + 1) a c) :
    ∃ b ∈ found', Within R n b c := by
  cases hac with
  | refl => exact ⟨a, hsub ha, .refl n a⟩
  | step hstep hrest =>
    refine ⟨_, ?_, hrest⟩
    by_cases hfr : a ∈ frontier
    · exact hexpand a hfr _ hstep
    · exact hsub (h.closed a ha hfr _ hstep)

end Frontier
