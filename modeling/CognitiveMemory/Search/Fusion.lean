import CognitiveMemory.Search.Ranking
import Mathlib.Algebra.Order.BigOperators.Group.List

/-! `reciprocal_rank_fusion` over any lists of hits: what it returns, and which ranks beat which. -/

namespace CognitiveMemory
open Prog Selection
variable {F : Type}

/-! ## Scores list by list -/

variable [Field F] [LinearOrder F]

def reciprocalRank (k rank : ℕ) : F := 1 / ((k : F) + (rank : F) + 1)

theorem reciprocalRank_pos [IsStrictOrderedRing F] (k rank : ℕ) : 0 < (reciprocalRank k rank : F) := by
  unfold reciprocalRank
  positivity

theorem reciprocalRank_lt [IsStrictOrderedRing F] (k : ℕ) {rank rank' : ℕ} (h : rank < rank') :
    (reciprocalRank k rank' : F) < reciprocalRank k rank := by
  have hcast : (rank : F) < rank' := Nat.cast_lt.mpr h
  unfold reciprocalRank
  gcongr

/-- The ranks a list gives an id. -/
def ranksOf (id : String) (list : List RankedHit) : List ℕ := (list.filter (·.id == id)).map RankedHit.rank

theorem mem_ranksOf {id : String} {list : List RankedHit} {rank : ℕ} :
    rank ∈ ranksOf id list ↔ ⟨id, rank⟩ ∈ list := by
  unfold ranksOf
  constructor
  · intro h
    obtain ⟨hit, hhit, rfl⟩ := List.mem_map.mp h
    obtain ⟨hmem, hid⟩ := List.mem_filter.mp hhit
    obtain rfl : hit.id = id := beq_iff_eq.mp hid
    exact hmem
  · intro h
    exact List.mem_map.mpr ⟨⟨id, rank⟩, List.mem_filter.mpr ⟨h, beq_self_eq_true id⟩, rfl⟩

omit [LinearOrder F] in
theorem fusedScore_eq (lists : List (List RankedHit)) (k : ℕ) (id : String) :
    (fusedScore lists k id : F) = (lists.map fun list => ((ranksOf id list).map (reciprocalRank k)).sum).sum := by
  induction lists with
  | nil => rfl
  | cons list lists ih =>
    have hfirst : ((list.filter (·.id == id)).map fun hit => (1 : F) / ((k : F) + (hit.rank : F) + 1)) =
        (ranksOf id list).map (reciprocalRank k) := by
      unfold ranksOf reciprocalRank
      rw [List.map_map]
      rfl
    rw [List.map_cons, List.sum_cons, ← ih, ← hfirst]
    unfold fusedScore
    rw [List.flatten_cons, List.filter_append, List.map_append, List.sum_append]

omit [LinearOrder F] in
theorem fusedScore_perm {lists lists' : List (List RankedHit)} (h : lists'.Perm lists) (k : ℕ) (id : String) :
    (fusedScore lists' k id : F) = fusedScore lists k id := by
  rw [fusedScore_eq, fusedScore_eq]
  exact (h.map _).sum_eq

/-! ## Dominance -/

/-- To each hit of `b` the list has a hit of `a` of its own, at a smaller rank. -/
def Outranks (a b : String) (list : List RankedHit) : Prop :=
  ∃ ranks, ranks.Subperm (ranksOf a list) ∧ List.Forall₂ (· < ·) ranks (ranksOf b list)

theorem Outranks.of_once {a b : String} {list : List RankedHit} (honce : (ranksOf b list).length ≤ 1)
    (hbetter : ∀ rank, ⟨b, rank⟩ ∈ list → ∃ rank', ⟨a, rank'⟩ ∈ list ∧ rank' < rank) : Outranks a b list := by
  unfold Outranks
  cases hb : ranksOf b list with
  | nil => exact ⟨[], List.nil_subperm, .nil⟩
  | cons rank rest =>
    obtain rfl : rest = [] := List.eq_nil_of_length_eq_zero (by rw [hb] at honce; simpa using honce)
    have hnamed : rank ∈ ranksOf b list := by rw [hb]; exact List.mem_singleton_self rank
    obtain ⟨rank', hmem, hlt⟩ := hbetter rank (mem_ranksOf.mp hnamed)
    exact ⟨[rank'], List.singleton_subperm_iff.mpr (mem_ranksOf.mpr hmem), .cons hlt .nil⟩

theorem sum_map_le_of_forall₂ [IsStrictOrderedRing F] (k : ℕ) {ranks ranks' : List ℕ}
    (h : List.Forall₂ (· < ·) ranks ranks') :
    ((ranks'.map (reciprocalRank k)).sum : F) ≤ (ranks.map (reciprocalRank k)).sum ∧
      (ranks' ≠ [] → ((ranks'.map (reciprocalRank k)).sum : F) < (ranks.map (reciprocalRank k)).sum) := by
  induction h with
  | nil => exact ⟨le_rfl, fun hne => absurd rfl hne⟩
  | cons hlt _ ih =>
    have hfirst := reciprocalRank_lt (F := F) k hlt
    have hstrict := add_lt_add_of_lt_of_le hfirst ih.1
    simp only [List.map_cons, List.sum_cons]
    exact ⟨hstrict.le, fun _ => hstrict⟩

theorem Outranks.sum_le [IsStrictOrderedRing F] {a b : String} {list : List RankedHit} (h : Outranks a b list) (k : ℕ) :
    (((ranksOf b list).map (reciprocalRank k)).sum : F) ≤ ((ranksOf a list).map (reciprocalRank k)).sum ∧
      (ranksOf b list ≠ [] →
        (((ranksOf b list).map (reciprocalRank k)).sum : F) < ((ranksOf a list).map (reciprocalRank k)).sum) := by
  obtain ⟨ranks, ⟨part, hperm, hsub⟩, hpaired⟩ := h
  obtain ⟨hle, hlt⟩ := sum_map_le_of_forall₂ (F := F) k hpaired
  have hpart : ((ranks.map (reciprocalRank k)).sum : F) ≤ ((ranksOf a list).map (reciprocalRank k)).sum := by
    rw [← (hperm.map _).sum_eq]
    apply (hsub.map _).sum_le_sum
    intro x hx
    obtain ⟨rank, -, rfl⟩ := List.mem_map.mp hx
    exact (reciprocalRank_pos k rank).le
  exact ⟨hle.trans hpart, fun hne => lt_of_lt_of_le (hlt hne) hpart⟩

theorem fusedScore_lt_of_outranks [IsStrictOrderedRing F] {lists : List (List RankedHit)} {a b : String}
    (h : ∀ list ∈ lists, Outranks a b list)
    (hb : ∃ hit ∈ lists.flatten, hit.id = b) (k : ℕ) : (fusedScore lists k b : F) < fusedScore lists k a := by
  obtain ⟨hit, hhit, rfl⟩ := hb
  obtain ⟨list, hlist, hmem⟩ := List.mem_flatten.mp hhit
  have hne : ranksOf hit.id list ≠ [] := List.ne_nil_of_mem (mem_ranksOf.mpr hmem)
  rw [fusedScore_eq, fusedScore_eq]
  apply List.sum_lt_sum
  · exact fun list' hlist' => ((h list' hlist').sum_le k).1
  · exact ⟨list, hlist, ((h list hlist).sum_le k).2 hne⟩

/-! ## The fused list -/

/-- What `reciprocal_rank_fusion` returns, whatever order the score map is read in. -/
structure FusedOf (lists : List (List RankedHit)) (k : ℕ) (fused : List (String × F)) : Prop where
  once : (fused.map Prod.fst).Nodup
  entry : ∀ id score, (id, score) ∈ fused ↔ (∃ hit ∈ lists.flatten, hit.id = id) ∧ score = fusedScore lists k id
  sorted : fused.Pairwise fun p q => q.2 ≤ p.2

theorem FusedOf.before {lists : List (List RankedHit)} {k : ℕ} {fused : List (String × F)} (h : FusedOf lists k fused)
    {a b : String} (ha : ∃ hit ∈ lists.flatten, hit.id = a) (hb : ∃ hit ∈ lists.flatten, hit.id = b)
    (hlt : (fusedScore lists k b : F) < fusedScore lists k a) : ∃ i j : ℕ, i < j ∧
      fused[i]? = some (a, fusedScore lists k a) ∧ fused[j]? = some (b, fusedScore lists k b) := by
  obtain ⟨i, hi⟩ := List.mem_iff_getElem?.mp ((h.entry a _).mpr ⟨ha, rfl⟩)
  obtain ⟨j, hj⟩ := List.mem_iff_getElem?.mp ((h.entry b _).mpr ⟨hb, rfl⟩)
  refine ⟨i, j, ?_, hi, hj⟩
  obtain ⟨hi', hgeti⟩ := List.getElem?_eq_some_iff.mp hi
  obtain ⟨hj', hgetj⟩ := List.getElem?_eq_some_iff.mp hj
  by_contra hij
  rcases Nat.lt_or_eq_of_le (Nat.le_of_not_lt hij) with hji | rfl
  · have hle := List.pairwise_iff_getElem.mp h.sorted j i hj' hi' hji
    rw [hgeti, hgetj] at hle
    exact absurd hle (not_le.mpr hlt)
  · rw [hi] at hj
    obtain ⟨-, hscore⟩ := Prod.mk.inj (Option.some.inj hj)
    exact absurd hscore hlt.ne'

theorem run_reciprocalRankFusion (bm25 : Bm25 F) (lists : List (List RankedHit)) (k : ℕ) (w : World F) :
    ∃ fused, ((reciprocalRankFusion lists k : SearchM F _).run (exec bm25) w).1 = .ok fused ∧ FusedOf lists k fused := by
  let scores : List (String × F) := rrfScores lists k
  let keys := w.oracle.order 0 (scores.map Prod.fst)
  let read : List (String × F) := keys.filterMap fun id => (scores.lookup id).map fun s => (id, s)
  have hkeys : keys.Perm (scores.map Prod.fst) := w.oracle.order_perm 0 _
  have hsorted : (sortDesc Prod.snd read).Perm read := Top.ranked_perm Prod.snd read
  refine ⟨sortDesc Prod.snd read, rfl, ?_, ?_, Top.ranked_sorted Prod.snd read⟩
  · apply (hsorted.map Prod.fst).nodup_iff.mpr
    apply nodup_filterMap (k := id)
    · rintro id ⟨id', score⟩ hentry
      obtain ⟨_, -, heq⟩ := Option.map_eq_some_iff.mp hentry
      exact (Prod.mk.inj heq).1.symm
    · rw [List.map_id]
      exact hkeys.nodup_iff.mpr (nodup_rrfScores lists k)
  · intro id score
    have hlookup : scores.lookup id = _ := lookup_rrfScores
    have hread : (id, score) ∈ read ↔ id ∈ keys ∧ scores.lookup id = some score := by
      rw [List.mem_filterMap]
      constructor
      · rintro ⟨id', hid', hentry⟩
        obtain ⟨score', hscore, heq⟩ := Option.map_eq_some_iff.mp hentry
        obtain ⟨rfl, rfl⟩ := Prod.mk.inj heq
        exact ⟨hid', hscore⟩
      · rintro ⟨hid, hscore⟩
        exact ⟨id, hid, by rw [hscore]; rfl⟩
    rw [hsorted.mem_iff, hread, hlookup]
    constructor
    · rintro ⟨-, hscore⟩
      split at hscore
      · exact ⟨‹_›, (Option.some.inj hscore).symm⟩
      · cases hscore
    · rintro ⟨hhit, rfl⟩
      rw [if_pos hhit]
      refine ⟨hkeys.mem_iff.mpr ?_, rfl⟩
      rw [if_pos hhit] at hlookup
      obtain ⟨before, after, heq, -⟩ := List.lookup_eq_some_iff.mp hlookup
      rw [heq]
      simp

/-- Each id once at its sum of reciprocal ranks, by falling score; the same entries for every order of the lists; and
an id that outranks another in every list comes before it with a greater score. -/
theorem fusion_laws [IsStrictOrderedRing F] (bm25 : Bm25 F) (lists : List (List RankedHit)) (k : ℕ) (w : World F) :
    ∃ fused, ((reciprocalRankFusion lists k : SearchM F _).run (exec bm25) w).1 = .ok fused ∧
      FusedOf lists k fused ∧
      (∀ lists', lists'.Perm lists → ∀ w' fused', ((reciprocalRankFusion lists' k : SearchM F _).run (exec bm25) w').1 =
        .ok fused' → ∀ entry, entry ∈ fused' ↔ entry ∈ fused) ∧
      (∀ a b, (∀ list ∈ lists, Outranks a b list) → (∃ hit ∈ lists.flatten, hit.id = b) →
        ∃ (i j : ℕ) (sa sb : F), i < j ∧ fused[i]? = some (a, sa) ∧ fused[j]? = some (b, sb) ∧ sb < sa) ∧
      (∀ a b, ∀ list ∈ lists, (ranksOf b list).length ≤ 1 →
        (∀ rank, ⟨b, rank⟩ ∈ list → ∃ rank', ⟨a, rank'⟩ ∈ list ∧ rank' < rank) → Outranks a b list) := by
  obtain ⟨fused, hrun, hfused⟩ := run_reciprocalRankFusion bm25 lists k w
  refine ⟨fused, hrun, hfused, ?_, ?_, fun a b list _ => Outranks.of_once⟩
  · intro lists' hperm w' fused' hrun' entry
    obtain ⟨fused'', hrun'', hfused'⟩ := run_reciprocalRankFusion bm25 lists' k w'
    obtain rfl : fused'' = fused' := Except.ok.inj (hrun''.symm.trans hrun')
    have hhits : lists'.flatten.Perm lists.flatten := hperm.flatten
    obtain ⟨id, score⟩ := entry
    rw [hfused'.entry, hfused.entry, fusedScore_perm hperm]
    simp only [hhits.mem_iff]
  · intro a b houtranks hb
    have hlt : (fusedScore lists k b : F) < fusedScore lists k a := fusedScore_lt_of_outranks houtranks hb k
    have ha : ∃ hit ∈ lists.flatten, hit.id = a := by
      obtain ⟨hit, hhit, rfl⟩ := hb
      obtain ⟨list, hlist, hmem⟩ := List.mem_flatten.mp hhit
      obtain ⟨ranks, hsub, hpaired⟩ := houtranks list hlist
      have hne : ranksOf a list ≠ [] := by
        rintro hnil
        rw [hnil] at hsub
        rw [List.subperm_nil.mp hsub] at hpaired
        exact absurd (List.forall₂_nil_left_iff.mp hpaired) (List.ne_nil_of_mem (mem_ranksOf.mpr hmem))
      obtain ⟨rank, hrank⟩ := List.exists_mem_of_ne_nil _ hne
      exact ⟨⟨a, rank⟩, List.mem_flatten.mpr ⟨list, hlist, mem_ranksOf.mp hrank⟩, rfl⟩
    obtain ⟨i, j, hij, hi, hj⟩ := hfused.before ha hb hlt
    exact ⟨i, j, _, _, hij, hi, hj, hlt⟩

def crowded : List (List RankedHit) := [[⟨"a", 0⟩, ⟨"b", 1⟩, ⟨"b", 2⟩]]

def fusedTwice : List (List RankedHit) := [rankedHits ["a", "b"], rankedHits ["c", "a", "b"]]

theorem fusion_laws_twice : ∃ fused : List (String × ℝ),
    ((reciprocalRankFusion fusedTwice 60 : SearchM ℝ _).run (exec fun _ _ _ => none) ⟨Db.empty, [], Oracle.quiet⟩).1 =
      .ok fused ∧
    ∃ (i j : ℕ) (sa sb : ℝ), i < j ∧ fused[i]? = some ("a", sa) ∧ fused[j]? = some ("b", sb) ∧ sb < sa := by
  obtain ⟨fused, hrun, -, -, hdominance, -⟩ :=
    fusion_laws (fun _ _ _ => none) fusedTwice 60 (⟨Db.empty, [], Oracle.quiet⟩ : World ℝ)
  refine ⟨fused, hrun, hdominance "a" "b" ?_ ⟨⟨"b", 1⟩, by simp [fusedTwice, rankedHits], rfl⟩⟩
  intro list hlist
  rcases List.mem_pair.mp hlist with rfl | rfl
  · exact ⟨[0], by decide, .cons (by decide) .nil⟩
  · exact ⟨[1], by decide, .cons (by decide) .nil⟩

/-- Two hits behind the first outweigh it. -/
theorem crowded_b_first : ¬ ∀ (bm25 : Bm25 ℝ) (lists : List (List RankedHit)) (k : ℕ) (w : World ℝ)
    (fused : List (String × ℝ)), ((reciprocalRankFusion lists k : SearchM ℝ _).run (exec bm25) w).1 = .ok fused →
    ∀ a b, (∃ list ∈ lists, ∃ rank, ⟨b, rank⟩ ∈ list) →
      (∀ list ∈ lists, (∃ rank, ⟨b, rank⟩ ∈ list) → (∃ rank, ⟨a, rank⟩ ∈ list) ∧
        ∀ rank rank', ⟨a, rank⟩ ∈ list → ⟨b, rank'⟩ ∈ list → rank < rank') →
      ∀ sa sb, (a, sa) ∈ fused → (b, sb) ∈ fused → sb < sa := by
  intro hall
  obtain ⟨fused, hrun, hfused⟩ :=
    run_reciprocalRankFusion (fun _ _ _ => none) crowded 60 (⟨Db.empty, [], Oracle.quiet⟩ : World ℝ)
  have ha : ("a", (fusedScore crowded 60 "a" : ℝ)) ∈ fused := (hfused.entry _ _).mpr ⟨⟨⟨"a", 0⟩, by simp [crowded]⟩, rfl⟩
  have hb : ("b", (fusedScore crowded 60 "b" : ℝ)) ∈ fused := (hfused.entry _ _).mpr ⟨⟨⟨"b", 1⟩, by simp [crowded]⟩, rfl⟩
  have hless : (fusedScore crowded 60 "b" : ℝ) < fusedScore crowded 60 "a" := by
    apply hall _ crowded 60 _ fused hrun "a" "b" ⟨_, List.mem_singleton_self _, 1, by simp⟩ ?_ _ _ ha hb
    intro list hlist _
    obtain rfl : list = _ := List.mem_singleton.mp hlist
    refine ⟨⟨0, by simp⟩, fun rank rank' ha' hb' => ?_⟩
    simp at ha' hb'
    omega
  have hranks : crowded.map (ranksOf "a") = [[0]] ∧ crowded.map (ranksOf "b") = [[1, 2]] := by decide
  have hscore (id : String) : (fusedScore crowded 60 id : ℝ) =
      ((crowded.map (ranksOf id)).map fun ranks => (ranks.map (reciprocalRank 60)).sum).sum := by
    rw [fusedScore_eq, List.map_map]
    rfl
  have hscores : (fusedScore crowded 60 "a" : ℝ) < fusedScore crowded 60 "b" := by
    rw [hscore, hscore, hranks.1, hranks.2]
    norm_num [reciprocalRank]
  exact absurd hless (not_lt.mpr hscores.le)

end CognitiveMemory
