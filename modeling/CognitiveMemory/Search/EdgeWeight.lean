import CognitiveMemory.Lib.Selection
import CognitiveMemory.Search.Visibility
import Mathlib.Analysis.Complex.ExponentialBounds

/-! The weight with which a hop of graph expansion admits a memory, and the stored edges it is
merged from. -/

namespace CognitiveMemory
open Prog Selection
variable {F : Type}

/-! ## Merged edges -/

theorem filter_sortDesc [LinearOrder F] {α : Type} (key : α → F) (p : α → Bool) (l : List α) :
    (sortDesc key l).filter p = sortDesc key (l.filter p) := by
  have htotal : Std.Total fun a b : α => key b ≤ key a := ⟨fun a b => le_total (key b) (key a)⟩
  have htrans : IsTrans α fun a b : α => key b ≤ key a := ⟨fun _ _ _ hab hbc => le_trans hbc hab⟩
  exact filter_insertionSort p l

theorem filter_byTarget {α : Type} (target : α → String) (p : α → Bool) (l : List α) :
    (byTarget target l).filter p = byTarget target (l.filter p) := by
  have htotal : Std.Total fun a b : α => target a ≤ target b := ⟨fun a b => String.le_total (target a) (target b)⟩
  have htrans : IsTrans α fun a b : α => target a ≤ target b := ⟨fun _ _ _ hab hbc => String.le_trans hab hbc⟩
  exact filter_insertionSort p l

theorem filter_mergeEdge [LinearOrder F] (own : String → Bool) (groups : List (NeighborEdge F)) (e : NeighborEdge F) :
    (mergeEdge groups e).filter (fun g => own g.targetId) =
      if own e.targetId then mergeEdge (groups.filter fun g => own g.targetId) e else groups.filter fun g => own g.targetId := by
  induction groups with
  | nil => rw [mergeEdge, List.filter_cons]; rfl
  | cons g groups ih =>
    rw [mergeEdge]
    by_cases heq : g.targetId = e.targetId
    · rw [if_pos heq, List.filter_cons, List.filter_cons]
      by_cases hown : own e.targetId
      · rw [if_pos hown, heq, if_pos hown, if_pos hown, mergeEdge, if_pos heq]
        rw [heq]
      · rw [if_neg hown, heq, if_neg hown, if_neg hown]
    · rw [if_neg heq, List.filter_cons, List.filter_cons, ih]
      by_cases hg : own g.targetId
      · rw [if_pos hg, if_pos hg]
        split
        · rw [mergeEdge, if_neg heq]
        · rfl
      · rw [if_neg hg, if_neg hg]

theorem filter_mergeEdges [LinearOrder F] (own : String → Bool) (es groups : List (NeighborEdge F)) :
    (es.foldl mergeEdge groups).filter (fun g => own g.targetId) =
      (es.filter fun e => own e.targetId).foldl mergeEdge (groups.filter fun g => own g.targetId) := by
  induction es generalizing groups with
  | nil => rfl
  | cons e es ih =>
    rw [List.foldl_cons, ih, filter_mergeEdge, List.filter_cons]
    split
    · rfl
    · rfl

structure MergedFrom [LinearOrder F] (es : List (NeighborEdge F)) (weight : F) (last : Option Int) : Prop where
  le_weight : ∀ e ∈ es, e.weight ≤ weight
  weight_mem : ∃ e ∈ es, e.weight = weight
  le_last : ∀ e ∈ es, ∀ l, e.lastCoRetrieval = some l → ∃ last', last = some last' ∧ l ≤ last'
  last_mem : ∃ e ∈ es, e.lastCoRetrieval = last

theorem maxLast_choice (a b : Option Int) : maxLast a b = a ∨ maxLast a b = b := by
  cases a with
  | none => exact .inr rfl
  | some a =>
    cases b with
    | none => exact .inl rfl
    | some b => rcases max_choice a b with h | h <;> simp [maxLast, h]

theorem le_maxLast {a b : Option Int} {l : Int} (h : a = some l ∨ b = some l) :
    ∃ last, maxLast a b = some last ∧ l ≤ last := by
  cases a with
  | none =>
    have hb : b = some l := h.resolve_left (by simp)
    exact ⟨l, hb ▸ rfl, le_refl l⟩
  | some a =>
    cases b with
    | none =>
      have ha : some a = some l := h.resolve_right (by simp)
      exact ⟨a, rfl, (Option.some.inj ha).ge⟩
    | some b =>
      refine ⟨max a b, rfl, ?_⟩
      rcases h with h | h
      · exact (Option.some.inj h) ▸ le_max_left a b
      · exact (Option.some.inj h) ▸ le_max_right a b

theorem MergedFrom.add [LinearOrder F] {es : List (NeighborEdge F)} {weight : F} {last : Option Int}
    (h : MergedFrom es weight last)
    (e : NeighborEdge F) : MergedFrom (es ++ [e]) (max weight e.weight) (maxLast last e.lastCoRetrieval) := by
  have hmem : ∀ {e'}, e' ∈ es ++ [e] ↔ e' ∈ es ∨ e' = e := by simp
  refine ⟨fun e' he' => ?_, ?_, fun e' he' l hl => ?_, ?_⟩
  · rcases hmem.mp he' with he' | rfl
    · exact le_max_of_le_left (h.le_weight e' he')
    · exact le_max_right _ _
  · rcases max_choice weight e.weight with hmax | hmax
    · obtain ⟨e', he', hw⟩ := h.weight_mem
      exact ⟨e', hmem.mpr (.inl he'), hw.trans hmax.symm⟩
    · exact ⟨e, hmem.mpr (.inr rfl), hmax.symm⟩
  · rcases hmem.mp he' with he' | rfl
    · obtain ⟨last', rfl, hle⟩ := h.le_last e' he' l hl
      obtain ⟨last'', hmax, hle'⟩ := le_maxLast (b := e.lastCoRetrieval) (.inl (rfl : some last' = some last'))
      exact ⟨last'', hmax, hle.trans hle'⟩
    · exact le_maxLast (.inr hl)
  · rcases maxLast_choice last e.lastCoRetrieval with hmax | hmax
    · obtain ⟨e', he', hl⟩ := h.last_mem
      exact ⟨e', hmem.mpr (.inl he'), hl.trans hmax.symm⟩
    · exact ⟨e, hmem.mpr (.inr rfl), hmax.symm⟩

theorem foldl_mergeEdge_single [LinearOrder F] {t : String} {es es' : List (NeighborEdge F)} {weight : F} {last : Option Int}
    (h : MergedFrom es' weight last) (hes : ∀ e ∈ es, e.targetId = t) :
    ∃ w l, es.foldl mergeEdge [⟨t, weight, last⟩] = [⟨t, w, l⟩] ∧ MergedFrom (es' ++ es) w l := by
  induction es generalizing es' weight last with
  | nil => exact ⟨weight, last, rfl, by rwa [List.append_nil]⟩
  | cons e es ih =>
    obtain ⟨he, hes⟩ := List.forall_mem_cons.mp hes
    obtain ⟨w, l, hfold, hmerged⟩ := ih (h.add e) hes
    refine ⟨w, l, ?_, by rwa [List.append_assoc] at hmerged⟩
    rw [List.foldl_cons, mergeEdge, if_pos he.symm]
    exact hfold

theorem mergedFrom_singleton [LinearOrder F] (e : NeighborEdge F) : MergedFrom [e] e.weight e.lastCoRetrieval := by
  refine ⟨by simp, ⟨e, by simp⟩, ?_, ⟨e, by simp⟩⟩
  intro e' he' l hl
  rw [List.mem_singleton.mp he'] at hl
  exact ⟨l, hl, le_refl l⟩

/-- The edges from the sources to `t` that the hop reads. -/
def Db.edgesInto [LinearOrder F] (db : Db F) (sourceIds : List String) (minWeight : F) (t : String) :
    List (AssociationRow F) :=
  (db.associations.filter fun e => sourceIds.contains e.sourceMemoryId && decide (minWeight ≤ e.weight)).filter
    fun e => e.targetMemoryId == t

theorem mem_edgesInto [LinearOrder F] {db : Db F} {sourceIds : List String} {minWeight : F} {t : String}
    {e : AssociationRow F} :
    e ∈ db.edgesInto sourceIds minWeight t ↔ e ∈ db.associations ∧ e.sourceMemoryId ∈ sourceIds ∧ e.targetMemoryId = t ∧
      minWeight ≤ e.weight := by
  simp only [Db.edgesInto, List.mem_filter, List.contains_iff_mem, Bool.and_eq_true, decide_eq_true_eq, beq_iff_eq]
  tauto

theorem mergedFrom_of_find [LinearOrder F] {db : Db F} {sourceIds : List String} {minWeight : F} {t : String}
    {g : NeighborEdge F} (h : (db.edgesFromMany sourceIds minWeight).find? (·.targetId == t) = some g) :
    MergedFrom ((db.edgesInto sourceIds minWeight t).map NeighborEdge.ofRow) g.weight g.lastCoRetrieval := by
  let es := (db.edgesInto sourceIds minWeight t).map NeighborEdge.ofRow
  have hfilter : (db.edgesFromMany sourceIds minWeight).filter (·.targetId == t) =
      sortDesc NeighborEdge.weight (byTarget NeighborEdge.targetId (es.foldl mergeEdge [])) := by
    unfold Db.edgesFromMany
    dsimp only
    rw [filter_sortDesc, filter_byTarget, filter_mergeEdges (· == t), List.filter_map]
    rfl
  have htargets : ∀ e ∈ es, e.targetId = t := by
    intro e he
    obtain ⟨r, hr, rfl⟩ := List.mem_map.mp he
    exact (mem_edgesInto.mp hr).2.2.1
  rw [← List.head?_filter, hfilter] at h
  show MergedFrom es g.weight g.lastCoRetrieval
  cases hes : es with
  | nil =>
    rw [hes] at h
    exact nomatch h
  | cons e es' =>
    rw [hes] at htargets
    obtain ⟨he, htargets⟩ := List.forall_mem_cons.mp htargets
    obtain ⟨w, l, hfold, hmerged⟩ := foldl_mergeEdge_single (mergedFrom_singleton e) htargets
    have hgroup : (e :: es').foldl mergeEdge [] = [⟨t, w, l⟩] := by
      rw [List.foldl_cons, mergeEdge, ← hfold, ← he]
    rw [hes, hgroup] at h
    cases h
    exact hmerged

/-- A linked memory comes with the greatest weight and the latest date of the edges to it. -/
theorem linkedMany_mergedFrom [LinearOrder F] {db : Db F} {userId : String} {sourceIds : List String}
    {minWeight : F} {lm : LinkedMemory F} (h : lm ∈ db.linkedMany userId sourceIds minWeight) :
    MergedFrom ((db.edgesInto sourceIds minWeight lm.memory.id).map NeighborEdge.ofRow) lm.linkStrength
      lm.lastCoRetrieval := by
  obtain ⟨m, -, hlm⟩ := List.mem_filterMap.mp h
  obtain ⟨g, hg, rfl⟩ := Option.map_eq_some_iff.mp hlm
  exact mergedFrom_of_find hg

variable [Field F] [LinearOrder F]

theorem run_linkedForMany {bm25 : Bm25 F} {db : Db F} {w : World F} (hw : w.Reads db True) {userId : String}
    {sourceIds : List String} {minWeight : F} : ((linkedForMany userId sourceIds minWeight).run (exec bm25) w).1 =
      .ok (db.linkedMany userId sourceIds minWeight) := by
  have hlinked : (linkedForMany userId sourceIds minWeight).wp (exec bm25)
      (fun a w' => a = db.linkedMany userId sourceIds minWeight ∧ w'.Reads db True) (fun _ => ¬ True) w := wp_linkedForMany hw
  obtain ⟨linked, hrun, rfl, -⟩ := wp_total hlinked fun _ => not_not.mpr trivial
  exact hrun

/-! ## Admission -/

section

variable [Elementary F]

/-- The hop from `x` admits `lm`: `linked_for_many` returns it, and the loop adds an entry for it. -/
def Admits (bm25 : Bm25 F) (cfg : LifecycleConfig F) (queryVec : List F) (o : SearchOptions F) (userId : String) (db : Db F)
    (x : Expansion F) (lm : LinkedMemory F) : Prop :=
  (∃ (w : World F) (linked : List (LinkedMemory F)), w.db = db ∧ lm ∈ linked ∧
    ((linkedForMany userId x.frontier o.minBridgeEdgeWeight).run (exec bm25) w).1 = .ok linked) ∧
  lm.memory.id ∉ x.alreadyHave ∧ (expandEntry cfg queryVec o lm).isSome

/-- `w * exp(-Δt/τ)` of a stored edge, or `w` when it has no date. -/
def AssociationRow.decayed (cfg : LifecycleConfig F) (now : Int) (e : AssociationRow F) : F :=
  match e.lastCoRetrieval with
  | some last => decayAssociationWeight e.weight last now cfg.associationDecayConstantDays
  | none => e.weight

/-- The live weight of the memory is at most the decayed weight of some edge to it from the
frontier. -/
def LinkedMemory.FromOneEdge (cfg : LifecycleConfig F) (o : SearchOptions F) (db : Db F) (x : Expansion F)
    (lm : LinkedMemory F) : Prop :=
  ∃ e ∈ db.associations, e.sourceMemoryId ∈ x.frontier ∧ e.targetMemoryId = lm.memory.id ∧
    liveWeight cfg o.now lm ≤ e.decayed cfg o.now

/-- Of the edges the hop reads one is the heaviest, and as recent as any by now; or one without a
date weighs as much as the heaviest would under the latest date. -/
def LinkedMemory.OneCarries (cfg : LifecycleConfig F) (o : SearchOptions F) (db : Db F) (x : Expansion F)
    (lm : LinkedMemory F) : Prop :=
  let into := db.edgesInto x.frontier o.minBridgeEdgeWeight lm.memory.id
  ∃ e ∈ into,
    (∀ e' ∈ into, e'.weight ≤ e.weight ∧ ∀ l', e'.lastCoRetrieval = some l' → ∃ l, e.lastCoRetrieval = some l ∧
      min l' o.now ≤ l) ∨
    (e.lastCoRetrieval = none ∧ ∀ e₁ ∈ into, ∀ e₂ ∈ into, ∀ l, e₂.lastCoRetrieval = some l →
      decayAssociationWeight e₁.weight l o.now cfg.associationDecayConstantDays ≤ e.weight)

theorem Admits.linked {bm25 : Bm25 F} {cfg : LifecycleConfig F} {queryVec : List F} {o : SearchOptions F} {userId : String}
    {db : Db F} {x : Expansion F} {lm : LinkedMemory F} (h : Admits bm25 cfg queryVec o userId db x lm) :
    lm ∈ db.linkedMany userId x.frontier o.minBridgeEdgeWeight ∧ o.minBridgeEdgeWeight ≤ liveWeight cfg o.now lm := by
  obtain ⟨⟨w, linked, hdb, hlm, hrun⟩, -, hentry⟩ := h
  have hw : w.Reads db False := ⟨hdb, False.elim⟩
  obtain ⟨rfl, -⟩ := wp_ok (wp_linkedForMany hw) hrun
  refine ⟨hlm, not_lt.mp fun hlow => ?_⟩
  rw [expandEntry, if_pos hlow] at hentry
  exact nomatch hentry

end

/-! ## Decay over the reals -/

section
variable {tau : ℝ}

theorem decay_factor_le_iff (htau : 0 < tau) {l l' now : Int} :
    Real.exp (-(daysSince l now : ℝ) / tau) ≤ Real.exp (-(daysSince l' now : ℝ) / tau) ↔ min l now ≤ l' := by
  rw [Real.exp_le_exp, div_le_div_iff_of_pos_right htau, neg_le_neg_iff, daysSince_le_iff]

theorem decay_le (htau : 0 < tau) {weight : ℝ} (h : 0 ≤ weight) (l now : Int) :
    decayAssociationWeight weight l now tau ≤ weight := by
  have hone : Real.exp (-(daysSince l now : ℝ) / tau) ≤ 1 :=
    Real.exp_le_one_iff.mpr (div_nonpos_of_nonpos_of_nonneg (neg_nonpos.mpr (daysSince_nonneg l now)) htau.le)
  exact mul_le_of_le_one_right h hone

theorem decay_mono (htau : 0 < tau) {w w' : ℝ} {l l' now : Int} (hw : w ≤ w') (h : 0 ≤ w') (hl : min l now ≤ l') :
    decayAssociationWeight w l now tau ≤ decayAssociationWeight w' l' now tau :=
  mul_le_mul hw ((decay_factor_le_iff htau).mpr hl) (Real.exp_pos _).le h

theorem decayed_le {cfg : LifecycleConfig ℝ} (htau : 0 < cfg.associationDecayConstantDays) {e : AssociationRow ℝ}
    (h : 0 ≤ e.weight) (now : Int) : e.decayed cfg now ≤ e.weight := by
  unfold AssociationRow.decayed
  split
  · exact decay_le htau h _ now
  · exact le_refl _

theorem decayed_neg {cfg : LifecycleConfig ℝ} {e : AssociationRow ℝ} (h : e.weight < 0) (now : Int) :
    e.decayed cfg now < 0 := by
  unfold AssociationRow.decayed
  split
  · exact mul_neg_of_neg_of_pos h (Real.exp_pos _)
  · exact h

end

/-! ## The weight of one edge -/

section
variable {bm25 : Bm25 ℝ} {cfg : LifecycleConfig ℝ} {queryVec : List ℝ} {o : SearchOptions ℝ} {userId : String} {db : Db ℝ}
  {x : Expansion ℝ} {lm : LinkedMemory ℝ}

structure Merged (o : SearchOptions ℝ) (db : Db ℝ) (x : Expansion ℝ) (lm : LinkedMemory ℝ) : Prop where
  le_weight : ∀ e ∈ db.edgesInto x.frontier o.minBridgeEdgeWeight lm.memory.id, e.weight ≤ lm.linkStrength
  heaviest : ∃ e ∈ db.edgesInto x.frontier o.minBridgeEdgeWeight lm.memory.id, e.weight = lm.linkStrength
  le_last : ∀ e ∈ db.edgesInto x.frontier o.minBridgeEdgeWeight lm.memory.id, ∀ l, e.lastCoRetrieval = some l →
    ∃ last, lm.lastCoRetrieval = some last ∧ l ≤ last
  latest : ∃ e ∈ db.edgesInto x.frontier o.minBridgeEdgeWeight lm.memory.id, e.lastCoRetrieval = lm.lastCoRetrieval

theorem merged_of_linkedMany (h : lm ∈ db.linkedMany userId x.frontier o.minBridgeEdgeWeight) : Merged o db x lm := by
  have hmerged := linkedMany_mergedFrom h
  refine ⟨fun e he => hmerged.le_weight _ (List.mem_map_of_mem he), ?_,
    fun e he => hmerged.le_last _ (List.mem_map_of_mem he), ?_⟩
  · obtain ⟨g, hg, hweight⟩ := hmerged.weight_mem
    obtain ⟨e, he, rfl⟩ := List.mem_map.mp hg
    exact ⟨e, he, hweight⟩
  · obtain ⟨g, hg, hlast⟩ := hmerged.last_mem
    obtain ⟨e, he, rfl⟩ := List.mem_map.mp hg
    exact ⟨e, he, hlast⟩

theorem weight_nonneg_of_edgesInto (hmin : 0 ≤ o.minBridgeEdgeWeight) {t : String} {e : AssociationRow ℝ}
    (he : e ∈ db.edgesInto x.frontier o.minBridgeEdgeWeight t) : 0 ≤ e.weight :=
  hmin.trans (mem_edgesInto.mp he).2.2.2

theorem fromOneEdge_of_oneCarries (htau : 0 < cfg.associationDecayConstantDays) (hmin : 0 ≤ o.minBridgeEdgeWeight)
    (hm : Merged o db x lm) (h : lm.OneCarries cfg o db x) : lm.FromOneEdge cfg o db x := by
  obtain ⟨e, he, hcase⟩ := h
  obtain ⟨e₀, he₀, hheavy⟩ := hm.heaviest
  obtain ⟨e₁, he₁, hlatest⟩ := hm.latest
  have hfound : ∀ e ∈ db.edgesInto x.frontier o.minBridgeEdgeWeight lm.memory.id,
      liveWeight cfg o.now lm ≤ e.decayed cfg o.now → lm.FromOneEdge cfg o db x := by
    intro e he hle
    obtain ⟨hmem, hsource, htarget, -⟩ := mem_edgesInto.mp he
    exact ⟨e, hmem, hsource, htarget, hle⟩
  cases hlast : lm.lastCoRetrieval with
  | none =>
    -- no edge has a date, so the heaviest keeps its weight
    have hundated : e₀.lastCoRetrieval = none := by
      by_contra hdated
      obtain ⟨l, hl⟩ := Option.ne_none_iff_exists'.mp hdated
      obtain ⟨last, hsome, -⟩ := hm.le_last e₀ he₀ l hl
      rw [hlast] at hsome
      exact nomatch hsome
    apply hfound e₀ he₀
    simp only [liveWeight, hlast, AssociationRow.decayed, hundated, hheavy, le_refl]
  | some last =>
    have hlive : liveWeight cfg o.now lm = decayAssociationWeight e₀.weight last o.now cfg.associationDecayConstantDays := by
      simp only [liveWeight, hlast, hheavy]
    apply hfound e he
    rcases hcase with hboth | ⟨hundated, hcover⟩
    · obtain ⟨l, hl, hrecent⟩ := (hboth e₁ he₁).2 last (hlatest.trans hlast)
      rw [hlive, AssociationRow.decayed, hl]
      exact decay_mono htau (hboth e₀ he₀).1 (weight_nonneg_of_edgesInto hmin he) hrecent
    · rw [hlive, AssociationRow.decayed, hundated]
      exact hcover e₀ he₀ e₁ he₁ last (hlatest.trans hlast)

theorem oneCarries_of_fromOneEdge (htau : 0 < cfg.associationDecayConstantDays) (hmin : 0 ≤ o.minBridgeEdgeWeight)
    (hm : Merged o db x lm) (hadmitted : o.minBridgeEdgeWeight ≤ liveWeight cfg o.now lm) (h : lm.FromOneEdge cfg o db x) :
    lm.OneCarries cfg o db x := by
  obtain ⟨e, hmem, hsource, htarget, hle⟩ := h
  have hpos : 0 ≤ e.weight := by
    by_contra hneg
    have hlow : e.decayed cfg o.now < 0 := decayed_neg (not_le.mp hneg) o.now
    linarith
  have hdecayed : e.decayed cfg o.now ≤ e.weight := decayed_le htau hpos o.now
  have he : e ∈ db.edgesInto x.frontier o.minBridgeEdgeWeight lm.memory.id :=
    mem_edgesInto.mpr ⟨hmem, hsource, htarget, hadmitted.trans (hle.trans hdecayed)⟩
  obtain ⟨e₁, he₁, hlatest⟩ := hm.latest
  have hstrength : 0 ≤ lm.linkStrength := hpos.trans (hm.le_weight e he)
  -- without a date nothing decays; with one, the largest weight and the latest date may be of two edges
  cases hlast : lm.lastCoRetrieval with
  | none =>
    have hlive : liveWeight cfg o.now lm = lm.linkStrength := by simp only [liveWeight, hlast]
    refine ⟨e, he, .inl fun e' he' => ⟨?_, fun l' hl' => ?_⟩⟩
    · linarith [hm.le_weight e' he']
    · obtain ⟨last, hsome, -⟩ := hm.le_last e' he' l' hl'
      rw [hlast] at hsome
      cases hsome
  | some last =>
    have hlive : liveWeight cfg o.now lm =
        decayAssociationWeight lm.linkStrength last o.now cfg.associationDecayConstantDays := by
      simp only [liveWeight, hlast]
    have hdates : ∀ e' ∈ db.edgesInto x.frontier o.minBridgeEdgeWeight lm.memory.id, ∀ l', e'.lastCoRetrieval = some l' →
        l' ≤ last := by
      intro e' he' l' hl'
      obtain ⟨last', hsome, hle'⟩ := hm.le_last e' he' l' hl'
      rw [hlast] at hsome
      exact hle'.trans (Option.some.inj hsome).ge
    cases hdate : e.lastCoRetrieval with
    | none =>
      refine ⟨e, he, .inr ⟨hdate, fun e' he' e'' he'' l hl => ?_⟩⟩
      have hcover : decayAssociationWeight e'.weight l o.now cfg.associationDecayConstantDays ≤
          decayAssociationWeight lm.linkStrength last o.now cfg.associationDecayConstantDays :=
        decay_mono htau (hm.le_weight e' he') hstrength ((min_le_left l o.now).trans (hdates e'' he'' l hl))
      linarith
    | some l =>
      have hedge : e.decayed cfg o.now = decayAssociationWeight e.weight l o.now cfg.associationDecayConstantDays := by
        simp only [AssociationRow.decayed, hdate]
      rcases hstrength.eq_or_lt with hzero | hstrong
      · -- all weights are zero, and the latest edge will do
        refine ⟨e₁, he₁, .inl fun e' he' => ⟨?_, fun l' hl' => ?_⟩⟩
        · linarith [hm.le_weight e' he', weight_nonneg_of_edgesInto hmin he₁]
        · exact ⟨last, hlatest.trans hlast, (min_le_left _ _).trans (hdates e' he' l' hl')⟩
      · have hfactor := (decay_factor_le_iff htau).mpr ((min_le_left l o.now).trans (hdates e he l hdate))
        have hlast_pos : 0 < Real.exp (-(daysSince last o.now : ℝ) / cfg.associationDecayConstantDays) := Real.exp_pos _
        have hproducts : lm.linkStrength * Real.exp (-(daysSince last o.now : ℝ) / cfg.associationDecayConstantDays) ≤
            e.weight * Real.exp (-(daysSince l o.now : ℝ) / cfg.associationDecayConstantDays) := by
          rw [hlive, hedge] at hle
          exact hle
        have hheavy : lm.linkStrength ≤ e.weight := by
          refine le_of_mul_le_mul_right (hproducts.trans ?_) hlast_pos
          exact mul_le_mul_of_nonneg_left hfactor hpos
        have hrecent : min last o.now ≤ l := by
          refine (decay_factor_le_iff htau).mp (le_of_mul_le_mul_left (hproducts.trans ?_) hstrong)
          exact mul_le_mul_of_nonneg_right (hm.le_weight e he) (Real.exp_pos _).le
        refine ⟨e, he, .inl fun e' he' => ⟨(hm.le_weight e' he').trans hheavy, fun l' hl' => ⟨l, hdate, ?_⟩⟩⟩
        exact (min_le_min_right _ (hdates e' he' l' hl')).trans hrecent

/-- For every store, frontier, time and time constant, and every memory a hop admits: its live weight
is the greatest stored weight decayed by the latest date, and that is the weight of an edge if and
only if one edge carries both. -/
theorem liveWeight_of_edges (htau : 0 < cfg.associationDecayConstantDays) (hmin : 0 ≤ o.minBridgeEdgeWeight)
    (h : Admits bm25 cfg queryVec o userId db x lm) :
    (∃ e₀ ∈ db.edgesInto x.frontier o.minBridgeEdgeWeight lm.memory.id,
      ∃ e₁ ∈ db.edgesInto x.frontier o.minBridgeEdgeWeight lm.memory.id,
        (∀ e ∈ db.edgesInto x.frontier o.minBridgeEdgeWeight lm.memory.id, e.weight ≤ e₀.weight ∧
          ∀ l, e.lastCoRetrieval = some l → ∃ l₁, e₁.lastCoRetrieval = some l₁ ∧ l ≤ l₁) ∧
        liveWeight cfg o.now lm = ({ e₀ with lastCoRetrieval := e₁.lastCoRetrieval } : AssociationRow ℝ).decayed cfg o.now) ∧
      (lm.FromOneEdge cfg o db x ↔ lm.OneCarries cfg o db x) := by
  obtain ⟨hlinked, hadmitted⟩ := h.linked
  have hm : Merged o db x lm := merged_of_linkedMany hlinked
  obtain ⟨e₀, he₀, hheavy⟩ := hm.heaviest
  obtain ⟨e₁, he₁, hlatest⟩ := hm.latest
  refine ⟨⟨e₀, he₀, e₁, he₁, fun e he => ⟨?_, fun l hl => ?_⟩, ?_⟩, ?_⟩
  · rw [hheavy]
    exact hm.le_weight e he
  · rw [hlatest]
    exact hm.le_last e he l hl
  · rw [liveWeight, ← hlatest, ← hheavy]
    rfl
  · exact ⟨oneCarries_of_fromOneEdge htau hmin hm hadmitted, fromOneEdge_of_oneCarries htau hmin hm⟩

/-! ### An old strong edge and a young weak one -/

noncomputable def ridge : Db ℝ :=
  let row (id content : String) : MemoryRow ℝ :=
    { MemoryRow.newMinimal id "alice" content "semantic" "fact" 0 with
      embedding := some [1]
      embeddingProvider := some "flat"
      embeddingModel := some "flat-1" }
  { Db.empty with
    memories := [row "mem_tea" "tea", row "mem_ale" "ale", row "mem_milk" "milk"]
    associations := [⟨"mem_tea", "mem_milk", 1, "explicit", 0, some 0⟩,
      ⟨"mem_ale", "mem_milk", 3 / 10, "explicit", 7776000, some 7776000⟩] }

noncomputable def halfYear : SearchOptions ℝ := ⟨5, false, "flat", "flat-1", 15552000, false, none, 1, 3 / 10, false, 3⟩

def fromTeaAndAle : Expansion ℝ := ⟨["mem_tea", "mem_ale"], [], ["mem_tea", "mem_ale"]⟩

theorem mem_ridge_edges {e : AssociationRow ℝ} : e ∈ ridge.associations ↔
    e = ⟨"mem_tea", "mem_milk", 1, "explicit", 0, some 0⟩ ∨
      e = ⟨"mem_ale", "mem_milk", 3 / 10, "explicit", 7776000, some 7776000⟩ := by
  simp [ridge]

theorem daysSince_ale : (daysSince 7776000 15552000 : ℝ) = 90 := by
  unfold daysSince
  norm_num

theorem daysSince_tea : (daysSince 0 15552000 : ℝ) = 180 := by
  unfold daysSince
  norm_num

/-- The hop counts milk as strong as the one edge and as young as the other. -/
theorem admits_milk : ∃ lm : LinkedMemory ℝ,
    Admits (fun _ _ _ => none) .default [1] halfYear "alice" ridge fromTeaAndAle lm ∧ lm.memory.id = "mem_milk" ∧
      liveWeight .default halfYear.now lm = Real.exp (-1) := by
  let tea : AssociationRow ℝ := ⟨"mem_tea", "mem_milk", 1, "explicit", 0, some 0⟩
  let ale : AssociationRow ℝ := ⟨"mem_ale", "mem_milk", 3 / 10, "explicit", 7776000, some 7776000⟩
  obtain ⟨m, hm, hid, huser, hdim⟩ : ∃ m ∈ ridge.memories, m.id = "mem_milk" ∧ m.userId = "alice" ∧ m.hasDim 1 := by
    simp [ridge, MemoryRow.newMinimal, MemoryRow.hasDim]
  have htea : tea ∈ ridge.associations := mem_ridge_edges.mpr (.inl rfl)
  have hale : ale ∈ ridge.associations := mem_ridge_edges.mpr (.inr rfl)
  have hstrongTea : halfYear.minBridgeEdgeWeight ≤ tea.weight := by norm_num [tea, halfYear]
  have hsource : tea.sourceMemoryId ∈ fromTeaAndAle.frontier := by simp [tea, fromTeaAndAle]
  obtain ⟨lm, hlm, rfl⟩ := linkedMany_of_edge hm huser htea hsource hstrongTea hid.symm
  have hmerged : Merged halfYear ridge fromTeaAndAle lm := merged_of_linkedMany hlm
  have hread : ∀ e ∈ ridge.edgesInto fromTeaAndAle.frontier halfYear.minBridgeEdgeWeight lm.memory.id, e = tea ∨ e = ale :=
    fun e he => mem_ridge_edges.mp (mem_edgesInto.mp he).1
  have hweight : lm.linkStrength = 1 := by
    refine le_antisymm ?_ (hmerged.le_weight tea (mem_edgesInto.mpr ?_))
    · obtain ⟨e, he, hstrength⟩ := hmerged.heaviest
      rw [← hstrength]
      rcases hread e he with rfl | rfl <;> norm_num [tea, ale]
    · exact ⟨htea, by simp [tea, fromTeaAndAle], hid.symm, by norm_num [tea, halfYear]⟩
  have hlast : lm.lastCoRetrieval = some 7776000 := by
    obtain ⟨last, hsome, hle⟩ := hmerged.le_last ale
      (mem_edgesInto.mpr ⟨hale, by simp [ale, fromTeaAndAle], hid.symm, le_refl _⟩) 7776000 rfl
    obtain ⟨e, he, hlatest⟩ := hmerged.latest
    rcases hread e he with rfl | rfl
    · obtain rfl : last = 0 := Option.some.inj (hsome.symm.trans hlatest.symm)
      omega
    · exact hlatest.symm
  have hlive : liveWeight .default halfYear.now lm = Real.exp (-1) := by
    simp only [liveWeight, hlast, decayAssociationWeight, hweight, one_mul, halfYear, daysSince_ale]
    show Real.exp (-90 / 90) = _
    norm_num
  have hstrong : halfYear.minBridgeEdgeWeight ≤ liveWeight .default halfYear.now lm := by
    rw [hlive, Real.exp_neg]
    have hexp := Real.exp_one_lt_three
    show (3 / 10 : ℝ) ≤ _
    rw [le_inv_comm₀ (by norm_num) (Real.exp_pos 1)]
    linarith
  refine ⟨lm, ⟨⟨⟨ridge, [], Oracle.quiet⟩, _, rfl, hlm, run_linkedForMany ⟨rfl, fun _ _ => rfl⟩⟩, ?_, ?_⟩, hid, hlive⟩
  · simp [hid, fromTeaAndAle]
  · have hquery : lm.memory.hasDim ([1] : List ℝ).length := hdim
    obtain ⟨r, hr⟩ := expandEntry_of_live hstrong hquery
    rw [hr]
    rfl

theorem liveWeight_ridge : ∃ lm : LinkedMemory ℝ, lm.memory.id = "mem_milk" ∧
    (lm.FromOneEdge .default halfYear ridge fromTeaAndAle ↔ lm.OneCarries .default halfYear ridge fromTeaAndAle) := by
  obtain ⟨lm, hadmits, hid, -⟩ := admits_milk
  have htau : (0 : ℝ) < 90 := by norm_num
  have hmin : (0 : ℝ) ≤ 3 / 10 := by norm_num
  exact ⟨lm, hid, (liveWeight_of_edges htau hmin hadmits).2⟩

/-- Half a year on, milk is admitted, and neither edge to it would reach the threshold by itself. -/
theorem merged_edge_outlives_both : ¬ ∀ (bm25 : Bm25 ℝ) (cfg : LifecycleConfig ℝ) (queryVec : List ℝ) (o : SearchOptions ℝ)
    (userId : String) (db : Db ℝ) (x : Expansion ℝ) (lm : LinkedMemory ℝ), 0 < cfg.associationDecayConstantDays →
    0 ≤ o.minBridgeEdgeWeight → Admits bm25 cfg queryVec o userId db x lm → lm.FromOneEdge cfg o db x := by
  intro h
  obtain ⟨lm, hadmits, -, hlive⟩ := admits_milk
  have htau : (0 : ℝ) < 90 := by norm_num
  have hmin : (0 : ℝ) ≤ 3 / 10 := by norm_num
  obtain ⟨e, he, -, -, hle⟩ := h _ .default _ halfYear _ ridge fromTeaAndAle lm htau hmin hadmits
  have hone := Real.exp_pos (-1)
  rw [hlive] at hle
  rcases mem_ridge_edges.mp he with rfl | rfl
  · have hdecayed : (1 : ℝ) * Real.exp (-(daysSince 0 15552000 : ℝ) / 90) < Real.exp (-1) := by
      rw [daysSince_tea, one_mul, Real.exp_lt_exp]
      norm_num
    exact absurd hle (not_le.mpr hdecayed)
  · have hdecayed : (3 / 10 : ℝ) * Real.exp (-(daysSince 7776000 15552000 : ℝ) / 90) < Real.exp (-1) := by
      rw [daysSince_ale, show (-90 / 90 : ℝ) = -1 by norm_num]
      linarith
    exact absurd hle (not_le.mpr hdecayed)

end
end CognitiveMemory
