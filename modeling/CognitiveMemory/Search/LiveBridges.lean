import CognitiveMemory.Search.Bfs
import CognitiveMemory.Search.EdgeWeight

/-! Bridges over edges that have decayed: which paths `find_bridges` returns, and when all their
edges are still strong enough for the expansion of the same search. -/

namespace CognitiveMemory
open Prog Frontier
variable {F : Type}

def Db.between [LinearOrder F] (db : Db F) (minWeight : F) (a c : String) : Option String :=
  (targets (db.neighbors minWeight a)).find? fun b => b != a && (targets (db.neighbors minWeight b)).contains c

/-- The search goes from `a` by `b` to `c`. -/
structure Db.Bridges [LinearOrder F] (db : Db F) (minWeight : F) (a b c : String) : Prop where
  apart : a ≠ c
  unlinked : ¬ db.StoredEdge minWeight a c
  first : db.between minWeight a c = some b

section
variable {db : Db F} {minWeight : F} {a b c : String}

theorem between_eq [LinearOrder F] {before after : List String}
    (htargets : targets (db.neighbors minWeight a) = before ++ b :: after)
    (hbefore : ∀ t ∈ before, t = a ∨ ¬ Leads (db.neighbors minWeight) t c) (hne : b ≠ a)
    (hleads : Leads (db.neighbors minWeight) b c) : db.between minWeight a c = some b := by
  rw [Db.between, htargets]
  refine List.find?_eq_some_iff_append.mpr ⟨?_, before, after, rfl, fun t ht => ?_⟩
  · rw [Bool.and_eq_true, bne_iff_ne, List.contains_iff_mem]
    exact ⟨hne, hleads⟩
  · rcases hbefore t ht with rfl | hnot
    · simp
    · have hmiss : (targets (db.neighbors minWeight t)).contains c = false := by simpa [Leads] using hnot
      rw [hmiss, Bool.and_false]
      rfl

theorem leads_of_between [LinearOrder F] (h : db.between minWeight a c = some b) :
    Leads (db.neighbors minWeight) a b ∧ Leads (db.neighbors minWeight) b c := by
  have hfound := List.find?_some h
  rw [Bool.and_eq_true, List.contains_iff_mem] at hfound
  exact ⟨List.mem_of_find?_eq_some h, hfound.2⟩

/-! ## The paths the search finds -/

theorem split_singleton {α : Type} {x y : α} {l₁ l₂ : List α} (h : [x] = l₁ ++ y :: l₂) : l₁ = [] ∧ y = x := by
  cases l₁ with
  | nil => exact ⟨rfl, (List.cons.inj h).1.symm⟩
  | cons z l₁ => simp at h

theorem firstLevel_order [LinearOrder F] {visited : List String} {nodes : List (String × List String)}
    (h : Passed (db.neighbors minWeight) [(a, [a])] [a] visited nodes) {pre post : List (String × List String)}
    {u : String × List String} (hsplit : nodes = pre ++ u :: post) : u.2 = [a, u.1] ∧ u.1 ≠ a ∧
      ∃ before after, targets (db.neighbors minWeight a) = before ++ u.1 :: after ∧ ∀ t ∈ before, t = a ∨
        t ∈ pre.map Prod.fst := by
  obtain ⟨l₁, node, l₂, hfront, hpath, hnew, -, before, after, htargets, -, hbefore⟩ := h.order pre u post hsplit
  obtain ⟨-, rfl⟩ := split_singleton hfront
  refine ⟨hpath, fun heq => hnew (List.mem_singleton.mpr heq), before, after, htargets, fun t ht => ?_⟩
  exact (hbefore t ht).imp List.mem_singleton.mp id

/-- A path is an edge, or goes over a first neighbour, or over two. -/
theorem walk_cases [LinearOrder F] {p : List String} (h : db.walk minWeight a c = some p) : p = [a, c] ∨
    (∃ b, p = [a, b, c] ∧ db.Bridges minWeight a b c) ∨
    ∃ b b', p = [a, b, b', c] ∧ db.Bridges minWeight a b b' ∧ db.Bridges minWeight b b' c := by
  have hedge : ∀ {x y : String}, db.StoredEdge minWeight x y ↔ Leads (db.neighbors minWeight) x y := by
    intro x y
    rw [leads_neighbors]
  replace h : walkLevels (db.neighbors minWeight) c (0 + 1 + 1 + 1) [(a, [a])] [a] = some p := h
  rw [walkLevels] at h
  -- three levels at most, so three places where the walk can end
  cases h₀ : walkFront (db.neighbors minWeight) c [(a, [a])] [a] [] with
  | inl found =>
    rw [h₀] at h
    cases h
    obtain ⟨-, pre, node, post, hfront, rfl, -⟩ := walkFront_found h₀
    obtain ⟨-, rfl⟩ := split_singleton hfront
    exact .inl rfl
  | inr passed₁ =>
    rw [h₀] at h
    obtain ⟨visited₁, nodes₁⟩ := passed₁
    obtain ⟨-, new₁, hnodes₁, h₁⟩ := walkFront_passed h₀
    obtain rfl : nodes₁ = new₁ := hnodes₁
    have hown : a ∈ visited₁ := (h₁.seen a).mpr (.inl (List.mem_singleton_self a))
    have hnear : ∀ {x}, Leads (db.neighbors minWeight) a x → x ∈ visited₁ := fun hleads =>
      (h₁.seen _).mpr (.inr ⟨_, List.mem_singleton_self _, hleads⟩)
    -- what a front leads to is bridged by the first of its nodes that leads there
    have hbridge : ∀ {pre post : List (String × List String)} {u : String × List String} {x : String},
        nodes₁ = pre ++ u :: post → x ∉ visited₁ → Leads (db.neighbors minWeight) u.1 x →
        (∀ node ∈ pre, ¬ Leads (db.neighbors minWeight) node.1 x) → db.Bridges minWeight a u.1 x := by
      intro pre post u x hsplit hx hleads hpre
      obtain ⟨-, hne, before, after, htargets, hbefore⟩ := firstLevel_order h₁ hsplit
      refine ⟨fun heq => hx (heq ▸ hown), fun hstored => hx (hnear (hedge.mp hstored)),
        between_eq htargets (fun t ht => (hbefore t ht).imp id fun hmem => ?_) hne hleads⟩
      obtain ⟨node, hnode, rfl⟩ := List.mem_map.mp hmem
      exact hpre node hnode
    replace h : walkLevels (db.neighbors minWeight) c (0 + 1 + 1) nodes₁ visited₁ = some p := h
    rw [walkLevels] at h
    cases h₁' : walkFront (db.neighbors minWeight) c nodes₁ visited₁ [] with
    | inl found =>
      rw [h₁'] at h
      cases h
      obtain ⟨hnew, pre, node, post, hsplit, rfl, hleads, hpre⟩ := walkFront_found h₁'
      refine .inr (.inl ⟨node.1, ?_, hbridge hsplit hnew hleads hpre⟩)
      rw [(firstLevel_order h₁ hsplit).1]
      rfl
    | inr passed₂ =>
      rw [h₁'] at h
      obtain ⟨visited₂, nodes₂⟩ := passed₂
      obtain ⟨-, new₂, hnodes₂, h₂⟩ := walkFront_passed h₁'
      obtain rfl : nodes₂ = new₂ := hnodes₂
      replace h : walkLevels (db.neighbors minWeight) c (0 + 1) nodes₂ visited₂ = some p := h
      rw [walkLevels] at h
      cases h₂' : walkFront (db.neighbors minWeight) c nodes₂ visited₂ [] with
      | inr passed₃ =>
        rw [h₂'] at h
        cases h
      | inl found =>
        rw [h₂'] at h
        cases h
        obtain ⟨hnew, pre, u, post, hsplit, rfl, hleads, hpre⟩ := walkFront_found h₂'
        obtain ⟨l₁, node, l₂, hnodes, hpath, hu, hl₁, before, after, htargets, -, hbefore⟩ := h₂.order pre u post hsplit
        have hmem : node ∈ nodes₁ := by
          rw [hnodes]
          exact List.mem_append_right _ List.mem_cons_self
        have hleads₁ : Leads (db.neighbors minWeight) node.1 u.1 := by
          rw [Leads, htargets]
          exact List.mem_append_right _ List.mem_cons_self
        have hseen : ∀ x ∈ visited₁, x ∈ visited₂ := fun x hx => (h₂.seen x).mpr (.inl hx)
        -- nothing seen by the second level leads to the goal, or the walk would have ended there
        have hmiss : ∀ x ∈ visited₁, ¬ Leads (db.neighbors minWeight) x c := by
          intro x hx hleads'
          by_cases hxa : x ∈ [a]
          · rw [List.mem_singleton.mp hxa] at hleads'
            exact hnew (hseen _ (hnear hleads'))
          · obtain ⟨node', hnode', rfl⟩ := List.mem_map.mp ((h₁.nodes x).mpr ⟨hx, hxa⟩)
            exact hnew ((h₂.seen c).mpr (.inr ⟨node', hnode', hleads'⟩))
        have hnode : node.1 ∈ visited₁ := ((h₁.nodes node.1).mp (List.mem_map_of_mem hmem)).1
        refine .inr (.inr ⟨node.1, u.1, ?_, hbridge hnodes hu hleads₁ hl₁, ?_, ?_, ?_⟩)
        · rw [hpath, (firstLevel_order h₁ hnodes).1]
          rfl
        · exact fun heq => hnew (heq ▸ hseen _ hnode)
        · exact fun hstored => hmiss _ hnode (hedge.mp hstored)
        · refine between_eq htargets (fun t ht => .inr ?_) (fun heq => hu (heq ▸ hnode)) hleads
          rcases hbefore t ht with hv | hprev
          · exact hmiss t hv
          · obtain ⟨node', hnode', rfl⟩ := List.mem_map.mp hprev
            exact hpre node' hnode'

theorem walk_of_bridges [LinearOrder F] (h : db.Bridges minWeight a b c) : db.walk minWeight a c = some [a, b, c] := by
  obtain ⟨hleads, hleads'⟩ := leads_of_between h.first
  have htrail : Trail (Leads (db.neighbors minWeight)) a c [a, b, c] := ((Trail.single a).snoc hleads).snoc hleads'
  have hlevel : Level (db.neighbors minWeight) a c 0 [(a, [a])] [a] := .zero h.apart
  have hspec := walkLevels_spec 3 hlevel
  have hwalk : db.walk minWeight a c = walkLevels (db.neighbors minWeight) c 3 [(a, [a])] [a] := rfl
  rw [← hwalk] at hspec
  have hunlinked : ¬ Leads (db.neighbors minWeight) a c := by
    rw [leads_neighbors]
    exact h.unlinked
  cases hfound : db.walk minWeight a c with
  | none =>
    rw [hfound] at hspec
    exact absurd (htrail.within (n := 0 + 3) (by simp)) hspec
  | some p =>
    rw [hfound] at hspec
    obtain ⟨hp, -, -, k, hlen, hfar⟩ := hspec
    have hk : k < 2 := by
      by_contra hge
      exact hfar (htrail.within (by simpa using not_lt.mp hge))
    rcases walk_cases hfound with rfl | ⟨b', rfl, hb'⟩ | ⟨b', b'', rfl, -, -⟩
    · exact absurd (List.isChain_pair.mp hp.chain) hunlinked
    · have hsame : some b' = some b := hb'.first.symm.trans h.first
      rw [Option.some.inj hsame]
    · simp only [List.length_cons, List.length_nil] at hlen
      omega

theorem mem_walkChains {path : String → String → Option (List String)} {o : SearchOptions F} {pairs : List (String × String)}
    {chains : List (List String)} {p : List String} (h : p ∈ walkChains path o pairs chains) :
    p ∈ chains ∨ ∃ pair ∈ pairs, path pair.1 pair.2 = some p ∧ 2 < p.length := by
  induction pairs generalizing chains with
  | nil => exact .inl h
  | cons pair pairs ih =>
    obtain ⟨a, b⟩ := pair
    have hrest : ∀ {chains}, p ∈ walkChains path o pairs chains → p ∈ chains ∨
        ∃ pair ∈ (a, b) :: pairs, path pair.1 pair.2 = some p ∧ 2 < p.length := by
      intro chains hp
      refine (ih hp).imp id ?_
      rintro ⟨pair, hpair, hfound⟩
      exact ⟨pair, List.mem_cons_of_mem _ hpair, hfound⟩
    rw [walkChains] at h
    split at h
    · exact hrest h
    split at h
    · rename_i q hq
      rcases hrest h with hp | hp
      · split at hp
        · rename_i hlen
          rcases List.mem_append.mp hp with hp | hp
          · exact .inl hp
          · obtain rfl := List.mem_singleton.mp hp
            exact .inr ⟨(a, b), List.mem_cons_self, hq, hlen⟩
        · exact .inl hp
      · exact .inr hp
    · exact hrest h

end

/-! ## Live edges -/

section
variable {bm25 : Bm25 F} {cfg : LifecycleConfig F} {db : Db F} {now : Int} {minWeight : F}

variable [Field F] [LinearOrder F] [Elementary F]

/-- An edge whose weight has not decayed below the threshold. -/
def Db.LiveEdge (cfg : LifecycleConfig F) (db : Db F) (now : Int) (minWeight : F) (a b : String) : Prop :=
  ∃ e ∈ db.associations, e.sourceMemoryId = a ∧ e.targetMemoryId = b ∧ minWeight ≤ e.decayed cfg now

/-- Whatever the anchors, all steps of the paths `find_bridges` returns are live. -/
def Db.BridgesLive (bm25 : Bm25 F) (cfg : LifecycleConfig F) (db : Db F) (now : Int) (minWeight : F) : Prop :=
  ∀ (w : World F) (anchors : List String) (o : SearchOptions F) (chains : List (List String)), w.db = db → o.now = now →
    o.minBridgeEdgeWeight = minWeight → ((findBridges anchors o).run (exec bm25) w).1 = .ok chains →
    ∀ p ∈ chains, p.IsChain (db.LiveEdge cfg now minWeight)

omit [Elementary F] in
theorem run_findBridges_pair {w : World F} (hw : w.Reads db True) {o : SearchOptions F} (hon : o.bridgeDiscovery)
    (hmax : 0 < o.maxBridgePaths) {a b c : String} (h : db.Bridges o.minBridgeEdgeWeight a b c) :
    ((findBridges [a, c] o).run (exec bm25) w).1 = .ok [[a, b, c]] := by
  have hfind : (findBridges [a, c] o).wp (exec bm25) _ _ w := wp_findBridges hw
  obtain ⟨chains, hrun, hchains⟩ := wp_total hfind fun _ => not_not.mpr trivial
  have hpairs : orderedPairs ([a, c].take 3) = [(a, c)] := rfl
  have hnone : ¬ o.maxBridgePaths ≤ ([] : List (List String)).length := not_le.mpr hmax
  rw [hrun, hchains, hon, hpairs, walkChains, if_neg hnone, walk_of_bridges h]
  rfl

/-- The bridges are live just when each step of the two-step ones is. -/
theorem bridgesLive_iff : db.BridgesLive bm25 cfg now minWeight ↔
    ∀ a b c, db.Bridges minWeight a b c → db.LiveEdge cfg now minWeight a b ∧ db.LiveEdge cfg now minWeight b c := by
  constructor
  · intro h a b c hbridge
    let o : SearchOptions F := ⟨1, false, "", "", now, false, none, 0, minWeight, true, 1⟩
    let w : World F := ⟨db, [], Oracle.quiet⟩
    have hrun : ((findBridges [a, c] o).run (exec bm25) w).1 = .ok [[a, b, c]] :=
      run_findBridges_pair ⟨rfl, fun _ _ => rfl⟩ rfl Nat.one_pos hbridge
    have hchain := h w [a, c] o _ rfl rfl rfl hrun [a, b, c] (List.mem_singleton_self _)
    obtain ⟨hab, hbc⟩ := List.isChain_cons_cons.mp hchain
    exact ⟨hab, List.isChain_pair.mp hbc⟩
  · intro h w anchors o chains hdb hnow hmin hrun p hp
    have hw : w.Reads db False := ⟨hdb, False.elim⟩
    have hchains := wp_ok (wp_findBridges hw) hrun
    rw [hchains] at hp
    split at hp
    · cases hp
    rcases mem_walkChains hp with hp | ⟨pair, -, hwalk, hlen⟩
    · cases hp
    rw [hmin] at hwalk
    rcases walk_cases hwalk with rfl | ⟨b, rfl, hb⟩ | ⟨b, b', rfl, hb, hb'⟩
    · exact absurd hlen (by simp)
    · obtain ⟨hab, hbc⟩ := h _ _ _ hb
      exact .cons_cons hab (List.isChain_pair.mpr hbc)
    · -- three steps are two pairs of steps, each found by itself
      obtain ⟨hab, -⟩ := h _ _ _ hb
      obtain ⟨hbb, hbc⟩ := h _ _ _ hb'
      exact .cons_cons hab (.cons_cons hbb (List.isChain_pair.mpr hbc))

end

/-! ### A bridge half a year old -/

noncomputable def oldBridge : Db ℝ :=
  { Db.empty with
    associations := [⟨"mem_tea", "mem_milk", 3 / 10, "explicit", 0, some 0⟩,
      ⟨"mem_milk", "mem_sugar", 3 / 10, "explicit", 0, some 0⟩] }

theorem oldBridge_bridges : oldBridge.Bridges (3 / 10) "mem_tea" "mem_milk" "mem_sugar" := by
  have htea : targets (oldBridge.neighbors (3 / 10) "mem_tea") = ["mem_milk"] := by
    simp [targets, Db.neighbors, oldBridge, sortDesc, byTarget, NeighborEdge.ofRow]
  have htea' : targets (oldBridge.neighbors (3 / 10) "mem_tea") = [] ++ "mem_milk" :: [] := htea
  have hmilk : targets (oldBridge.neighbors (3 / 10) "mem_milk") = ["mem_sugar"] := by
    simp [targets, Db.neighbors, oldBridge, sortDesc, byTarget, NeighborEdge.ofRow]
  refine ⟨by decide, ?_, between_eq htea' (by simp) (by decide) ?_⟩
  · rintro ⟨e, he, hsource, htarget, -⟩
    simp only [oldBridge, List.mem_cons, List.not_mem_nil, or_false] at he
    rcases he with rfl | rfl
    · exact absurd htarget (by decide)
    · exact absurd hsource (by decide)
  · rw [Leads, hmilk]
    exact List.mem_singleton_self _

/-- The two edges make a bridge when neither would be followed any more. -/
theorem faded_edges_bridge : ¬ ∀ (bm25 : Bm25 ℝ) (cfg : LifecycleConfig ℝ) (db : Db ℝ) (now : Int) (minWeight : ℝ),
    db.BridgesLive bm25 cfg now minWeight := by
  intro h
  let o : SearchOptions ℝ := ⟨5, false, "flat", "flat-1", 15552000, false, none, 1, 3 / 10, true, 3⟩
  have hrun : ((findBridges ["mem_tea", "mem_sugar"] o).run (exec fun _ _ _ => none) ⟨oldBridge, [], Oracle.quiet⟩).1 =
      .ok [["mem_tea", "mem_milk", "mem_sugar"]] :=
    run_findBridges_pair ⟨rfl, fun _ _ => rfl⟩ rfl (by decide) oldBridge_bridges
  have hlive := h _ .default oldBridge 15552000 (3 / 10) _ _ o _ rfl rfl rfl hrun _ (List.mem_singleton_self _)
  obtain ⟨e, he, -, -, hweight⟩ := (List.isChain_cons_cons.mp hlive).1
  have hdecayed : e.decayed .default 15552000 = 3 / 10 * Real.exp (-(daysSince 0 15552000 : ℝ) / 90) := by
    simp only [oldBridge, List.mem_cons, List.not_mem_nil, or_false] at he
    rcases he with rfl | rfl <;> rfl
  have hfaded : Real.exp (-(daysSince 0 15552000 : ℝ) / 90) < 1 := by
    rw [daysSince_tea, Real.exp_lt_one_iff]
    norm_num
  rw [hdecayed] at hweight
  linarith

end CognitiveMemory
