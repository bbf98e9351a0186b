import CognitiveMemory.Search.Bridges

/-! `bfs_path`: the loop over its queue ends, does what the search by levels does, and finds the
shortest paths along strong edges. -/

namespace CognitiveMemory
open Prog Frontier
variable {F : Type}

/-- The loop of `bfs_path` with its queue: a path longer than `max_depth` is skipped, and a fresh
neighbour goes to the back. The outer `none` is a loop that was stopped. -/
def bfsQueue (goal : String) (maxDepth : ℕ) (minWeight : F) :
    ℕ → List (String × List String) → List String → Repo F (Option (Option (List String)))
  | _, [], _ => Pure.pure (some none)
  | 0, _ :: _, _ => Pure.pure none
  | fuel + 1, (current, path) :: queue, visited =>
    if maxDepth < path.length then bfsQueue goal maxDepth minWeight fuel queue visited
    else do
      let edges ← query (.edgesFrom current minWeight)
      match visitNeighbors goal path edges visited queue with
      | .inl found => Pure.pure (some (some found))
      | .inr (visited, queue) => bfsQueue goal maxDepth minWeight fuel queue visited

/-! ## Looking at neighbours -/

def fresh : List String → List String → List String
  | _, [] => []
  | visited, t :: ts => if t ∈ visited then fresh visited ts else t :: fresh (t :: visited) ts

theorem mem_fresh {visited ts : List String} {x : String} : x ∈ fresh visited ts ↔ x ∈ ts ∧ x ∉ visited := by
  induction ts generalizing visited with
  | nil => simp [fresh]
  | cons t ts ih =>
    rw [fresh]
    split
    · rename_i ht
      rw [ih, List.mem_cons]
      constructor
      · exact fun h => ⟨.inr h.1, h.2⟩
      · rintro ⟨rfl | h, hx⟩
        · exact absurd ht hx
        · exact ⟨h, hx⟩
    · rename_i ht
      rw [List.mem_cons, ih, List.mem_cons, List.mem_cons, not_or]
      by_cases hxt : x = t
      · subst hxt
        exact iff_of_true (.inl rfl) ⟨.inl rfl, ht⟩
      · simp [hxt]

theorem fresh_nodup (visited ts : List String) : (fresh visited ts).Nodup := by
  induction ts generalizing visited with
  | nil => exact List.nodup_nil
  | cons t ts ih =>
    rw [fresh]
    split
    · exact ih visited
    · refine List.nodup_cons.mpr ⟨fun ht => ?_, ih _⟩
      exact (mem_fresh.mp ht).2 List.mem_cons_self

theorem fresh_split {visited ts pre post : List String} {u : String} (h : fresh visited ts = pre ++ u :: post) :
    ∃ before after, ts = before ++ u :: after ∧ u ∉ before ∧ ∀ t ∈ before, t ∈ visited ∨ t ∈ pre := by
  induction ts generalizing visited pre with
  | nil => simp [fresh] at h
  | cons t ts ih =>
    rw [fresh] at h
    split at h
    · rename_i ht
      have hu : u ∉ visited := (mem_fresh.mp (h ▸ List.mem_append_right _ List.mem_cons_self)).2
      obtain ⟨before, after, rfl, hub, hall⟩ := ih h
      refine ⟨t :: before, after, rfl, fun hmem => ?_, List.forall_mem_cons.mpr ⟨.inl ht, hall⟩⟩
      rcases List.mem_cons.mp hmem with rfl | hmem
      · exact hu ht
      · exact hub hmem
    · cases pre with
      | nil =>
        obtain ⟨rfl, -⟩ := List.cons.inj h
        exact ⟨[], ts, rfl, List.not_mem_nil, by simp⟩
      | cons p pre =>
        obtain ⟨rfl, hrest⟩ := List.cons.inj h
        have hfresh : u ∈ fresh (t :: visited) ts := by
          rw [hrest]
          exact List.mem_append_right pre List.mem_cons_self
        have hu : u ∉ t :: visited := (mem_fresh.mp hfresh).2
        obtain ⟨before, after, rfl, hub, hall⟩ := ih hrest
        refine ⟨t :: before, after, rfl, fun hmem => ?_, List.forall_mem_cons.mpr ⟨.inr List.mem_cons_self, fun t' ht' => ?_⟩⟩
        · rcases List.mem_cons.mp hmem with rfl | hmem
          · exact hu List.mem_cons_self
          · exact hub hmem
        · rcases hall t' ht' with hv | hp
          · rcases List.mem_cons.mp hv with rfl | hv
            · exact .inr List.mem_cons_self
            · exact .inl hv
          · exact .inr (List.mem_cons_of_mem _ hp)

def targets (es : List (NeighborEdge F)) : List String := es.map NeighborEdge.targetId

/-- The goal is found among the fresh targets, or they all go to the back. -/
theorem visitNeighbors_eq (goal : String) (path : List String) (es : List (NeighborEdge F)) (visited : List String)
    (back : List (String × List String)) : visitNeighbors goal path es visited back =
      if goal ∈ fresh visited (targets es) then .inl (path ++ [goal])
      else .inr ((fresh visited (targets es)).reverse ++ visited,
        back ++ (fresh visited (targets es)).map fun t => (t, path ++ [t])) := by
  induction es generalizing visited back with
  | nil => simp [visitNeighbors, targets, fresh]
  | cons e es ih =>
    have hcons : targets (e :: es) = e.targetId :: targets es := rfl
    rw [visitNeighbors, hcons, fresh]
    by_cases hv : e.targetId ∈ visited
    · rw [if_pos (by simpa using hv), if_pos hv]
      exact ih visited back
    rw [if_neg (by simpa using hv), if_neg hv]
    by_cases hg : e.targetId = goal
    · rw [if_pos hg, if_pos (hg ▸ List.mem_cons_self), hg]
    rw [if_neg hg, ih]
    have hmem : goal ∈ e.targetId :: fresh (e.targetId :: visited) (targets es) ↔
        goal ∈ fresh (e.targetId :: visited) (targets es) := by
      rw [List.mem_cons]
      exact or_iff_right (Ne.symm hg)
    by_cases hfound : goal ∈ fresh (e.targetId :: visited) (targets es)
    · rw [if_pos hfound, if_pos (hmem.mpr hfound)]
    · rw [if_neg hfound, if_neg fun h => hfound (hmem.mp h)]
      simp

/-! ## The queue -/

section
variable (edges : String → List (NeighborEdge F)) (goal : String) (maxDepth : ℕ)

/-- `bfsQueue` over known edges. -/
def walkQueue : ℕ → List (String × List String) → List String → Option (Option (List String))
  | _, [], _ => some none
  | 0, _ :: _, _ => none
  | fuel + 1, (current, path) :: queue, visited =>
    if maxDepth < path.length then walkQueue fuel queue visited
    else match visitNeighbors goal path (edges current) visited queue with
      | .inl found => some (some found)
      | .inr (visited, queue) => walkQueue fuel queue visited

end

section
variable {bm25 : Bm25 F} {db : Db F} {calm : Prop} {w : World F}

theorem wp_bfsQueue [Field F] [LinearOrder F] {goal : String} {maxDepth : ℕ} {minWeight : F} (fuel : ℕ)
    (queue : List (String × List String))
    (visited : List String) (h : w.Reads db calm) : (bfsQueue goal maxDepth minWeight fuel queue visited).wp (exec bm25)
      (fun r w' => r = walkQueue (db.neighbors minWeight) goal maxDepth fuel queue visited ∧ w'.Reads db calm)
      (fun _ => ¬ calm) w := by
  induction fuel generalizing queue visited w with
  | zero =>
    cases queue with
    | nil => exact ⟨rfl, h⟩
    | cons node queue => exact ⟨rfl, h⟩
  | succ fuel ih =>
    cases queue with
    | nil => exact ⟨rfl, h⟩
    | cons node queue =>
      obtain ⟨current, path⟩ := node
      rw [bfsQueue, walkQueue]
      split
      · exact ih queue visited h
      let q : Query F := .edgesFrom current minWeight
      refine wp.seq (wp_query (q := q) h rfl) ?_
      rintro edges w' ⟨rfl, hw'⟩
      show (match visitNeighbors goal path (db.neighbors minWeight current) visited queue with
        | .inl found => _
        | .inr (visited, queue) => _ : Repo F _).wp _ _ _ _
      split
      · exact ⟨rfl, hw'⟩
      · exact ih _ _ hw'

end

section
variable {edges : String → List (NeighborEdge F)} {goal : String} {maxDepth fuel : ℕ} {queue : List (String × List String)}
  {visited nodes : List String}

theorem fresh_le_unvisited (visited : List String) (hU : nodes.Nodup) {ts : List String} (hts : ∀ t ∈ ts, t ∈ nodes) :
    (fresh visited ts).length + (nodes.filter fun t => decide (t ∉ (fresh visited ts).reverse ++ visited)).length ≤
      (nodes.filter fun t => decide (t ∉ visited)).length := by
  have hapart : (fresh visited ts).Disjoint (nodes.filter fun t => decide (t ∉ (fresh visited ts).reverse ++ visited)) := by
    intro t ht hrest
    have hnot := of_decide_eq_true (List.mem_filter.mp hrest).2
    exact hnot (List.mem_append_left _ (List.mem_reverse.mpr ht))
  have hnodup := (fresh_nodup visited ts).append (hU.filter _) hapart
  rw [← List.length_append]
  refine (List.subperm_of_subset hnodup fun t ht => ?_).length_le
  rcases List.mem_append.mp ht with ht | ht
  · obtain ⟨hmem, hnew⟩ := mem_fresh.mp ht
    exact List.mem_filter.mpr ⟨hts t hmem, decide_eq_true hnew⟩
  · obtain ⟨hmem, hnew⟩ := List.mem_filter.mp ht
    refine List.mem_filter.mpr ⟨hmem, decide_eq_true fun hv => ?_⟩
    exact of_decide_eq_true hnew (List.mem_append_right _ hv)

theorem walkQueue_isSome (hU : nodes.Nodup) (hedges : ∀ id, ∀ t ∈ targets (edges id), t ∈ nodes)
    (h : queue.length + (nodes.filter fun t => decide (t ∉ visited)).length ≤ fuel) :
    (walkQueue edges goal maxDepth fuel queue visited).isSome := by
  induction fuel generalizing queue visited with
  | zero =>
    cases queue with
    | nil => rfl
    | cons node queue => simp at h
  | succ fuel ih =>
    cases queue with
    | nil => rfl
    | cons node queue =>
      obtain ⟨current, path⟩ := node
      rw [List.length_cons] at h
      rw [walkQueue]
      split
      · exact ih (by omega)
      rw [visitNeighbors_eq]
      split
      · rename_i heq
        split at heq <;> cases heq
        rfl
      · rename_i heq
        split at heq <;> cases heq
        have hpushed := fresh_le_unvisited visited hU (hedges current)
        refine ih ?_
        rw [List.length_append, List.length_map]
        omega

/-- The front of the queue is worked off before what it puts behind. -/
theorem walkQueue_front {front : List (String × List String)} (back : List (String × List String))
    (hfront : ∀ node ∈ front, node.2.length ≤ maxDepth)
    {r : Option (List String)} (h : walkQueue edges goal maxDepth fuel (front ++ back) visited = some r) :
    match walkFront edges goal front visited back with
    | .inl found => r = some found
    | .inr (visited, back) => ∃ fuel', walkQueue edges goal maxDepth fuel' back visited = some r := by
  induction front generalizing fuel visited back with
  | nil => exact ⟨fuel, h⟩
  | cons node front ih =>
    obtain ⟨current, path⟩ := node
    obtain ⟨hpath, hfront⟩ := List.forall_mem_cons.mp hfront
    cases fuel with
    | zero => cases h
    | succ fuel =>
      rw [List.cons_append, walkQueue, if_neg (not_lt.mpr hpath), visitNeighbors_eq] at h
      rw [walkFront, visitNeighbors_eq]
      by_cases hfound : goal ∈ fresh visited (targets (edges current))
      · rw [if_pos hfound] at h ⊢
        exact (Option.some.inj h).symm
      · rw [if_neg hfound] at h ⊢
        rw [List.append_assoc] at h
        exact ih _ hfront h

theorem walkQueue_skip (hqueue : ∀ node ∈ queue, maxDepth < node.2.length) {r : Option (List String)}
    (h : walkQueue edges goal maxDepth fuel queue visited = some r) : r = none := by
  induction queue generalizing fuel with
  | nil =>
    cases fuel with
    | zero => exact (Option.some.inj h).symm
    | succ fuel => exact (Option.some.inj h).symm
  | cons node queue ih =>
    obtain ⟨hnode, hrest⟩ := List.forall_mem_cons.mp hqueue
    cases fuel with
    | zero => cases h
    | succ fuel =>
      obtain ⟨current, path⟩ := node
      rw [walkQueue, if_pos hnode] at h
      exact ih hrest h

end

/-! ## Levels -/

def Leads (edges : String → List (NeighborEdge F)) (a b : String) : Prop := b ∈ targets (edges a)

section
variable {edges : String → List (NeighborEdge F)} {start goal : String} {n : ℕ} {front back : List (String × List String)}
  {visited : List String}

/-- The first node of the front that leads to the goal ends the search. -/
theorem walkFront_found {found : List String} (h : walkFront edges goal front visited back = .inl found) :
    goal ∉ visited ∧ ∃ pre node post, front = pre ++ node :: post ∧ found = node.2 ++ [goal] ∧ Leads edges node.1 goal ∧
      ∀ node' ∈ pre, ¬ Leads edges node'.1 goal := by
  induction front generalizing visited back with
  | nil => cases h
  | cons node front ih =>
    obtain ⟨current, path⟩ := node
    rw [walkFront, visitNeighbors_eq] at h
    by_cases hfound : goal ∈ fresh visited (targets (edges current))
    · rw [if_pos hfound] at h
      cases h
      obtain ⟨hleads, hnew⟩ := mem_fresh.mp hfound
      exact ⟨hnew, [], (current, path), front, rfl, rfl, hleads, by simp⟩
    · rw [if_neg hfound] at h
      obtain ⟨hnew, pre, node, post, rfl, hpath, hleads, hpre⟩ := ih h
      have hgoal : goal ∉ visited := fun hv => hnew (List.mem_append_right _ hv)
      refine ⟨hgoal, (current, path) :: pre, node, post, rfl, hpath, hleads, List.forall_mem_cons.mpr ⟨fun hl => ?_, hpre⟩⟩
      exact hfound (mem_fresh.mpr ⟨hl, hgoal⟩)

/-- What a front that does not lead to the goal leaves: its targets are visited, and the new ones stand
at the back, each behind the first node that leads to it. -/
structure Passed (edges : String → List (NeighborEdge F)) (front : List (String × List String))
    (visited visited' : List String) (new : List (String × List String)) : Prop where
  seen : ∀ x, x ∈ visited' ↔ x ∈ visited ∨ ∃ node ∈ front, Leads edges node.1 x
  nodes : ∀ x, x ∈ new.map Prod.fst ↔ x ∈ visited' ∧ x ∉ visited
  order : ∀ pre u post, new = pre ++ u :: post → ∃ l₁ node l₂, front = l₁ ++ node :: l₂ ∧ u.2 = node.2 ++ [u.1] ∧
    u.1 ∉ visited ∧ (∀ node' ∈ l₁, ¬ Leads edges node'.1 u.1) ∧ ∃ before after, targets (edges node.1) = before ++ u.1 :: after ∧
      u.1 ∉ before ∧ ∀ t ∈ before, t ∈ visited ∨ t ∈ pre.map Prod.fst

theorem walkFront_passed {visited' : List String} {back' : List (String × List String)}
    (h : walkFront edges goal front visited back = .inr (visited', back')) :
    (goal ∉ visited → goal ∉ visited') ∧ ∃ new, back' = back ++ new ∧ Passed edges front visited visited' new := by
  induction front generalizing visited back with
  | nil =>
    obtain ⟨rfl, rfl⟩ : visited = visited' ∧ back = back' := by
      rw [walkFront] at h
      exact Prod.ext_iff.mp (Sum.inr.inj h)
    exact ⟨id, [], (List.append_nil _).symm, by simp, by simp, by simp⟩
  | cons node front ih =>
    obtain ⟨current, path⟩ := node
    rw [walkFront, visitNeighbors_eq] at h
    by_cases hfound : goal ∈ fresh visited (targets (edges current))
    · rw [if_pos hfound] at h
      cases h
    rw [if_neg hfound] at h
    obtain ⟨hgoal, new, rfl, hpassed⟩ := ih h
    let firsts := (fresh visited (targets (edges current))).map fun t => (t, path ++ [t])
    have hfirsts : ∀ x, x ∈ firsts.map Prod.fst ↔ Leads edges current x ∧ x ∉ visited := by
      intro x
      rw [List.map_map]
      exact (by simp [Function.comp_def] : x ∈ _ ↔ x ∈ fresh visited (targets (edges current))).trans mem_fresh
    have hhead : ∀ x, (∃ node ∈ (current, path) :: front, Leads edges node.1 x) ↔
        Leads edges current x ∨ ∃ node ∈ front, Leads edges node.1 x := fun x => by simp
    have hseen : ∀ x, x ∈ (fresh visited (targets (edges current))).reverse ++ visited ↔ x ∈ visited ∨ Leads edges current x := by
      intro x
      rw [List.mem_append, List.mem_reverse, mem_fresh]
      show (Leads edges current x ∧ x ∉ visited) ∨ x ∈ visited ↔ _
      tauto
    have hvisited : ∀ x, x ∈ visited' ↔ x ∈ visited ∨ ∃ node ∈ (current, path) :: front, Leads edges node.1 x := by
      intro x
      rw [hpassed.seen, hseen, hhead, or_assoc]
    refine ⟨fun hnew => hgoal fun hmem => ?_, firsts ++ new, by rw [List.append_assoc], hvisited, fun x => ?_, ?_⟩
    · rcases List.mem_append.mp hmem with hmem | hmem
      · exact hfound (List.mem_reverse.mp hmem)
      · exact hnew hmem
    · rw [List.map_append, List.mem_append, hfirsts, hpassed.nodes, hvisited, hseen, hhead]
      tauto
    · intro pre u post hsplit
      -- the node comes from the first of the front, or from the rest of it
      have hcases : (∃ rest, pre = firsts ++ rest ∧ new = rest ++ u :: post) ∨ ∃ rest, firsts = pre ++ u :: rest := by
        rcases List.append_eq_append_iff.mp hsplit with ⟨rest, hpre, hnew⟩ | ⟨rest, hfirst, hpost⟩
        · exact .inl ⟨rest, hpre, hnew⟩
        · cases rest with
          | nil => exact .inl ⟨[], by rw [hfirst, List.append_nil, List.append_nil], hpost.symm⟩
          | cons u' rest =>
            obtain ⟨rfl, -⟩ := List.cons.inj hpost
            exact .inr ⟨rest, hfirst⟩
      rcases hcases with ⟨rest, rfl, hnew⟩ | ⟨rest, hfirst⟩
      · obtain ⟨l₁, node, l₂, rfl, hpath, hu, hl₁, before, after, htargets, hub, hbefore⟩ := hpassed.order rest u post hnew
        have hu' : u.1 ∉ visited ∧ ¬ Leads edges current u.1 := by
          refine ⟨fun hv => hu (List.mem_append_right _ hv), fun hleads => ?_⟩
          by_cases hv : u.1 ∈ visited
          · exact hu (List.mem_append_right _ hv)
          · exact hu (List.mem_append_left _ (List.mem_reverse.mpr (mem_fresh.mpr ⟨hleads, hv⟩)))
        refine ⟨(current, path) :: l₁, node, l₂, rfl, hpath, hu'.1, List.forall_mem_cons.mpr ⟨hu'.2, hl₁⟩, before,
            after, htargets,
          hub, fun t ht => ?_⟩
        rw [List.map_append, List.mem_append, hfirsts]
        rcases hbefore t ht with hv | hrest
        · rcases List.mem_append.mp hv with hv | hv
          · exact .inr (.inl (mem_fresh.mp (List.mem_reverse.mp hv)))
          · exact .inl hv
        · exact .inr (.inr hrest)
      · obtain ⟨pre', tail, hfresh, rfl, htail⟩ := List.map_eq_append_iff.mp hfirst
        obtain ⟨t, post', rfl, rfl, -⟩ := List.map_eq_cons_iff.mp htail
        obtain ⟨before, after, htargets, hub, hbefore⟩ := fresh_split hfresh
        have hmem : t ∈ fresh visited (targets (edges current)) := by
          rw [hfresh]
          exact List.mem_append_right _ List.mem_cons_self
        refine ⟨[], (current, path), front, rfl, rfl, (mem_fresh.mp hmem).2, by simp, before, after, htargets, hub,
            fun t' ht' => ?_⟩
        rw [List.map_map]
        simpa [Function.comp_def] using hbefore t' ht'

/-- After `n` levels the visited nodes are those within `n` steps, and the front holds shortest paths to
those that are no nearer. -/
structure Level (edges : String → List (NeighborEdge F)) (start goal : String) (n : ℕ) (front : List (String × List String))
    (visited : List String) : Prop where
  seen : ∀ x, x ∈ visited ↔ Within (Leads edges) n start x
  reached : ∀ x ∈ visited, (∀ k < n, ¬ Within (Leads edges) k start x) → ∃ node ∈ front, node.1 = x
  path : ∀ node ∈ front, Trail (Leads edges) start node.1 node.2 ∧ node.2.Nodup ∧ node.2.length = n + 1 ∧
    ∀ x ∈ node.2, x ∈ visited
  goal : goal ∉ visited

theorem Level.zero (hne : start ≠ goal) : Level edges start goal 0 [(start, [start])] [start] := by
  have hwithin : ∀ x, Within (Leads edges) 0 start x ↔ x = start := by
    intro x
    constructor
    · rintro ⟨⟩
      rfl
    · rintro rfl
      exact .refl 0 x
  refine ⟨fun x => by rw [hwithin, List.mem_singleton], fun x hx _ => ?_, fun node hnode => ?_, ?_⟩
  · exact ⟨_, List.mem_singleton_self _, (List.mem_singleton.mp hx).symm⟩
  · rw [List.mem_singleton.mp hnode]
    exact ⟨.single start, List.nodup_singleton start, rfl, fun x hx => hx⟩
  · exact fun hmem => hne (List.mem_singleton.mp hmem).symm

theorem Level.succ {visited' : List String} (h : Level edges start goal n front visited)
    (hrun : walkFront edges goal front visited [] = .inr (visited', back)) : Level edges start goal (n + 1) back visited' := by
  obtain ⟨hgoal, new, rfl, hpassed⟩ := walkFront_passed hrun
  have hreached : ∀ node ∈ front, Within (Leads edges) n start node.1 := by
    intro node hnode
    obtain ⟨hpath, -, hlen, -⟩ := h.path node hnode
    exact hpath.within hlen.le
  refine ⟨fun x => ?_, fun x hx hfar => ?_, fun u hu => ?_, hgoal h.goal⟩
  · rw [hpassed.seen, within_succ_iff, h.seen]
    constructor
    · rintro (hx | ⟨node, hnode, hleads⟩)
      · exact .inl hx
      · exact .inr ⟨node.1, hreached node hnode, hleads⟩
    · rintro (hx | ⟨y, hy, hleads⟩)
      · exact .inl hx
      by_cases hnear : ∃ k < n, Within (Leads edges) k start y
      · -- a nearer node has been left behind, and its targets with it
        obtain ⟨k, hk, hy⟩ := hnear
        exact .inl ((within_succ_iff.mpr (.inr ⟨y, hy, hleads⟩)).mono hk)
      · obtain ⟨node, hnode, rfl⟩ := h.reached y ((h.seen y).mpr hy) fun k hk hyk => hnear ⟨k, hk, hyk⟩
        exact .inr ⟨node, hnode, hleads⟩
  · have hnew : x ∉ visited := fun hv => hfar n (Nat.lt_succ_self n) ((h.seen x).mp hv)
    obtain ⟨u, hu, rfl⟩ := List.mem_map.mp ((hpassed.nodes x).mpr ⟨hx, hnew⟩)
    exact ⟨u, hu, rfl⟩
  · obtain ⟨pre, post, hsplit⟩ := List.append_of_mem hu
    obtain ⟨l₁, node, l₂, rfl, hpath, hfresh, -, before, after, htargets, -, -⟩ := hpassed.order pre u post hsplit
    obtain ⟨hnode, hnodup, hlen, hall⟩ := h.path node (List.mem_append_right _ List.mem_cons_self)
    have hleads : Leads edges node.1 u.1 := by
      rw [Leads, htargets]
      exact List.mem_append_right _ List.mem_cons_self
    rw [hpath]
    refine ⟨hnode.snoc hleads, ?_, by rw [List.length_append, hlen]; rfl, fun x hx => ?_⟩
    · exact hnodup.append (List.nodup_singleton _) (List.disjoint_singleton.mpr fun hmem => hfresh (hall _ hmem))
    · rw [hpassed.seen]
      rcases List.mem_append.mp hx with hx | hx
      · exact .inl (hall x hx)
      · rw [List.mem_singleton.mp hx]
        exact .inr ⟨node, List.mem_append_right _ List.mem_cons_self, hleads⟩

/-- The search by levels finds a shortest path, or there is none of so many steps. -/
theorem walkLevels_spec (depth : ℕ) (h : Level edges start goal n front visited) :
    match walkLevels edges goal depth front visited with
    | some p => Trail (Leads edges) start goal p ∧ p.Nodup ∧ p.length ≤ n + depth + 1 ∧
        ∃ k, p.length = k + 2 ∧ ¬ Within (Leads edges) k start goal
    | none => ¬ Within (Leads edges) (n + depth) start goal := by
  induction depth generalizing n front visited with
  | zero => exact fun hnear => h.goal ((h.seen goal).mpr hnear)
  | succ depth ih =>
    rw [walkLevels]
    cases hrun : walkFront edges goal front visited [] with
    | inl found =>
      obtain ⟨-, pre, node, post, rfl, rfl, hleads, -⟩ := walkFront_found hrun
      obtain ⟨hnode, hnodup, hlen, hall⟩ := h.path node (List.mem_append_right _ List.mem_cons_self)
      refine ⟨hnode.snoc hleads, ?_, ?_, n, by rw [List.length_append, hlen]; rfl, fun hnear => h.goal ((h.seen goal).mpr hnear)⟩
      · exact hnodup.append (List.nodup_singleton _) (List.disjoint_singleton.mpr fun hmem => h.goal (hall _ hmem))
      · rw [List.length_append, hlen, List.length_singleton]
        omega
    | inr passed =>
      have hlevel : Level edges start goal (n + 1) passed.2 passed.1 := h.succ hrun
      have hnext := ih hlevel
      have hsteps : n + 1 + depth = n + (depth + 1) := by omega
      rwa [hsteps] at hnext

theorem walkQueue_levels {maxDepth fuel depth : ℕ} (h : Level edges start goal n front visited)
    (hdepth : n + depth = maxDepth)
    {r : Option (List String)} (hrun : walkQueue edges goal maxDepth fuel front visited = some r) :
    r = walkLevels edges goal depth front visited := by
  induction depth generalizing n front visited fuel with
  | zero =>
    refine walkQueue_skip (fun node hnode => ?_) hrun
    rw [(h.path node hnode).2.2.1]
    omega
  | succ depth ih =>
    have hfront : ∀ node ∈ front, node.2.length ≤ maxDepth := by
      intro node hnode
      rw [(h.path node hnode).2.2.1]
      omega
    have hpassed := walkQueue_front [] hfront (by rwa [List.append_nil])
    rw [walkLevels]
    cases hwalk : walkFront edges goal front visited [] with
    | inl found =>
      rw [hwalk] at hpassed
      exact hpassed
    | inr passed =>
      rw [hwalk] at hpassed
      obtain ⟨fuel', hrest⟩ := hpassed
      exact ih (h.succ hwalk) (by omega) hrest

end

/-! ## `bfs_path` -/

variable [Field F] [LinearOrder F]

/-- An edge of at least this stored weight. -/
def Db.StoredEdge (db : Db F) (minWeight : F) (a b : String) : Prop :=
  ∃ e ∈ db.associations, e.sourceMemoryId = a ∧ e.targetMemoryId = b ∧ minWeight ≤ e.weight

section
variable {bm25 : Bm25 F} {db : Db F} {w : World F} {start goal : String} {minWeight : F} {maxDepth fuel : ℕ}

omit [Field F] in
theorem leads_neighbors : Leads (db.neighbors minWeight) = db.StoredEdge minWeight := by
  have hkept : ∀ (e : AssociationRow F) (a : String), (e.sourceMemoryId == a && decide (minWeight ≤ e.weight)) = true ↔
      e.sourceMemoryId = a ∧ minWeight ≤ e.weight := fun e a => by simp
  funext a b
  refine propext ?_
  constructor
  · intro hleads
    obtain ⟨g, hg, rfl⟩ := List.mem_map.mp hleads
    obtain ⟨e, he, rfl⟩ := List.mem_map.mp hg
    obtain ⟨hmem, hkeep⟩ := List.mem_filter.mp (mem_byTarget.mp (mem_sortDesc.mp he))
    obtain ⟨hsource, hweight⟩ := (hkept e a).mp hkeep
    exact ⟨e, hmem, hsource, rfl, hweight⟩
  · rintro ⟨e, he, hsource, rfl, hweight⟩
    have hmem : e ∈ db.associations.filter fun e => e.sourceMemoryId == a && decide (minWeight ≤ e.weight) :=
      List.mem_filter.mpr ⟨he, (hkept e a).mpr ⟨hsource, hweight⟩⟩
    exact List.mem_map.mpr ⟨_, List.mem_map_of_mem (mem_sortDesc.mpr (mem_byTarget.mpr hmem)), rfl⟩

/-- `bfs_path` ends, and finds a shortest simple path along strong edges if there is one that is not
too long. -/
theorem bfsPath_correct (hne : start ≠ goal) (hfuel : w.db.associations.length < fuel) : ∃ p : Option (List String),
    (∀ r, ((bfsQueue goal maxDepth minWeight fuel [(start, [start])] [start]).run (exec bm25) w).1 = .ok r → r = some p) ∧
    (∀ r, ((bfsPath start goal maxDepth minWeight).run (exec bm25) w).1 = .ok r → r = p) ∧
    ((∀ n, w.oracle.sqlFault n = false) →
      ((bfsQueue goal maxDepth minWeight fuel [(start, [start])] [start]).run (exec bm25) w).1 = .ok (some p) ∧
      ((bfsPath start goal maxDepth minWeight).run (exec bm25) w).1 = .ok p) ∧
    (p.isSome ↔ ∃ q, Trail (w.db.StoredEdge minWeight) start goal q ∧ q.length ≤ maxDepth + 1) ∧
    ∀ q, p = some q → Trail (w.db.StoredEdge minWeight) start goal q ∧ q.Nodup ∧
      ∀ q', Trail (w.db.StoredEdge minWeight) start goal q' → q.length ≤ q'.length := by
  let edges := w.db.neighbors minWeight
  let nodes := (w.db.associations.map AssociationRow.targetMemoryId).dedup
  have hlevel : Level edges start goal 0 [(start, [start])] [start] := .zero hne
  have hspec := walkLevels_spec maxDepth hlevel
  have hedges : ∀ id, ∀ t ∈ targets (edges id), t ∈ nodes := by
    intro id t ht
    have hstrong : w.db.StoredEdge minWeight id t := by
      rw [← leads_neighbors]
      exact ht
    obtain ⟨e, he, -, htarget, -⟩ := hstrong
    exact List.mem_dedup.mpr (List.mem_map.mpr ⟨e, he, htarget⟩)
  -- every turn of the queue takes a node off it, and only targets of edges are put on it
  have hends : (walkQueue edges goal maxDepth fuel [(start, [start])] [start]).isSome := by
    refine walkQueue_isSome (List.nodup_dedup _) hedges ?_
    have hcount : (nodes.filter fun t => decide (t ∉ [start])).length ≤ w.db.associations.length :=
      (List.length_filter_le _ _).trans ((List.dedup_sublist _).length_le.trans (List.length_map _).le)
    rw [List.length_singleton]
    exact (Nat.add_le_add_left hcount 1).trans (by omega)
  obtain ⟨p, hp⟩ := Option.isSome_iff_exists.mp hends
  -- the queue and the levels visit the same nodes in the same order
  have hsame : p = walkLevels edges goal maxDepth [(start, [start])] [start] := walkQueue_levels hlevel (Nat.zero_add maxDepth) hp
  have hqueue : ∀ {calm : Prop}, w.Reads w.db calm → (bfsQueue goal maxDepth minWeight fuel [(start, [start])] [start]).wp
      (exec bm25) (fun r w' => r = some p ∧ w'.Reads w.db calm) (fun _ => ¬ calm) w := by
    intro calm hw
    rw [← hp]
    exact wp_bfsQueue fuel _ _ hw
  have hlevels : ∀ {calm : Prop}, w.Reads w.db calm → (bfsPath start goal maxDepth minWeight).wp
      (exec bm25) (fun r w' => r = p ∧ w'.Reads w.db calm) (fun _ => ¬ calm) w := by
    intro calm hw
    rw [hsame]
    exact wp_bfsLevels maxDepth _ _ hw
  have hany : w.Reads w.db False := ⟨rfl, False.elim⟩
  refine ⟨p, fun r hr => (wp_ok (hqueue hany) hr).1, fun r hr => (wp_ok (hlevels hany) hr).1, fun hcalm => ?_, ?_, ?_⟩
  · have hw : w.Reads w.db True := ⟨rfl, fun _ => hcalm⟩
    obtain ⟨r, hr, rfl, -⟩ := wp_total (hqueue hw) fun _ => not_not.mpr trivial
    obtain ⟨r', hr', rfl, -⟩ := wp_total (hlevels hw) fun _ => not_not.mpr trivial
    exact ⟨hr, hr'⟩
  · rw [← hsame, Nat.zero_add] at hspec
    rw [← leads_neighbors]
    cases p with
    | none =>
      refine iff_of_false Bool.false_ne_true ?_
      rintro ⟨q, hq, hlen⟩
      exact hspec (hq.within hlen)
    | some q => exact iff_of_true rfl ⟨q, hspec.1, hspec.2.2.1⟩
  · rintro q rfl
    rw [← hsame, Nat.zero_add] at hspec
    obtain ⟨htrail, hnodup, -, k, hlen, hfar⟩ := hspec
    rw [← leads_neighbors]
    refine ⟨htrail, hnodup, fun q' hq' => ?_⟩
    by_contra hshort
    -- a shorter trail would have been met at an earlier level
    exact hfar (hq'.within (by omega))

end

def ring : Db ℚ :=
  { Db.empty with
    associations := [⟨"mem_tea", "mem_milk", 1 / 2, "explicit", 0, none⟩, ⟨"mem_milk", "mem_sugar", 2 / 5, "explicit", 0, none⟩,
      ⟨"mem_sugar", "mem_tea", 1, "explicit", 0, none⟩, ⟨"mem_tea", "mem_sugar", 1 / 10, "explicit", 0, none⟩] }

theorem bfsPath_ring : ∃ p : Option (List String),
    (∀ r, ((bfsQueue "mem_sugar" 3 (3 / 10) 5 [("mem_tea", ["mem_tea"])] ["mem_tea"]).run (exec fun _ _ _ => none)
      ⟨ring, [], Oracle.quiet⟩).1 = .ok r → r = some p) ∧
    (p.isSome ↔ ∃ q, Trail (ring.StoredEdge (3 / 10)) "mem_tea" "mem_sugar" q ∧ q.length ≤ 3 + 1) := by
  have hne : "mem_tea" ≠ "mem_sugar" := by decide
  have hfuel : ring.associations.length < 5 := by decide
  let w : World ℚ := ⟨ring, [], Oracle.quiet⟩
  have hcorrect : ∃ p : Option (List String), (∀ r, ((bfsQueue "mem_sugar" 3 (3 / 10) 5 [("mem_tea", ["mem_tea"])]
      ["mem_tea"]).run (exec fun _ _ _ => none) w).1 = .ok r → r = some p) ∧ _ := bfsPath_correct hne hfuel
  obtain ⟨p, hloop, -, -, hsome, -⟩ := hcorrect
  exact ⟨p, hloop, hsome⟩

end CognitiveMemory
