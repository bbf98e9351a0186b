import CognitiveMemory.Lib.Numerals
import CognitiveMemory.Lib.Frontier
import Mathlib.Algebra.BigOperators.Group.List.Basic
import Mathlib.Algebra.Order.Field.Basic

/-! The graph crate's `expand_graph`: a breadth-first walk with a queue, and the weights it multiplies
along the way. -/

namespace CognitiveMemory
open Frontier
variable {F : Type} [Field F] [LinearOrder F]

abbrev MemoryIndex := ℕ

structure Association (F : Type) where
  targetIdIndex : MemoryIndex
  weight : F
  lastCoRetrieval : Int

structure GraphConfig (F : Type) where
  retrievalThreshold : F

abbrev AdjacencyList (F : Type) := List (MemoryIndex × List (Association F))

structure ExpandedMemory (F : Type) where
  index : MemoryIndex
  combinedWeight : F
  hopsFromAnchor : ℕ

structure GraphWalk (F : Type) where
  seen : List MemoryIndex
  results : List (ExpandedMemory F)
  frontier : List (MemoryIndex × F × ℕ)

def GraphWalk.follow (config : GraphConfig F) (weightSoFar : F) (hop : ℕ) (x : GraphWalk F) (edge : Association F) :
    GraphWalk F :=
  if edge.weight < config.retrievalThreshold then x
  else if x.seen.contains edge.targetIdIndex then x
  else
    let combined := weightSoFar * edge.weight
    ⟨edge.targetIdIndex :: x.seen, x.results ++ [⟨edge.targetIdIndex, combined, hop + 1⟩],
      x.frontier ++ [(edge.targetIdIndex, combined, hop + 1)]⟩

def GraphWalk.run (adjacency : AdjacencyList F) (maxHops : ℕ) (config : GraphConfig F) :
    ℕ → GraphWalk F → Option (List (ExpandedMemory F))
  | _, ⟨_, results, []⟩ => some results
  | 0, ⟨_, _, _ :: _⟩ => none
  | fuel + 1, ⟨seen, results, (current, weightSoFar, hop) :: frontier⟩ =>
    if maxHops ≤ hop then run adjacency maxHops config fuel ⟨seen, results, frontier⟩
    else match adjacency.lookup current with
      | none => run adjacency maxHops config fuel ⟨seen, results, frontier⟩
      | some edges =>
        run adjacency maxHops config fuel (edges.foldl (GraphWalk.follow config weightSoFar hop) ⟨seen, results, frontier⟩)

def GraphWalk.start (F : Type) [Field F] (anchors : List MemoryIndex) : GraphWalk F :=
  ⟨anchors, [], anchors.map fun id => (id, 1, 0)⟩

def expandGraph (fuel : ℕ) (anchors : List MemoryIndex) (adjacency : AdjacencyList F) (maxHops : ℕ)
    (config : GraphConfig F) :
    Option (List (ExpandedMemory F)) :=
  if maxHops = 0 ∨ anchors.isEmpty then some []
  else GraphWalk.run adjacency maxHops config fuel (.start F anchors)

/-! ## The loop ends -/

section
variable {adjacency : AdjacencyList F} {maxHops : ℕ} {config : GraphConfig F} {nodes : List MemoryIndex} {x : GraphWalk F}

/-- The edges that are followed. -/
def Follows (adjacency : AdjacencyList F) (config : GraphConfig F) (a : MemoryIndex) (e : Association F)
    (b : MemoryIndex) : Prop :=
  ∃ edges, adjacency.lookup a = some edges ∧ e ∈ edges ∧ e.targetIdIndex = b ∧ config.retrievalThreshold ≤ e.weight

def GraphWalk.pending (nodes : List MemoryIndex) (x : GraphWalk F) : ℕ :=
  x.frontier.length + (nodes.filter fun t => decide (t ∉ x.seen)).length

theorem GraphWalk.pending_follow (weightSoFar : F) (hop : ℕ) (x : GraphWalk F) {edge : Association F}
    (h : edge.targetIdIndex ∈ nodes) : (x.follow config weightSoFar hop edge).pending nodes ≤ x.pending nodes := by
  unfold GraphWalk.follow
  split
  · exact le_refl _
  split
  · exact le_refl _
  rename_i hseen
  have hnew : edge.targetIdIndex ∉ x.seen := by simpa using hseen
  obtain ⟨before, after, rfl⟩ := List.append_of_mem h
  have hshrink : ∀ ts : List MemoryIndex, (ts.filter fun t => decide (t ∉ edge.targetIdIndex :: x.seen)).length ≤
      (ts.filter fun t => decide (t ∉ x.seen)).length := by
    intro ts
    refine (List.monotone_filter_right ts fun t ht => ?_).length_le
    exact decide_eq_true fun hmem => of_decide_eq_true ht (List.mem_cons_of_mem _ hmem)
  have hbefore := hshrink before
  have hafter := hshrink after
  have hself : decide (edge.targetIdIndex ∉ edge.targetIdIndex :: x.seen) = false :=
    decide_eq_false (not_not.mpr List.mem_cons_self)
  simp only [GraphWalk.pending, List.filter_append, List.filter_cons, List.length_append, hself, decide_eq_true hnew, if_true,
    Bool.false_eq_true, if_false, List.length_cons, List.length_nil]
  omega

theorem GraphWalk.pending_foldl (weightSoFar : F) (hop : ℕ) (x : GraphWalk F) {edges : List (Association F)}
    (h : ∀ e ∈ edges, e.targetIdIndex ∈ nodes) :
    (edges.foldl (GraphWalk.follow config weightSoFar hop) x).pending nodes ≤ x.pending nodes := by
  induction edges generalizing x with
  | nil => exact le_refl _
  | cons e edges ih =>
    obtain ⟨he, hedges⟩ := List.forall_mem_cons.mp h
    exact (ih _ hedges).trans (pending_follow weightSoFar hop x he)

theorem GraphWalk.run_isSome (hnodes : ∀ a edges, adjacency.lookup a = some edges → ∀ e ∈ edges,
    e.targetIdIndex ∈ nodes) {fuel : ℕ}
    (h : x.pending nodes ≤ fuel) : (GraphWalk.run adjacency maxHops config fuel x).isSome := by
  induction fuel generalizing x with
  | zero =>
    obtain ⟨seen, results, frontier⟩ := x
    cases frontier with
    | nil => rfl
    | cons node frontier => simp [GraphWalk.pending] at h
  | succ fuel ih =>
    obtain ⟨seen, results, frontier⟩ := x
    cases frontier with
    | nil => rfl
    | cons node frontier =>
      obtain ⟨current, weightSoFar, hop⟩ := node
      have hpopped : (⟨seen, results, frontier⟩ : GraphWalk F).pending nodes ≤ fuel := by
        simp only [GraphWalk.pending, List.length_cons] at h ⊢
        omega
      rw [GraphWalk.run]
      split
      · exact ih hpopped
      split
      · exact ih hpopped
      · rename_i edges hedges
        exact ih ((pending_foldl weightSoFar hop _ (hnodes current edges hedges)).trans hpopped)

end

/-! ## What the loop finds -/

def ExpandedMemory.node (r : ExpandedMemory F) : MemoryIndex × F × ℕ := (r.index, r.combinedWeight, r.hopsFromAnchor)

def GraphWalk.found (anchors : List MemoryIndex) (x : GraphWalk F) : List (MemoryIndex × F × ℕ) :=
  (anchors.map fun id => (id, 1, 0)) ++ x.results.map ExpandedMemory.node

section
variable {adjacency : AdjacencyList F} {maxHops : ℕ} {config : GraphConfig F} {anchors : List MemoryIndex}
  {node : MemoryIndex × F × ℕ} {x x' : GraphWalk F} {done : List (MemoryIndex × F × ℕ)}

structure GraphWalk.Grown (adjacency : AdjacencyList F) (config : GraphConfig F) (node : MemoryIndex × F × ℕ)
    (x x' : GraphWalk F) (new : List (Association F)) : Prop where
  frontier : x'.frontier = x.frontier ++ new.map fun e => (e.targetIdIndex, node.2.1 * e.weight, node.2.2 + 1)
  results : x'.results = x.results ++ new.map fun e => ⟨e.targetIdIndex, node.2.1 * e.weight, node.2.2 + 1⟩
  seen : ∀ i, i ∈ x'.seen ↔ i ∈ x.seen ∨ ∃ e ∈ new, e.targetIdIndex = i
  new : ∀ e ∈ new, Follows adjacency config node.1 e e.targetIdIndex ∧ e.targetIdIndex ∉ x.seen

theorem GraphWalk.Grown.none (adjacency : AdjacencyList F) (config : GraphConfig F) (node : MemoryIndex × F × ℕ)
    (x : GraphWalk F) :
    Grown adjacency config node x x [] := by
  refine ⟨?_, ?_, fun i => ?_, fun e he => ?_⟩
  · rw [List.map_nil, List.append_nil]
  · rw [List.map_nil, List.append_nil]
  · simp
  · cases he

theorem GraphWalk.Grown.follow {new : List (Association F)} (h : Grown adjacency config node x x' new) {e : Association F}
    {edges : List (Association F)} (hedges : adjacency.lookup node.1 = some edges) (he : e ∈ edges) :
    ∃ new', Grown adjacency config node x (x'.follow config node.2.1 node.2.2 e) new' ∧
      (config.retrievalThreshold ≤ e.weight → e.targetIdIndex ∈ (x'.follow config node.2.1 node.2.2 e).seen) := by
  unfold GraphWalk.follow
  split
  · rename_i hweak
    exact ⟨new, h, fun hstrong => absurd hstrong (not_le.mpr hweak)⟩
  rename_i hstrong
  split
  · rename_i hseen
    exact ⟨new, h, fun _ => by simpa using hseen⟩
  rename_i hseen
  have hfresh : e.targetIdIndex ∉ x'.seen := by simpa using hseen
  refine ⟨new ++ [e], ⟨?_, ?_, fun i => ?_, fun e' he' => ?_⟩, fun _ => List.mem_cons_self⟩
  · show x'.frontier ++ [_] = _
    rw [h.frontier, List.map_append, List.append_assoc]
    rfl
  · show x'.results ++ [_] = _
    rw [h.results, List.map_append, List.append_assoc]
    rfl
  · have hnew : (∃ e' ∈ new ++ [e], e'.targetIdIndex = i) ↔ (∃ e' ∈ new, e'.targetIdIndex = i) ∨ i = e.targetIdIndex := by
      simp [or_and_right, exists_or, eq_comm]
    rw [List.mem_cons, h.seen, hnew, or_comm, or_assoc]
  · rcases List.mem_append.mp he' with he' | he'
    · exact h.new e' he'
    · rw [List.mem_singleton.mp he']
      exact ⟨⟨edges, hedges, he, rfl, not_lt.mp hstrong⟩, fun hold => hfresh ((h.seen _).mpr (.inl hold))⟩

theorem GraphWalk.follow_seen (weightSoFar : F) (hop : ℕ) (e : Association F) {i : MemoryIndex} (h : i ∈ x.seen) :
    i ∈ (x.follow config weightSoFar hop e).seen := by
  unfold GraphWalk.follow
  split
  · exact h
  split
  · exact h
  · exact List.mem_cons_of_mem _ h

theorem GraphWalk.foldl_follow_seen (weightSoFar : F) (hop : ℕ) (edges : List (Association F)) {i : MemoryIndex}
    (h : i ∈ x.seen) :
    i ∈ (edges.foldl (GraphWalk.follow config weightSoFar hop) x).seen := by
  induction edges generalizing x with
  | nil => exact h
  | cons e edges ih => exact ih (follow_seen weightSoFar hop e h)

theorem GraphWalk.Grown.foldl {edges rest : List (Association F)} {new : List (Association F)}
    (h : Grown adjacency config node x x' new)
    (hedges : adjacency.lookup node.1 = some edges) (hrest : ∀ e ∈ rest, e ∈ edges) :
    ∃ new', Grown adjacency config node x (rest.foldl (GraphWalk.follow config node.2.1 node.2.2) x') new' ∧
      ∀ e ∈ rest, config.retrievalThreshold ≤ e.weight →
        e.targetIdIndex ∈ (rest.foldl (GraphWalk.follow config node.2.1 node.2.2) x').seen := by
  induction rest generalizing x' new with
  | nil => exact ⟨new, h, by simp⟩
  | cons e rest ih =>
    obtain ⟨he, hrest⟩ := List.forall_mem_cons.mp hrest
    obtain ⟨new₁, hgrown, hseen⟩ := h.follow hedges he
    obtain ⟨new₂, hgrown', hseen'⟩ := ih hgrown hrest
    exact ⟨new₂, hgrown', List.forall_mem_cons.mpr ⟨fun hstrong => foldl_follow_seen _ _ rest (hseen hstrong), hseen'⟩⟩

/-- The queue is what was found and not popped, nearest first; what was popped has its neighbours
found; what was found is at the end of a route of that weight. -/
structure Spanning (adjacency : AdjacencyList F) (config : GraphConfig F) (maxHops : ℕ) (anchors : List MemoryIndex)
    (done : List (MemoryIndex × F × ℕ)) (x : GraphWalk F) : Prop where
  queue : done ++ x.frontier = x.found anchors
  seen : ∀ i, i ∈ x.seen ↔ ∃ y ∈ x.found anchors, y.1 = i
  sorted : x.frontier.Pairwise fun y z => y.2.2 ≤ z.2.2
  near : ∀ q ∈ x.frontier, ∀ y ∈ x.found anchors, y.2.2 ≤ q.2.2 + 1
  expanded : ∀ y ∈ done, y.2.2 < maxHops → ∀ e i, Follows adjacency config y.1 e i →
    ∃ z ∈ x.found anchors, z.1 = i ∧ z.2.2 ≤ y.2.2 + 1
  routed : ∀ y ∈ x.found anchors, ∃ es bs, Route (Follows adjacency config) {a | a ∈ anchors} y.1 es bs ∧
    y.2.1 = (es.map Association.weight).prod ∧ es.length = y.2.2 ∧ y.2.2 ≤ maxHops ∧ ∀ b ∈ bs, b ∈ x.seen
  apart : ∀ r ∈ x.results, r.index ∉ anchors

theorem Spanning.start (anchors : List MemoryIndex) : Spanning adjacency config maxHops anchors [] (.start F anchors) := by
  have hfound : (GraphWalk.start F anchors).found anchors = anchors.map fun id => (id, 1, 0) := List.append_nil _
  have hzero : ∀ y ∈ anchors.map (fun id => ((id, 1, 0) : MemoryIndex × F × ℕ)), y.1 ∈ anchors ∧ y.2.1 = 1 ∧ y.2.2 = 0 := by
    intro y hy
    obtain ⟨a, ha, rfl⟩ := List.mem_map.mp hy
    exact ⟨ha, rfl, rfl⟩
  refine ⟨hfound.symm, fun i => ?_, ?_, fun q _ y hy => ?_, by simp, fun y hy => ?_, by simp [GraphWalk.start]⟩
  · rw [hfound]
    simp [GraphWalk.start]
  · refine List.pairwise_of_forall_mem_list fun y hy z _ => ?_
    rw [(hzero y hy).2.2]
    exact Nat.zero_le _
  · rw [hfound] at hy
    rw [(hzero y hy).2.2]
    exact Nat.zero_le _
  · rw [hfound] at hy
    obtain ⟨ha, hone, hhop⟩ := hzero y hy
    exact ⟨[], [], .start ha, hone, hhop.symm, hhop ▸ Nat.zero_le _, by simp⟩

/-- One turn of the loop: a node is popped, and its new neighbours go to the back. -/
theorem Spanning.pop {seen : List MemoryIndex} {results : List (ExpandedMemory F)} {frontier : List (MemoryIndex × F × ℕ)}
    (h : Spanning adjacency config maxHops anchors done ⟨seen, results, node :: frontier⟩) {new : List (Association F)}
    (hgrown : GraphWalk.Grown adjacency config node ⟨seen, results, frontier⟩ x' new) (hhop : new = [] ∨ node.2.2 < maxHops)
    (hall : node.2.2 < maxHops → ∀ e i, Follows adjacency config node.1 e i → i ∈ x'.seen) :
    Spanning adjacency config maxHops anchors (done ++ [node]) x' := by
  let old : GraphWalk F := ⟨seen, results, node :: frontier⟩
  let news := new.map fun e => ((e.targetIdIndex, node.2.1 * e.weight, node.2.2 + 1) : MemoryIndex × F × ℕ)
  -- only the new neighbours are found, each one hop further than the node
  have hfound : x'.found anchors = old.found anchors ++ news := by
    rw [GraphWalk.found, GraphWalk.found, hgrown.results, List.map_append, List.map_map, List.append_assoc]
    rfl
  have hmem : ∀ y, y ∈ x'.found anchors ↔ y ∈ old.found anchors ∨ y ∈ news := fun y => by rw [hfound, List.mem_append]
  have hnews : ∀ y ∈ news, y.2.2 = node.2.2 + 1 := by
    intro y hy
    obtain ⟨e, -, rfl⟩ := List.mem_map.mp hy
    rfl
  obtain ⟨hfirst, hsorted⟩ := List.pairwise_cons.mp h.sorted
  have hnear := h.near node List.mem_cons_self
  have hnode : node ∈ old.found anchors := by
    rw [← h.queue]
    exact List.mem_append_right _ List.mem_cons_self
  have hseen : ∀ i, i ∈ x'.seen ↔ ∃ y ∈ x'.found anchors, y.1 = i := by
    intro i
    simp only [hmem, or_and_right, exists_or]
    rw [hgrown.seen, h.seen i]
    refine or_congr_right ?_
    simp [news]
  refine ⟨?_, hseen, ?_, fun q hq y hy => ?_, fun y hy hlt e i hedge => ?_, fun y hy => ?_, fun r hr => ?_⟩
  · rw [hfound, ← h.queue, hgrown.frontier, List.append_assoc, List.append_assoc]
    rfl
  · rw [hgrown.frontier]
    refine List.pairwise_append.mpr ⟨hsorted, List.pairwise_of_forall_mem_list fun y hy z hz => ?_, fun y hy z hz => ?_⟩
    · rw [hnews y hy, hnews z hz]
    · rw [hnews z hz]
      refine hnear y ?_
      rw [← h.queue]
      exact List.mem_append_right _ (List.mem_cons_of_mem _ hy)
  · -- nothing is further than one hop behind the node just popped
    have hq' : node.2.2 ≤ q.2.2 := by
      rw [hgrown.frontier] at hq
      rcases List.mem_append.mp hq with hq | hq
      · exact hfirst q hq
      · rw [hnews q hq]
        exact Nat.le_succ _
    have hy' : y.2.2 ≤ node.2.2 + 1 := by
      rcases (hmem y).mp hy with hy | hy
      · exact hnear y hy
      · exact (hnews y hy).le
    omega
  · rcases List.mem_append.mp hy with hy | hy
    · obtain ⟨z, hz, hi, hle⟩ := h.expanded y hy hlt e i hedge
      exact ⟨z, (hmem z).mpr (.inl hz), hi, hle⟩
    · rw [List.mem_singleton.mp hy] at hlt hedge ⊢
      obtain ⟨z, hz, hi⟩ := (hseen i).mp (hall hlt e i hedge)
      refine ⟨z, hz, hi, ?_⟩
      rcases (hmem z).mp hz with hz | hz
      · exact hnear z hz
      · exact (hnews z hz).le
  · have hkeep : ∀ i ∈ seen, i ∈ x'.seen := fun i hi => (hgrown.seen i).mpr (.inl hi)
    rcases (hmem y).mp hy with hy | hy
    · obtain ⟨es, bs, hroute, hweight, hlen, hle, hbs⟩ := h.routed y hy
      exact ⟨es, bs, hroute, hweight, hlen, hle, fun b hb => hkeep b (hbs b hb)⟩
    · obtain ⟨e, he, rfl⟩ := List.mem_map.mp hy
      have hlt : node.2.2 < maxHops := hhop.resolve_left (List.ne_nil_of_mem he)
      obtain ⟨hedge, hfresh⟩ := hgrown.new e he
      obtain ⟨es, bs, hroute, hweight, hlen, -, hbs⟩ := h.routed node hnode
      have hanchor : e.targetIdIndex ∉ anchors := by
        refine fun ha => hfresh ((h.seen _).mpr ⟨(e.targetIdIndex, 1, 0), ?_, rfl⟩)
        exact List.mem_append_left _ (List.mem_map.mpr ⟨_, ha, rfl⟩)
      refine ⟨es ++ [e], bs ++ [e.targetIdIndex], hroute.follow hedge hanchor fun hb => hfresh (hbs _ hb), ?_, ?_, hlt, ?_⟩
      · rw [hweight, List.map_append, List.prod_append, List.map_singleton, List.prod_singleton]
      · rw [List.length_append, hlen]
        rfl
      · intro b hb
        rcases List.mem_append.mp hb with hb | hb
        · exact hkeep b (hbs b hb)
        · exact (hgrown.seen b).mpr (.inr ⟨e, he, (List.mem_singleton.mp hb).symm⟩)
  · rw [hgrown.results] at hr
    rcases List.mem_append.mp hr with hr | hr
    · exact h.apart r hr
    · obtain ⟨e, he, rfl⟩ := List.mem_map.mp hr
      refine fun ha => (hgrown.new e he).2 ((h.seen _).mpr ⟨(e.targetIdIndex, 1, 0), ?_, rfl⟩)
      exact List.mem_append_left _ (List.mem_map.mpr ⟨_, ha, rfl⟩)

/-- When the queue is empty everything within so many hops has been found. -/
theorem Spanning.complete {seen : List MemoryIndex} {results : List (ExpandedMemory F)}
    (h : Spanning adjacency config maxHops anchors done ⟨seen, results, []⟩) {a i : MemoryIndex} (ha : a ∈ anchors) {n : ℕ}
    (hn : n ≤ maxHops) (hwithin : Within (fun a b => ∃ e, Follows adjacency config a e b) n a i) :
    ∃ y ∈ (⟨seen, results, []⟩ : GraphWalk F).found anchors, y.1 = i ∧ y.2.2 ≤ n := by
  have hanchor : ((a, 1, 0) : MemoryIndex × F × ℕ) ∈ (⟨seen, results, []⟩ : GraphWalk F).found anchors :=
    List.mem_append_left _ (List.mem_map.mpr ⟨a, ha, rfl⟩)
  induction n generalizing i with
  | zero =>
    cases hwithin
    exact ⟨_, hanchor, rfl, le_refl _⟩
  | succ n ih =>
    rcases within_succ_iff.mp hwithin with hshort | ⟨b, hab, e, hedge⟩
    · obtain ⟨y, hy, hi, hle⟩ := ih (by omega) hshort
      exact ⟨y, hy, hi, by omega⟩
    · obtain ⟨y, hy, rfl, hle⟩ := ih (by omega) hab
      have hdone : y ∈ done := by
        rw [← h.queue, List.append_nil] at hy
        exact hy
      obtain ⟨z, hz, hi, hnext⟩ := h.expanded y hdone (by omega) e i hedge
      exact ⟨z, hz, hi, by omega⟩

theorem Spanning.run {fuel : ℕ} (h : Spanning adjacency config maxHops anchors done x) {reached : List (ExpandedMemory F)}
    (hrun : GraphWalk.run adjacency maxHops config fuel x = some reached) :
    ∃ done' seen, Spanning adjacency config maxHops anchors done' ⟨seen, reached, []⟩ := by
  induction fuel generalizing done x with
  | zero =>
    obtain ⟨seen, results, frontier⟩ := x
    cases frontier with
    | nil =>
      cases hrun
      exact ⟨done, seen, h⟩
    | cons node frontier => cases hrun
  | succ fuel ih =>
    obtain ⟨seen, results, frontier⟩ := x
    cases frontier with
    | nil =>
      cases hrun
      exact ⟨done, seen, h⟩
    | cons node frontier =>
      obtain ⟨current, weightSoFar, hop⟩ := node
      have hnone := GraphWalk.Grown.none adjacency config (current, weightSoFar, hop) ⟨seen, results, frontier⟩
      rw [GraphWalk.run] at hrun
      split at hrun
      · rename_i hfar
        exact ih (h.pop hnone (.inl rfl) fun hlt => absurd hlt (not_lt.mpr hfar)) hrun
      rename_i hnear
      have hlt : hop < maxHops := not_le.mp hnear
      split at hrun
      · rename_i hlookup
        refine ih (h.pop hnone (.inl rfl) fun _ e i hedge => ?_) hrun
        obtain ⟨edges, hedges, -⟩ := hedge
        rw [hlookup] at hedges
        cases hedges
      · rename_i edges hlookup
        obtain ⟨new, hgrown, hseen⟩ := hnone.foldl hlookup fun e he => he
        refine ih (h.pop hgrown (.inr hlt) fun _ e i hedge => ?_) hrun
        obtain ⟨edges', hedges', he, rfl, hstrong⟩ := hedge
        rw [hlookup] at hedges'
        cases hedges'
        exact hseen e he hstrong

/-- `expand_graph` ends, and reaches just what is within so many hops, each by a route of the weight it
reports. -/
theorem expandGraph_spec {nodes : List MemoryIndex}
    (hnodes : ∀ a edges, adjacency.lookup a = some edges → ∀ e ∈ edges, e.targetIdIndex ∈ nodes) {fuel : ℕ}
    (hfuel : anchors.length + nodes.length ≤ fuel) :
    ∃ reached, expandGraph fuel anchors adjacency maxHops config = some reached ∧
      (∀ r ∈ reached, r.index ∉ anchors ∧ ∃ es bs, Route (Follows adjacency config) {a | a ∈ anchors} r.index es bs ∧
        r.combinedWeight = (es.map Association.weight).prod ∧ es.length = r.hopsFromAnchor ∧ r.hopsFromAnchor ≤ maxHops) ∧
      ∀ a ∈ anchors, ∀ i, Within (fun a b => ∃ e, Follows adjacency config a e b) maxHops a i → i ∉ anchors →
        ∃ r ∈ reached, r.index = i := by
  unfold expandGraph
  split
  · rename_i hnone
    refine ⟨[], rfl, by simp, fun a ha i hwithin hi => ?_⟩
    rcases hnone with hzero | hempty
    · rw [hzero] at hwithin
      cases hwithin
      exact absurd ha hi
    · rw [List.isEmpty_iff.mp hempty] at ha
      cases ha
  have hpending : (GraphWalk.start F anchors).pending nodes ≤ fuel := by
    have hle := List.length_filter_le (fun t => decide (t ∉ (GraphWalk.start F anchors).seen)) nodes
    rw [GraphWalk.pending]
    simp only [GraphWalk.start, List.length_map] at hle ⊢
    omega
  have hends : (GraphWalk.run adjacency maxHops config fuel (.start F anchors)).isSome := GraphWalk.run_isSome hnodes hpending
  obtain ⟨reached, hrun⟩ := Option.isSome_iff_exists.mp hends
  obtain ⟨done, seen, hspan⟩ := (Spanning.start anchors).run hrun
  refine ⟨reached, hrun, fun r hr => ⟨hspan.apart r hr, ?_⟩, fun a ha i hwithin hi => ?_⟩
  · have hfound : r.node ∈ (⟨seen, reached, []⟩ : GraphWalk F).found anchors :=
      List.mem_append_right _ (List.mem_map_of_mem hr)
    obtain ⟨es, bs, hroute, hweight, hlen, hle, -⟩ := hspan.routed _ hfound
    exact ⟨es, bs, hroute, hweight, hlen, hle⟩
  · obtain ⟨y, hy, rfl, -⟩ := hspan.complete ha (le_refl maxHops) hwithin
    rcases List.mem_append.mp hy with hy | hy
    · obtain ⟨a', ha', rfl⟩ := List.mem_map.mp hy
      exact absurd ha' hi
    · obtain ⟨r, hr, rfl⟩ := List.mem_map.mp hy
      exact ⟨r, hr, rfl⟩

end
end CognitiveMemory
