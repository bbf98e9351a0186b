import CognitiveMemory.Search.Visibility

/-! The search for bridges as a walk over the edges of one store, and what of the walk shows when
some nodes are left out. -/

namespace CognitiveMemory
open Prog
variable {F : Type}

/-! ## The walk -/

section
variable (edges : String → List (NeighborEdge F)) (goal : String)

def walkFront : List (String × List String) → List String → List (String × List String) →
    List String ⊕ (List String × List (String × List String))
  | [], visited, back => .inr (visited, back)
  | (current, path) :: front, visited, back =>
    match visitNeighbors goal path (edges current) visited back with
    | .inl found => .inl found
    | .inr (visited, back) => walkFront front visited back

def walkLevels : ℕ → List (String × List String) → List String → Option (List String)
  | 0, _, _ => none
  | depth + 1, front, visited =>
    match walkFront edges goal front visited [] with
    | .inl found => some found
    | .inr (visited, back) => walkLevels depth back visited

end

def walkChains (path : String → String → Option (List String)) (o : SearchOptions F) : List (String × String) →
    List (List String) →
    List (List String)
  | [], chains => chains
  | (a, b) :: pairs, chains =>
    if o.maxBridgePaths ≤ chains.length then walkChains path o pairs chains
    else match path a b with
      | some p => walkChains path o pairs (if 2 < p.length then chains ++ [p] else chains)
      | none => walkChains path o pairs chains

def Db.walk [LinearOrder F] (db : Db F) (minWeight : F) (a b : String) : Option (List String) :=
    walkLevels (db.neighbors minWeight) b 3 [(a, [a])] [a]

/-! ## What runs -/

section
variable {bm25 : Bm25 F} {db : Db F} {calm : Prop} {w : World F}

variable [Field F] [LinearOrder F]

theorem wp_bfsFront {goal : String} {minWeight : F} (front : List (String × List String)) (visited : List String)
    (back : List (String × List String)) (h : w.Reads db calm) :
    (bfsFront goal minWeight front visited back).wp (exec bm25)
      (fun r w' => r = walkFront (db.neighbors minWeight) goal front visited back ∧ w'.Reads db calm) (fun _ => ¬ calm) w := by
  induction front generalizing visited back w with
  | nil => exact ⟨rfl, h⟩
  | cons node front ih =>
    obtain ⟨current, path⟩ := node
    let q : Query F := .edgesFrom current minWeight
    refine wp.seq (wp_query (q := q) h rfl) ?_
    rintro edges w' ⟨rfl, hw'⟩
    rw [walkFront]
    show (match visitNeighbors goal path (db.neighbors minWeight current) visited back with
      | .inl found => _
      | .inr (visited, back) => _ : Repo F _).wp _ _ _ _
    split
    · exact ⟨rfl, hw'⟩
    · exact ih _ _ hw'

theorem wp_bfsLevels {goal : String} {minWeight : F} (depth : ℕ) (front : List (String × List String))
    (visited : List String) (h : w.Reads db calm) : (bfsLevels goal minWeight depth front visited).wp (exec bm25)
      (fun r w' => r = walkLevels (db.neighbors minWeight) goal depth front visited ∧ w'.Reads db calm) (fun _ => ¬ calm) w := by
  induction depth generalizing front visited w with
  | zero => exact ⟨rfl, h⟩
  | succ depth ih =>
    refine wp.seq (wp_bfsFront front visited [] h) ?_
    rintro r w' ⟨rfl, hw'⟩
    rw [walkLevels]
    cases walkFront (db.neighbors minWeight) goal front visited [] with
    | inl found => exact ⟨rfl, hw'⟩
    | inr found => exact ih _ _ hw'

theorem wp_bridgeChains {o : SearchOptions F} (pairs : List (String × String)) (chains : List (List String))
    (h : w.Reads db calm) :
    (bridgeChains o pairs chains).wp (exec bm25)
      (fun r _ => r = walkChains (db.walk o.minBridgeEdgeWeight) o pairs chains) (fun _ => ¬ calm) w := by
  induction pairs generalizing chains w with
  | nil => rfl
  | cons pair pairs ih =>
    obtain ⟨a, b⟩ := pair
    rw [bridgeChains, walkChains]
    split
    · exact ih chains h
    · refine wp.seq (.mapError (wp_bfsLevels 3 [(a, [a])] [a] h) fun _ he => he) ?_
      rintro path w' ⟨rfl, hw'⟩
      show (match db.walk o.minBridgeEdgeWeight a b with
        | some p => _
        | none => _ : SearchM F _).wp _ _ _ _
      split
      · exact ih _ hw'
      · exact ih _ hw'

theorem wp_findBridges {o : SearchOptions F} {anchors : List String} (h : w.Reads db calm) :
    (findBridges anchors o).wp (exec bm25) (fun r _ => r = if !o.bridgeDiscovery || decide (anchors.length < 2) then []
      else walkChains (db.walk o.minBridgeEdgeWeight) o (orderedPairs (anchors.take 3)) []) (fun _ => ¬ calm) w := by
  unfold findBridges
  split
  · rfl
  · exact wp_bridgeChains _ _ h

end

/-! ## With nodes left out -/

section
variable (own : String → Bool)

def shown : List String ⊕ (List String × List (String × List String)) →
    List String ⊕ (List String × List (String × List String))
  | .inl found => .inl found
  | .inr (visited, back) => .inr (visited.filter own, back.filter fun node => own node.1)

variable {own} {goal : String}

theorem visitNeighbors_shown (path : List String) {edges : List (NeighborEdge F)}
    (hgoal : ∀ e ∈ edges, e.targetId = goal → own goal) (visited : List String) (back : List (String × List String)) :
    visitNeighbors goal path (edges.filter fun e => own e.targetId) (visited.filter own) (back.filter fun node => own node.1) =
      shown own (visitNeighbors goal path edges visited back) := by
  induction edges generalizing visited back with
  | nil => rfl
  | cons e edges ih =>
    obtain ⟨he, hedges⟩ := List.forall_mem_cons.mp hgoal
    rw [visitNeighbors, List.filter_cons]
    cases hown : own e.targetId with
    | true =>
      have hvisited : (visited.filter own).contains e.targetId = visited.contains e.targetId := by
        rw [Bool.eq_iff_iff, List.contains_iff_mem, List.contains_iff_mem, List.mem_filter]
        exact ⟨fun h => h.1, fun h => ⟨h, hown⟩⟩
      rw [if_pos rfl, visitNeighbors, hvisited]
      split
      · exact ih hedges visited back
      split
      · rfl
      · have hrest := ih hedges (e.targetId :: visited) (back ++ [(e.targetId, path ++ [e.targetId])])
        rw [List.filter_cons, if_pos hown, List.filter_append, List.filter_cons, if_pos hown] at hrest
        exact hrest
    | false =>
      rw [if_neg Bool.false_ne_true]
      split
      · exact ih hedges visited back
      split
      · rename_i heq
        have hself := he heq
        rw [← heq, hown] at hself
        cases hself
      · have hne : ¬ own e.targetId = true := by
          rw [hown]
          exact Bool.false_ne_true
        have hrest := ih hedges (e.targetId :: visited) (back ++ [(e.targetId, path ++ [e.targetId])])
        rw [List.filter_cons, if_neg hne, List.filter_append, List.filter_cons, if_neg hne, List.filter_nil,
            List.append_nil] at hrest
        exact hrest

variable {edges : String → List (NeighborEdge F)}

theorem walkFront_shown (hedges : ∀ id, own id = false → (edges id).filter (fun e => own e.targetId) = [])
    (hgoal : ∀ id, ∀ e ∈ edges id, e.targetId = goal → own goal) (front : List (String × List String)) (visited : List String)
    (back : List (String × List String)) :
    walkFront (fun id => (edges id).filter fun e => own e.targetId) goal (front.filter fun node => own node.1)
      (visited.filter own)
      (back.filter fun node => own node.1) = shown own (walkFront edges goal front visited back) := by
  induction front generalizing visited back with
  | nil => rfl
  | cons node front ih =>
    obtain ⟨current, path⟩ := node
    have hvisit := visitNeighbors_shown path (hgoal current) visited back
    rw [walkFront, List.filter_cons]
    cases hown : own current with
    | true =>
      rw [if_pos rfl, walkFront, hvisit]
      cases visitNeighbors goal path (edges current) visited back with
      | inl found => rfl
      | inr found => exact ih found.1 found.2
    | false =>
      rw [if_neg Bool.false_ne_true]
      rw [hedges current hown, visitNeighbors] at hvisit
      cases hfound : visitNeighbors goal path (edges current) visited back with
      | inl found =>
        rw [hfound] at hvisit
        cases hvisit
      | inr found =>
        rw [hfound] at hvisit
        obtain ⟨hv, hb⟩ := Prod.ext_iff.mp (Sum.inr.inj hvisit)
        have hv' : visited.filter own = found.1.filter own := hv
        have hb' : (back.filter fun node => own node.1) = found.2.filter fun node => own node.1 := hb
        rw [hv', hb']
        exact ih found.1 found.2

theorem walkLevels_shown (hedges : ∀ id, own id = false → (edges id).filter (fun e => own e.targetId) = [])
    (hgoal : ∀ id, ∀ e ∈ edges id, e.targetId = goal → own goal) (depth : ℕ) (front : List (String × List String))
    (visited : List String) :
    walkLevels (fun id => (edges id).filter fun e => own e.targetId) goal depth (front.filter fun node => own node.1)
      (visited.filter own) = walkLevels edges goal depth front visited := by
  induction depth generalizing front visited with
  | zero => rfl
  | succ depth ih =>
    have hfront := walkFront_shown hedges hgoal front visited []
    rw [List.filter_nil] at hfront
    rw [walkLevels, walkLevels, hfront]
    cases walkFront edges goal front visited [] with
    | inl found => rfl
    | inr found => exact ih found.2 found.1

theorem walkChains_congr {path path' : String → String → Option (List String)} {o : SearchOptions F}
    {pairs : List (String × String)} (h : ∀ p ∈ pairs, path p.1 p.2 = path' p.1 p.2) (chains : List (List String)) :
    walkChains path o pairs chains = walkChains path' o pairs chains := by
  induction pairs generalizing chains with
  | nil => rfl
  | cons p pairs ih =>
    obtain ⟨hp, hpairs⟩ := List.forall_mem_cons.mp h
    rw [walkChains, walkChains, hp]
    split
    · exact ih hpairs chains
    · split
      · exact ih hpairs _
      · exact ih hpairs chains

end

end CognitiveMemory
