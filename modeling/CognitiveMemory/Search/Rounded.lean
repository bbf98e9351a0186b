import CognitiveMemory.Lib.Floating
import CognitiveMemory.Search.Answer

/-! The search as it is computed, in `f64` and `f32`: retention, cosine and score may be rounded or no
number, and `sort_by` takes scores that cannot be compared for equal. -/

namespace CognitiveMemory.Rounded
open Floating
variable {F N : Type} [Field F] [LinearOrder F]

section
variable (A : Floating F N)

/-! ## Lifecycle -/

def daysSince (last now : Int) : N := A.div (A.num ((Max.max (now - last) 0 : Int) : F)) (A.num ((86400 : ℕ) : F))

def decayAssociationWeight (storedWeight : F) (lastCoRetrieval now : Int) (tauDays : F) : N :=
  A.mul (A.num storedWeight) (A.exp (A.div (A.neg (daysSince A lastCoRetrieval now)) (A.num tauDays)))

def computeRetention (m : MemoryState F) (now : Int) (cfg : LifecycleConfig F) : N :=
  if m.isStub then A.num 0 else
  match m.baseDecayRate with
  | none => A.num 1
  | some beta =>
    let dtDays := daysSince A m.lastAccessedAt now
    let s := A.max (A.num m.stability) (A.num (1 / 100))
    let b := A.min (A.add (A.num 1) (A.mul (A.num m.importance) (A.num 2))) (A.num 3)
    let effectiveRate := A.mul (A.mul s b) (A.num beta)
    let raw := match cfg.decayModel with
      | .exponential => A.exp (A.div (A.neg dtDays) effectiveRate)
      | .power => A.powf (A.add (A.num 1) (A.div dtDays effectiveRate)) (A.neg (A.num cfg.powerDecayGamma))
    A.max raw (A.num m.floor)

/-! ## Scoring -/

def addProduct (s : N) (x y : F) : N :=
  A.single (A.add s (A.single (A.mul (A.single (A.num x)) (A.single (A.num y)))))

def isZero (x : N) : Bool := A.le x (A.num 0) && A.le (A.num 0) x

def cosineSimilarity (a b : List F) : N :=
  let pairs := a.zip b
  let dot := pairs.foldl (fun s p => addProduct A s p.1 p.2) (A.num 0)
  let normA := pairs.foldl (fun s p => addProduct A s p.1 p.1) (A.num 0)
  let normB := pairs.foldl (fun s p => addProduct A s p.2 p.2) (A.num 0)
  if isZero A normA || isZero A normB then A.num 0
  else A.single (A.div dot (A.single (A.mul (A.single (A.sqrt normA)) (A.single (A.sqrt normB)))))

def weakening (cfg : LifecycleConfig F) (now : Int) (c : SearchCandidate F) : N :=
  A.powf (computeRetention A (candidateToState c cfg) now cfg) (A.num cfg.retrievalScoreExponent)

def composite (cfg : LifecycleConfig F) (queryVec : List F) (now : Int) (c : SearchCandidate F) : N :=
  A.mul (cosineSimilarity A queryVec c.embedding) (weakening A cfg now c)

def result (c : SearchCandidate F) (score : N) (source : ResultSource) : SearchResult N :=
  ⟨c.id, c.content, c.category, c.memoryType, score, source⟩

def directHit (cfg : LifecycleConfig F) (queryVec : List F) (now : Int) (c : SearchCandidate F) : SearchResult N :=
  result c (A.single (composite A cfg queryVec now c)) .direct

def scoreCandidate (cfg : LifecycleConfig F) (queryVec : List F) (now : Int) (c : SearchCandidate F) :
    Except SearchError (SearchResult N) :=
  if c.embedding.length ≠ queryVec.length then .error (.dimensionMismatch queryVec.length c.embedding.length)
  else .ok (directHit A cfg queryVec now c)

/-! ## Hybrid fusion -/

def contribution (k : ℕ) (hit : RankedHit) : N :=
  A.div (A.num 1) (A.add (A.add (A.num (k : F)) (A.num (hit.rank : F))) (A.num 1))

def addContribution (k : ℕ) : List (String × N) → RankedHit → List (String × N)
  | [], hit => [(hit.id, A.add (A.num 0) (contribution A k hit))]
  | (id, s) :: rest, hit =>
    if id = hit.id then (id, A.add s (contribution A k hit)) :: rest else (id, s) :: addContribution k rest hit

def rrfScores (lists : List (List RankedHit)) (k : ℕ) : List (String × N) :=
  lists.flatten.foldl (addContribution A k) []

/-- `entries.sort_by(..)`; no fused score is a NaN, so the order is that of a stable sort. -/
def sortFused (entries : List (String × N)) : List (String × N) :=
  entries.insertionSort fun p q => A.before Prod.snd p q

def reciprocalRankFusion (lists : List (List RankedHit)) (k : ℕ) : SearchM F (List (String × N)) := do
  let scores := rrfScores A lists k
  let keys : List String ← Prog.call (Cmd.order (scores.map Prod.fst))
  pure (sortFused A (keys.filterMap fun id => (scores.lookup id).map fun s => (id, s)))

def join (scored : List (SearchResult N)) (p : String × N) : Option (SearchResult N) :=
  (scored.find? (·.memoryId == p.1)).map fun r => { r with score := A.single p.2 }

def fuseHybrid (userId : String) (o : SearchOptions F) (scored : List (SearchResult N)) :
    SearchM F (List (SearchResult N)) :=
  match o.queryText with
  | none => .fail (.invalidQuery "hybrid mode requires query_text in SearchOptions")
  | some text => do
    let bm25Ids ← (query (.bm25Search userId (safeQuery text) (bm25Limit o.limit))).mapError .storage
    let fused ← reciprocalRankFusion A [rankedHits (scored.map SearchResult.memoryId), rankedHits bm25Ids] 60
    pure (fused.filterMap (join A scored))

/-! ## Graph expansion -/

def liveWeight (cfg : LifecycleConfig F) (now : Int) (lm : LinkedMemory F) : N :=
  match lm.lastCoRetrieval with
  | some last => decayAssociationWeight A lm.linkStrength last now cfg.associationDecayConstantDays
  | none => A.num lm.linkStrength

def expandEntry (cfg : LifecycleConfig F) (queryVec : List F) (o : SearchOptions F) (lm : LinkedMemory F) :
    Option (SearchResult N) :=
  if A.lt (liveWeight A cfg o.now lm) (A.num o.minBridgeEdgeWeight) then none
  else match lm.memory.embedding with
    | none => none
    | some v =>
      if v.length ≠ queryVec.length then none
      else
        let score := A.mul (composite A cfg queryVec o.now (.ofRow lm.memory)) (liveWeight A cfg o.now lm)
        some (result (.ofRow lm.memory) (A.single score) .graphExpanded)

def expandWith (cfg : LifecycleConfig F) (queryVec : List F) (o : SearchOptions F) (x : Expansion N) (lm : LinkedMemory F) :
    Expansion N :=
  if x.alreadyHave.contains lm.memory.id then x
  else match expandEntry A cfg queryVec o lm with
    | none => x
    | some r => ⟨lm.memory.id :: x.alreadyHave, x.scored ++ [r], x.frontier ++ [lm.memory.id]⟩

def expandHops (cfg : LifecycleConfig F) (userId : String) (queryVec : List F) (o : SearchOptions F) :
    ℕ → Expansion N → SearchM F (List (SearchResult N))
  | 0, x => pure x.scored
  | hops + 1, x =>
    if x.frontier.isEmpty then pure x.scored else do
      let linked ← (linkedForMany userId x.frontier o.minBridgeEdgeWeight).mapError .storage
      expandHops cfg userId queryVec o hops (linked.foldl (expandWith A cfg queryVec o) ⟨x.alreadyHave, x.scored, []⟩)

def expandViaGraph (cfg : LifecycleConfig F) (userId : String) (queryVec : List F) (o : SearchOptions F)
    (scored : List (SearchResult N)) : SearchM F (List (SearchResult N)) :=
  let ids := scored.map SearchResult.memoryId
  expandHops A cfg userId queryVec o o.graphExpansionHops ⟨ids, scored, ids.take (Max.max o.limit 5)⟩

/-! ## The search -/

variable (sort : List (SearchResult N) → List (SearchResult N))

def hybridHits (userId : String) (o : SearchOptions F) (scored : List (SearchResult N)) :
    SearchM F (List (SearchResult N)) :=
  if o.hybrid then fuseHybrid A userId o scored else pure scored

def expandedHits (cfg : LifecycleConfig F) (userId : String) (queryVec : List F) (o : SearchOptions F)
    (scored : List (SearchResult N)) : SearchM F (List (SearchResult N)) :=
  if 0 < o.graphExpansionHops ∧ scored ≠ [] then do
    let expanded ← expandViaGraph A cfg userId queryVec o scored
    pure (sort expanded)
  else pure scored

/-- `Searcher::search`, where `sort` is what `sort_by` makes of a list of results. -/
def search (cfg : LifecycleConfig F) (userId : String) (queryVec : List F) (o : SearchOptions F) :
    SearchM F (List (SearchResult N)) :=
  if queryVec.isEmpty then .fail (.invalidQuery "query vector is empty")
  else if o.limit = 0 then pure []
  else do
    let candidates : List (SearchCandidate F) ←
      (query (.candidatesForSearch userId o.provider o.model o.now o.deepRecall)).mapError .storage
    let dense ← Prog.ofExcept (candidates.mapM (scoreCandidate A cfg queryVec o.now))
    let hits ← hybridHits A userId o (sort dense)
    let final ← expandedHits A sort cfg userId queryVec o hits
    pure (final.take o.limit)

end

/-! ## Without rounding -/

section
variable [Elementary F]

/-- Arithmetic on numbers, in which the rest of the model computes. -/
def exactly (F : Type) [Field F] [LinearOrder F] [Elementary F] :
    Floating F F := exact Elementary.exp Elementary.sqrt Elementary.powf

theorem exactly_lawful [IsStrictOrderedRing F] : (exactly F).Lawful := exact_lawful ..

theorem isZero_exactly {x : F} : isZero (exactly F) x = true ↔ x = 0 := by
  show (decide (x ≤ 0) && decide (0 ≤ x)) = true ↔ x = 0
  rw [Bool.and_eq_true, decide_eq_true_eq, decide_eq_true_eq, le_antisymm_iff]

theorem cosineSimilarity_exactly (a b : List F) :
    cosineSimilarity (exactly F) a b = CognitiveMemory.cosineSimilarity a b := by
  unfold cosineSimilarity CognitiveMemory.cosineSimilarity
  simp only [Bool.or_eq_true, isZero_exactly]
  rfl

theorem composite_exactly (cfg : LifecycleConfig F) (queryVec : List F) (now : Int) (c : SearchCandidate F) :
    composite (exactly F) cfg queryVec now c = compositeScore cfg queryVec now c :=
  congrArg (· * weakening (exactly F) cfg now c) (cosineSimilarity_exactly queryVec c.embedding)

theorem directHit_exactly (cfg : LifecycleConfig F) (queryVec : List F) (now : Int) (c : SearchCandidate F) :
    directHit (exactly F) cfg queryVec now c = c.result (compositeScore cfg queryVec now c) .direct := by
  rw [← composite_exactly]
  rfl

theorem scoreCandidate_exactly (cfg : LifecycleConfig F) (queryVec : List F) (now : Int) :
    scoreCandidate (exactly F) cfg queryVec now = CognitiveMemory.scoreCandidate cfg queryVec now := by
  funext c
  rw [scoreCandidate, directHit_exactly]
  rfl

theorem addContribution_exactly (k : ℕ) : addContribution (exactly F) k = CognitiveMemory.addContribution k := by
  funext scores hit
  induction scores with
  | nil => rfl
  | cons p rest ih =>
    rw [addContribution, CognitiveMemory.addContribution, ih]
    rfl

theorem before_exactly {α : Type} (key : α → F) (a b : α) : (exactly F).before key a b = true ↔ key b ≤ key a := by
  rw [before, Bool.not_eq_true', ← Bool.not_eq_true, exactly, exact_lt, not_lt]

theorem insertionSort_exactly {α : Type} (key : α → F) (l : List α) :
    (l.insertionSort fun a b => (exactly F).before key a b) = sortDesc key l := by
  have hmap := List.map_insertionSort (fun a b => (exactly F).before key a b = true) (fun a b => key b ≤ key a) id l
    fun a _ b _ => before_exactly key a b
  rwa [List.map_id, List.map_id] at hmap

theorem sort_exactly {α : Type} {key : α → F} {sort : List α → List α} (hs : (exactly F).SortsBy key sort) :
    sort = sortDesc key := by
  funext l
  rw [← insertionSort_exactly]
  refine hs.stable l fun a _ b _ c _ hab hbc => ?_
  rw [before_exactly] at hab hbc ⊢
  exact hbc.trans hab

theorem rrfScores_exactly (lists : List (List RankedHit)) (k : ℕ) :
    rrfScores (exactly F) lists k = CognitiveMemory.rrfScores lists k := by
  rw [rrfScores, addContribution_exactly]
  rfl

theorem reciprocalRankFusion_exactly (lists : List (List RankedHit)) (k : ℕ) :
    reciprocalRankFusion (exactly F) lists k = CognitiveMemory.reciprocalRankFusion lists k := by
  unfold reciprocalRankFusion CognitiveMemory.reciprocalRankFusion
  rw [rrfScores_exactly]
  simp only [sortFused, insertionSort_exactly]

theorem fuseHybrid_exactly (userId : String) (o : SearchOptions F) :
    fuseHybrid (exactly F) userId o = CognitiveMemory.fuseHybrid userId o := by
  funext scored
  unfold fuseHybrid CognitiveMemory.fuseHybrid
  simp only [reciprocalRankFusion_exactly]
  rfl

theorem expandEntry_exactly (cfg : LifecycleConfig F) (queryVec : List F) (o : SearchOptions F) :
    expandEntry (exactly F) cfg queryVec o = CognitiveMemory.expandEntry cfg queryVec o := by
  funext lm
  have hweak : (exactly F).lt (liveWeight (exactly F) cfg o.now lm) ((exactly F).num o.minBridgeEdgeWeight) = true ↔
      CognitiveMemory.liveWeight cfg o.now lm < o.minBridgeEdgeWeight := exact_lt
  unfold expandEntry CognitiveMemory.expandEntry
  refine if_congr hweak rfl ?_
  cases lm.memory.embedding with
  | none => rfl
  | some v =>
    refine if_congr Iff.rfl rfl ?_
    exact congrArg (fun score => some ((SearchCandidate.ofRow lm.memory).result (score * CognitiveMemory.liveWeight cfg o.now lm)
      .graphExpanded)) (composite_exactly cfg queryVec o.now _)

theorem expandHops_exactly (cfg : LifecycleConfig F) (userId : String) (queryVec : List F) (o : SearchOptions F) (n : ℕ)
    (x : Expansion F) : expandHops (exactly F) cfg userId queryVec o n x = CognitiveMemory.expandHops cfg userId queryVec o n x := by
  have hadd : expandWith (exactly F) cfg queryVec o = Expansion.add cfg queryVec o := by
    funext x lm
    rewrite [expandWith, Expansion.add, expandEntry_exactly]
    cases CognitiveMemory.expandEntry cfg queryVec o lm <;> rfl
  induction n generalizing x with
  | zero => rfl
  | succ n ih =>
    rw [expandHops, CognitiveMemory.expandHops, hadd]
    simp only [ih]

theorem search_exactly {sort : List (SearchResult F) → List (SearchResult F)}
    (hs : (exactly F).SortsBy SearchResult.score sort) (cfg : LifecycleConfig F) (userId : String) (queryVec : List F)
    (o : SearchOptions F) : search (exactly F) sort cfg userId queryVec o = CognitiveMemory.search cfg userId queryVec o := by
  unfold search CognitiveMemory.search hybridHits CognitiveMemory.hybridHits expandedHits CognitiveMemory.expandedHits
    expandViaGraph CognitiveMemory.expandViaGraph
  simp only [sort_exactly hs, scoreCandidate_exactly, fuseHybrid_exactly, expandHops_exactly]

end
end CognitiveMemory.Rounded
