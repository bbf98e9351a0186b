import CognitiveMemory.Lib.Forwarding
import CognitiveMemory.Store.Effects
import Mathlib.Data.Prod.Lex

/-! Memories as a table of standings, and the transaction that resolves queued conflicts as a
contest over it. -/

namespace CognitiveMemory
open Forwarding
variable {F : Type}

/-! ## Memories as a forwarding table -/

def MemoryRow.standing (r : MemoryRow F) : String × Standing String :=
  (r.userId, if r.isSuperseded then .moved r.supersededBy else .live)

theorem superseded_iff {r : MemoryRow F} : r.isSuperseded = true ↔ r.standing.2 = .moved r.supersededBy := by
  unfold MemoryRow.standing
  cases r.isSuperseded <;> simp

theorem unsuperseded_iff {r : MemoryRow F} : r.isSuperseded = false ↔ r.standing.2 = .live := by
  unfold MemoryRow.standing
  cases r.isSuperseded <;> simp

def MemoryRow.entry (r : MemoryRow F) : String × String × Standing String := (r.id, r.standing)

def Db.standings (db : Db F) : Table String String := fun id => (db.memories.map MemoryRow.entry).lookup id

section
variable {db db' : Db F}

theorem standings_of_mem (hk : db.Keyed) {r : MemoryRow F} (hr : r ∈ db.memories) : db.standings r.id = some r.standing := by
  have hnd : ((db.memories.map MemoryRow.entry).map Prod.fst).Nodup := by
    rw [List.map_map]
    exact hk
  exact lookup_of_mem hnd (List.mem_map_of_mem (f := MemoryRow.entry) hr)

theorem mem_of_standings {id : String} {e : String × Standing String} (h : db.standings id = some e) :
    ∃ r ∈ db.memories, r.id = id ∧ r.standing = e := by
  obtain ⟨before, after, hsplit, -⟩ := List.lookup_eq_some_iff.mp h
  have hmem : (id, e) ∈ db.memories.map MemoryRow.entry := by simp [hsplit]
  obtain ⟨r, hr, heq⟩ := List.mem_map.mp hmem
  cases heq
  exact ⟨r, hr, rfl, rfl⟩

theorem standings_same (h : db'.memories.map MemoryRow.entry = db.memories.map MemoryRow.entry) :
    db'.standings = db.standings := by
  unfold Db.standings
  rw [h]

theorem lookup_map_values {α β : Type} [BEq α] [LawfulBEq α] (g : α → β → β) (l : List (α × β)) (k : α) :
    (l.map fun e => (e.1, g e.1 e.2)).lookup k = (l.lookup k).map (g k) := by
  induction l with
  | nil => rfl
  | cons e l ih =>
    obtain ⟨a, b⟩ := e
    rw [List.map_cons, List.lookup_cons, List.lookup_cons, ih]
    cases hka : k == a with
    | true =>
      obtain rfl : k = a := eq_of_beq hka
      rfl
    | false => rfl

theorem standings_modify {p : MemoryRow F → Bool} {f : MemoryRow F → MemoryRow F} {S : String → String → Bool}
    {target : String} (hp : ∀ r, p r = S r.id r.userId) (hf : ∀ r, (f r).entry = (r.id, r.userId, .moved (some target))) :
    (db.modify p f).standings = db.standings.redirect S target := by
  have hentries : (db.modify p f).memories.map MemoryRow.entry = (db.memories.map MemoryRow.entry).map fun e =>
      (e.1, if S e.1 e.2.1 then (e.2.1, .moved (some target)) else e.2) := by
    simp only [Db.modify, List.map_map]
    refine List.map_congr_left fun r _ => ?_
    simp only [Function.comp_apply, hp]
    by_cases hS : S r.id r.userId
    · rw [if_pos hS, hf]
      simp [hS, MemoryRow.entry, MemoryRow.standing]
    · rw [if_neg hS]
      simp [hS, MemoryRow.entry, MemoryRow.standing]
  funext id
  unfold Db.standings Table.redirect
  rw [hentries]
  exact lookup_map_values
      (fun k (e : String × Standing String) => if S k e.1 then (e.1, Standing.moved (some target)) else e) _ id

end

/-! ## One pair -/

/-- What the heuristic compares. -/
def MemoryRow.rank (r : MemoryRow F) : F ×ₗ Int := toLex (r.importance, r.createdAt)

def Db.ranks (db : Db F) : List (String × (F ×ₗ Int)) := db.memories.map fun r => (r.id, r.rank)

def Db.rank? (db : Db F) (id : String) : Option (F ×ₗ Int) := db.ranks.lookup id

def Db.Outranks [LinearOrder F] (db : Db F) (winner loser : String) : Prop :=
  ∃ a b, db.rank? winner = some a ∧ db.rank? loser = some b ∧ b ≤ a

def ConflictRow.pair (c : ConflictRow F) : ConflictPair := ⟨c.id, c.userId, c.newMemoryId, c.existingMemoryId⟩

/-- The two memories of a pair, either way round. -/
def ConflictPair.joins (p : ConflictPair) (a b : String) : Prop :=
  a = p.newMemoryId ∧ b = p.existingMemoryId ∨ a = p.existingMemoryId ∧ b = p.newMemoryId

def Db.Marks (db db' : Db F) (winner loser : String) : Prop :=
  winner ≠ loser ∧ ∃ user, db.standings winner = some (user, .live) ∧ db.standings loser = some (user, .live) ∧
    db'.standings = db.standings.redirect (fun k _ => k == loser) winner

section
variable {db db' : Db F}

theorem standings_supersede [Field F] (winner loser : MemoryRow F) :
    (db.supersede winner loser).standings = db.standings.redirect (fun k _ => k == loser.id) winner.id := by
  have hmark : (db.modify (fun r => r.id == loser.id) fun r => { r with
      isSuperseded := true, supersededBy := some winner.id, contradictedBy := some winner.id }).standings =
        db.standings.redirect (fun k _ => k == loser.id) winner.id :=
    standings_modify (fun _ => rfl) fun _ => rfl
  unfold Db.supersede
  dsimp only
  split
  · refine (standings_same ?_).trans hmark
    refine Db.Edited.map_eq (.modify _ rfl) fun f hf r => ?_
    obtain rfl := hf
    rfl
  · exact hmark

section
variable [Field F] [LinearOrder F]

theorem standings_liftImportance (n e : MemoryRow F) : (db.liftImportance n e).standings = db.standings := by
  refine standings_same ?_
  unfold Db.liftImportance
  split
  · refine Db.Edited.map_eq (.modify _ rfl) fun f hf r => ?_
    obtain rfl := hf
    rfl
  · rfl

/-- A label decides between the two memories, by rank where no LLM is asked, or leaves both. -/
theorem applyLabel_cases (llm : Bool) {n e : MemoryRow F} {user : String} (hn : db.standings n.id = some (user, .live))
    (he : db.standings e.id = some (user, .live)) (hne : n.id ≠ e.id) (label : ConflictLabel) :
    db.applyLabel llm n e label = (db, 0) ∨
      (db.applyLabel llm n e label).2 = 1 ∧ ∃ winner loser, (winner = n ∧ loser = e ∨ winner = e ∧ loser = n) ∧
        db.Marks (db.applyLabel llm n e label).1 winner.id loser.id ∧ (llm = false → loser.rank ≤ winner.rank) := by
  have hnew : db.Marks (db.supersede n e) n.id e.id := ⟨hne, user, hn, he, standings_supersede n e⟩
  have hexisting : db.Marks (db.supersede e n) e.id n.id := ⟨hne.symm, user, he, hn, standings_supersede e n⟩
  have hlifted : db.Marks ((db.liftImportance n e).supersede n e) n.id e.id :=
    ⟨hne, user, hn, he, by rw [standings_supersede, standings_liftImportance]⟩
  -- The heuristic compares importance first, then recency.
  have hrank : ∀ r : Db F × ℕ, r =
      (if e.importance < n.importance ∨ (n.importance = e.importance ∧ e.createdAt < n.createdAt) then
      (db.supersede n e, 1) else (db.supersede e n, 1)) → r.2 = 1 ∧ ∃ winner loser,
        (winner = n ∧ loser = e ∨ winner = e ∧ loser = n) ∧
        db.Marks r.1 winner.id loser.id ∧ (llm = false → loser.rank ≤ winner.rank) := by
    rintro r rfl
    split
    · rename_i hwins
      refine ⟨rfl, n, e, .inl ⟨rfl, rfl⟩, hnew, fun _ => Prod.Lex.toLex_le_toLex.mpr ?_⟩
      exact hwins.imp_right fun ⟨himp, hcreated⟩ => ⟨himp.symm, hcreated.le⟩
    · rename_i hloses
      rw [not_or, not_and_or, not_lt, not_lt] at hloses
      refine ⟨rfl, e, n, .inr ⟨rfl, rfl⟩, hexisting, fun _ => Prod.Lex.toLex_le_toLex.mpr ?_⟩
      obtain ⟨hle, hrest⟩ := hloses
      rcases hle.lt_or_eq with hlt | heq
      · exact .inl hlt
      · exact .inr ⟨heq, hrest.resolve_left (not_not_intro heq)⟩
  cases label with
  | contradiction =>
    right
    cases llm with
    | true => exact ⟨rfl, n, e, .inl ⟨rfl, rfl⟩, hnew, nofun⟩
    | false => exact hrank _ rfl
  | update =>
    right
    cases llm with
    | true => exact ⟨rfl, n, e, .inl ⟨rfl, rfl⟩, hlifted, nofun⟩
    | false => exact hrank _ rfl
  | overlap | none_ => exact .inl rfl

/-- A pair of two memories is either left as it is, or decided between its memories. -/
theorem pair_cases (llm : Bool) (answers : ℕ → String → Except String String) {acc : Resolving F} (hk : acc.db.Keyed)
    {p : ConflictPair} (hne : p.newMemoryId ≠ p.existingMemoryId) :
    (acc.pair llm answers p).db.memories = acc.db.memories ∧ (acc.pair llm answers p).resolved = acc.resolved ∨
      (acc.pair llm answers p).resolved = acc.resolved + 1 ∧ ∃ winner ∈ acc.db.memories, ∃ loser ∈ acc.db.memories,
        p.joins winner.id loser.id ∧ acc.db.Marks (acc.pair llm answers p).db winner.id loser.id ∧
          (llm = false → loser.rank ≤ winner.rank) := by
  have hdequeued : (acc.pair llm answers p).db.memories = (acc.resolve llm answers p).db.memories := rfl
  have hstandings : (acc.pair llm answers p).db.standings = (acc.resolve llm answers p).db.standings := rfl
  have hcount : (acc.pair llm answers p).resolved = (acc.resolve llm answers p).resolved := rfl
  rw [hdequeued, hcount]
  unfold Db.Marks
  rw [hstandings]
  unfold Resolving.resolve
  split
  · rename_i n e hn he
    split
    · rename_i hlive
      have hfound : ∀ {id : String} {r : MemoryRow F}, acc.db.memories.find? (owned p.userId id) = some r →
          r.isSuperseded = false → r.id = id ∧ acc.db.standings r.id = some (p.userId, .live) := by
        intro id r hr hs
        have ho := List.find?_some hr
        simp only [owned, Bool.and_eq_true, beq_iff_eq] at ho
        refine ⟨ho.2, ?_⟩
        rw [standings_of_mem hk (List.mem_of_find?_eq_some hr), MemoryRow.standing, hs, ho.1]
        rfl
      simp only [Bool.and_eq_true, Bool.not_eq_true'] at hlive
      -- both stand, so the judgement can mark either
      obtain ⟨hnid, hnlive⟩ := hfound hn hlive.1
      obtain ⟨heid, helive⟩ := hfound he hlive.2
      have hmem := List.mem_of_find?_eq_some hn
      have hmem' := List.mem_of_find?_eq_some he
      rcases applyLabel_cases llm hnlive helive (by rw [hnid, heid]; exact hne) (acc.judge llm answers n e).1 with
        hsame | ⟨hone, winner, loser, hwho, hmarks, hrank⟩
      · exact .inl ⟨congrArg (fun r => r.1.memories) hsame, congrArg (fun r => acc.resolved + r.2) hsame⟩
      · right
        refine ⟨congrArg (acc.resolved + ·) hone, winner, ?_, loser, ?_, ?_, hmarks, hrank⟩
        · rcases hwho with ⟨rfl, rfl⟩ | ⟨rfl, rfl⟩ <;> assumption
        · rcases hwho with ⟨rfl, rfl⟩ | ⟨rfl, rfl⟩ <;> assumption
        · rcases hwho with ⟨rfl, rfl⟩ | ⟨rfl, rfl⟩
          · exact .inl ⟨hnid, heid⟩
          · exact .inr ⟨heid, hnid⟩
    · exact .inl ⟨rfl, rfl⟩
  · exact .inl ⟨rfl, rfl⟩

omit [Field F] [LinearOrder F] in
theorem rank?_of_mem (hk : db.Keyed) {r : MemoryRow F} (hr : r ∈ db.memories) : db.rank? r.id = some r.rank := by
  have hnd : (db.ranks.map Prod.fst).Nodup := by
    rw [Db.ranks, List.map_map]
    exact hk
  exact lookup_of_mem hnd (List.mem_map_of_mem (f := fun r : MemoryRow F => (r.id, r.rank)) hr)

omit [LinearOrder F] in
theorem ranks_supersede (winner loser : MemoryRow F) : (db.supersede winner loser).ranks = db.ranks := by
  have hedited : Db.Edited (fun f => ∀ r, (f r).id = r.id ∧ (f r).rank = r.rank) db (db.supersede winner loser) := by
    unfold Db.supersede
    dsimp only
    split
    · refine .step (.modify _ ?_) _ ?_ rfl
      · exact fun _ => ⟨rfl, rfl⟩
      · exact fun _ => ⟨rfl, rfl⟩
    · refine .modify _ ?_
      exact fun _ => ⟨rfl, rfl⟩
  refine hedited.map_eq fun f hf r => ?_
  rw [(hf r).1, (hf r).2]

theorem ranks_pair (answers : ℕ → String → Except String String) (acc : Resolving F) (p : ConflictPair) :
    (acc.pair false answers p).db.ranks = acc.db.ranks := by
  show (acc.resolve false answers p).db.ranks = acc.db.ranks
  unfold Resolving.resolve
  split
  · split
    · show (if _ then (acc.db.supersede _ _, 1) else (acc.db.supersede _ _, 1) : Db F × ℕ).1.ranks = acc.db.ranks
      split
      · exact ranks_supersede _ _
      · exact ranks_supersede _ _
    · rfl
  · rfl

theorem mem_selected {bm25 : Bm25 F} {w : World F} {limit : ℕ} {pairs : List ConflictPair} {p : ConflictPair}
    (h : (exec bm25 (.query (.conflictPairs limit)) w).1 = .ok pairs) (hp : p ∈ pairs) : ∃ c ∈ w.db.conflictQueue,
      c.pair = p := by
  simp only [exec] at h
  split at h <;> cases h
  obtain ⟨c, hc, rfl⟩ := List.mem_map.mp hp
  exact ⟨c, (List.perm_insertionSort _ _).mem_iff.mp (List.mem_of_mem_take hc), rfl⟩

/-! ## What a pair leaves alone -/

omit [Field F] [LinearOrder F] in
theorem filter_modify {p : MemoryRow F → Bool} {f : MemoryRow F → MemoryRow F} {q : String → Bool}
    (hp : ∀ r, p r → q r.id = false) (hf : ∀ r, (f r).id = r.id) :
    (db.modify p f).memories.filter (fun r => q r.id) = db.memories.filter fun r => q r.id := by
  have hq : ((fun r : MemoryRow F => q r.id) ∘ fun r => if p r then f r else r) = fun r => q r.id := by
    funext r
    simp only [Function.comp_apply]
    split
    · rw [hf]
    · rfl
  rw [Db.modify, List.filter_map, hq]
  refine (List.map_congr_left fun r hr => ?_).trans (List.map_id _)
  have hkept := (List.mem_filter.mp hr).2
  have hpr : ¬ p r := fun h => by
    rw [hp r h] at hkept
    cases hkept
  exact if_neg hpr

omit [LinearOrder F] in
theorem filter_supersede {winner loser : MemoryRow F} {q : String → Bool} (hq : q loser.id = false) :
    (db.supersede winner loser).memories.filter (fun r => q r.id) = db.memories.filter fun r => q r.id := by
  have hp : ∀ r : MemoryRow F, r.id == loser.id → q r.id = false := fun r hr => by rw [eq_of_beq hr, hq]
  unfold Db.supersede
  dsimp only
  split
  · refine (filter_modify hp ?_).trans (filter_modify hp ?_)
    · exact fun _ => rfl
    · exact fun _ => rfl
  · exact filter_modify hp fun _ => rfl

theorem filter_applyLabel (llm : Bool) {n e : MemoryRow F} {q : String → Bool} (hn : q n.id = false) (he : q e.id = false)
    (label : ConflictLabel) :
    (db.applyLabel llm n e label).1.memories.filter (fun r => q r.id) = db.memories.filter fun r => q r.id := by
  have hlift : (db.liftImportance n e).memories.filter (fun r => q r.id) = db.memories.filter fun r => q r.id := by
    unfold Db.liftImportance
    split
    · exact filter_modify (fun r hr => by rw [eq_of_beq hr, hn]) fun _ => rfl
    · rfl
  cases label with
  | contradiction =>
    simp only [Db.applyLabel]
    split_ifs
    · exact filter_supersede he
    · exact filter_supersede he
    · exact filter_supersede hn
  | update =>
    simp only [Db.applyLabel]
    split_ifs
    · exact (filter_supersede he).trans hlift
    · exact filter_supersede he
    · exact filter_supersede hn
  | overlap | none_ => rfl

theorem filter_pair (llm : Bool) (answers : ℕ → String → Except String String) {acc : Resolving F} {p : ConflictPair}
    {q : String → Bool} (hn : q p.newMemoryId = false) (he : q p.existingMemoryId = false) :
    (acc.pair llm answers p).db.memories.filter (fun r => q r.id) = acc.db.memories.filter fun r => q r.id := by
  show (acc.resolve llm answers p).db.memories.filter _ = _
  have hfound : ∀ {id : String} {r : MemoryRow F}, acc.db.memories.find? (owned p.userId id) = some r → r.id = id := by
    intro id r hr
    have ho := List.find?_some hr
    simp only [owned, Bool.and_eq_true, beq_iff_eq] at ho
    exact ho.2
  unfold Resolving.resolve
  split
  · rename_i n e hfn hfe
    split
    · exact filter_applyLabel llm (by rw [hfound hfn, hn]) (by rw [hfound hfe, he]) _
    · rfl
  · rfl

/-! ## The transaction -/

/-- A transaction that takes pair after pair and either leaves the memories or marks one of the two;
it counts the marks. -/
inductive Resolution (llm : Bool) : Db F → List ConflictPair → ℕ → Db F → Prop
  | done (db : Db F) : Resolution llm db [] 0 db
  | leave {db d db' : Db F} {p : ConflictPair} {pairs : List ConflictPair} {n : ℕ} (h : d.memories = db.memories)
      (hrest : Resolution llm d pairs n db') : Resolution llm db (p :: pairs) n db'
  | mark {db d db' : Db F} {p : ConflictPair} {pairs : List ConflictPair} {n : ℕ} {winner loser : String}
      (hjoins : p.joins winner loser) (hmarks : db.Marks d winner loser)
      (hrank : llm = false → db.Outranks winner loser ∧ d.ranks = db.ranks) (hrest : Resolution llm d pairs n db') :
      Resolution llm db (p :: pairs) (n + 1) db'

theorem keyed_pair (llm : Bool) (answers : ℕ → String → Except String String) {acc : Resolving F} (hk : acc.db.Keyed)
    (p : ConflictPair) : (acc.pair llm answers p).db.Keyed := by
  have hids := (resolve_effects llm answers acc p).1.ids
  unfold Db.Keyed at hk ⊢
  exact hids ▸ hk

theorem resolution_of_fold (llm : Bool) (answers : ℕ → String → Except String String) {pairs : List ConflictPair}
    (hne : ∀ p ∈ pairs, p.newMemoryId ≠ p.existingMemoryId) {acc : Resolving F} (hk : acc.db.Keyed) :
    ∃ n, Resolution llm acc.db pairs n (pairs.foldl (Resolving.pair llm answers) acc).db ∧
      (pairs.foldl (Resolving.pair llm answers) acc).resolved = acc.resolved + n := by
  induction pairs generalizing acc with
  | nil => exact ⟨0, .done _, rfl⟩
  | cons p pairs ih =>
    obtain ⟨hp, hrest⟩ := List.forall_mem_cons.mp hne
    obtain ⟨n, hresolution, hcount⟩ := ih hrest (keyed_pair llm answers hk p)
    rw [List.foldl_cons, hcount]
    rcases pair_cases llm answers hk hp with ⟨hmem, hsame⟩ | ⟨hone, winner, hwinner, loser, hloser, hjoins, hmarks, hrank⟩
    · exact ⟨n, .leave hmem hresolution, by rw [hsame]⟩
    · refine ⟨n + 1, .mark hjoins hmarks (fun hllm => ⟨?_, ?_⟩) hresolution, by rw [hone, Nat.add_assoc, Nat.add_comm 1]⟩
      · exact ⟨_, _, rank?_of_mem hk hwinner, rank?_of_mem hk hloser, hrank hllm⟩
      · subst hllm
        exact ranks_pair answers acc p

theorem filter_fold (llm : Bool) (answers : ℕ → String → Except String String) {pairs : List ConflictPair}
    {acc : Resolving F}
    {q : String → Bool} (hq : ∀ p ∈ pairs, q p.newMemoryId = false ∧ q p.existingMemoryId = false) :
    (pairs.foldl (Resolving.pair llm answers) acc).db.memories.filter (fun r => q r.id) =
      acc.db.memories.filter fun r => q r.id := by
  induction pairs generalizing acc with
  | nil => rfl
  | cons p pairs ih =>
    obtain ⟨⟨hn, he⟩, hrest⟩ := List.forall_mem_cons.mp hq
    exact (ih hrest).trans (filter_pair llm answers hn he)

theorem queue_fold (llm : Bool) (answers : ℕ → String → Except String String) {pairs : List ConflictPair}
    {acc : Resolving F} :
    (pairs.foldl (Resolving.pair llm answers) acc).db.conflictQueue =
      acc.db.conflictQueue.filter fun c => !(pairs.map ConflictPair.id).contains c.id := by
  induction pairs generalizing acc with
  | nil => exact (List.filter_eq_self.mpr fun _ _ => rfl).symm
  | cons p pairs ih =>
    rw [List.foldl_cons, ih]
    have hqueue : (acc.pair llm answers p).db.conflictQueue = acc.db.conflictQueue.filter (·.id != p.id) := by
      rw [← (resolve_effects llm answers acc p).2.conflictQueue]
      rfl
    rw [hqueue, List.filter_filter]
    refine List.filter_congr fun c _ => ?_
    rw [List.map_cons, List.contains_cons, Bool.not_or, Bool.and_comm]
    rfl

omit [Field F] in
/-- A transaction is a contest in which those beat one another that a pair joins, the higher rank
where no LLM is asked. -/
theorem Resolution.contest {llm : Bool} {pairs : List ConflictPair} {n : ℕ} (h : Resolution llm db pairs n db') :
    ∃ losers, db.standings.Contest (fun w l => (∃ p ∈ pairs, p.joins w l) ∧ (llm = false → db.Outranks w l)) losers
      db'.standings ∧
      losers.length = n ∧ (llm = false → db'.ranks = db.ranks) := by
  induction h with
  | done db => exact ⟨[], .refl, rfl, fun _ => rfl⟩
  | @leave db d db' p pairs n hmem _ ih =>
    obtain ⟨losers, hcontest, hlen, hranks⟩ := ih
    have hsame : d.ranks = db.ranks := by rw [Db.ranks, hmem, Db.ranks]
    have hstandings : d.standings = db.standings := standings_same (by rw [hmem])
    refine ⟨losers, ?_, hlen, fun hllm => (hranks hllm).trans hsame⟩
    rw [← hstandings]
    refine hcontest.mono fun w l ⟨⟨p', hp', hjoins⟩, hrank⟩ => ⟨⟨p', List.mem_cons_of_mem _ hp', hjoins⟩, fun hllm => ?_⟩
    rw [Db.Outranks, Db.rank?, Db.rank?, ← hsame]
    exact hrank hllm
  | @mark db d db' p pairs n winner loser hjoins hmarks hrank _ ih =>
    obtain ⟨losers, hcontest, hlen, hranks⟩ := ih
    obtain ⟨hne, user, hwinner, hloser, hstandings⟩ := hmarks
    refine ⟨losers ++ [loser], ?_, by simp [hlen], fun hllm => (hranks hllm).trans (hrank hllm).2⟩
    refine Table.Contest.trans (.step .refl hwinner hloser (beq_eq_false_iff_ne.mpr hne)
        ⟨⟨p, List.mem_cons_self, hjoins⟩, fun hllm => (hrank hllm).1⟩) ?_
    rw [← hstandings]
    refine hcontest.mono fun w l ⟨⟨p', hp', hjoins'⟩, hrank'⟩ => ⟨⟨p', List.mem_cons_of_mem _ hp', hjoins'⟩, fun hllm => ?_⟩
    rw [Db.Outranks, Db.rank?, Db.rank?, ← (hrank hllm).2]
    exact hrank' hllm

/-- The resolver points losers at winners, both of them live when it looks. -/
theorem resolving_merged (llm : Bool) (answers : ℕ → String → Except String String) {pairs : List ConflictPair}
    (hne : ∀ p ∈ pairs, p.newMemoryId ≠ p.existingMemoryId) (acc : Resolving F) (hk : acc.db.Keyed) :
    acc.db.standings.Merged (pairs.foldl (Resolving.pair llm answers) acc).db.standings := by
  obtain ⟨n, hresolution, -⟩ := resolution_of_fold llm answers hne hk
  obtain ⟨losers, hcontest, -⟩ := hresolution.contest
  exact hcontest.merged

end

/-! ## Queue ids -/

def Db.QueueNumbered (db : Db F) : Prop :=
  (db.conflictQueue.map ConflictRow.id).Nodup ∧ ∀ c ∈ db.conflictQueue, c.id ≤ db.conflictSeq

def Db.Requeued (db' db : Db F) : Prop := db.conflictSeq ≤ db'.conflictSeq ∧
  ∃ kept new, db'.conflictQueue = kept ++ new ∧ kept.Sublist db.conflictQueue ∧ (new.map ConflictRow.id).Nodup ∧
    ∀ c ∈ new, db.conflictSeq < c.id ∧ c.id ≤ db'.conflictSeq

theorem Db.Requeued.of_sublist (hseq : db'.conflictSeq = db.conflictSeq)
    (hqueue : db'.conflictQueue.Sublist db.conflictQueue) :
    db'.Requeued db :=
  ⟨hseq.ge, db'.conflictQueue, [], (List.append_nil _).symm, hqueue, List.nodup_nil, nofun⟩

theorem Db.Requeued.refl (db : Db F) : db.Requeued db := .of_sublist rfl (List.Sublist.refl _)

theorem Db.Requeued.trans {db'' : Db F} (h : db''.Requeued db') (h' : db'.Requeued db) : db''.Requeued db := by
  obtain ⟨hseq, kept, new, hqueue, hkept, hnodup, hnew⟩ := h
  obtain ⟨hseq', kept', new', hqueue', hkept', hnodup', hnew'⟩ := h'
  rw [hqueue'] at hkept
  obtain ⟨kept₁, kept₂, rfl, h₁, h₂⟩ := List.sublist_append_iff.mp hkept
  refine ⟨hseq'.trans hseq, kept₁, kept₂ ++ new, by rw [hqueue, List.append_assoc], h₁.trans hkept', ?_, fun c hc => ?_⟩
  · rw [List.map_append, List.nodup_append]
    refine ⟨hnodup'.sublist (h₂.map _), hnodup, ?_⟩
    rintro a ha b hb rfl
    obtain ⟨c, hc, rfl⟩ := List.mem_map.mp ha
    obtain ⟨d, hd, heq⟩ := List.mem_map.mp hb
    have hold := (hnew' c (h₂.subset hc)).2
    have hlater := (hnew d hd).1
    rw [heq] at hlater
    exact absurd hold (not_le.mpr hlater)
  · rcases List.mem_append.mp hc with hc | hc
    · exact ⟨(hnew' c (h₂.subset hc)).1, (hnew' c (h₂.subset hc)).2.trans hseq⟩
    · exact ⟨hseq'.trans_lt (hnew c hc).1, (hnew c hc).2⟩

theorem Db.Requeued.numbered (h : db'.Requeued db) (hnum : db.QueueNumbered) : db'.QueueNumbered := by
  obtain ⟨hseq, kept, new, hqueue, hkept, hnodup, hnew⟩ := h
  unfold Db.QueueNumbered
  rw [hqueue]
  constructor
  · rw [List.map_append, List.nodup_append]
    refine ⟨hnum.1.sublist (hkept.map _), hnodup, ?_⟩
    rintro a ha b hb rfl
    obtain ⟨c, hc, rfl⟩ := List.mem_map.mp ha
    obtain ⟨d, hd, heq⟩ := List.mem_map.mp hb
    have hold := hnum.2 c (hkept.subset hc)
    have hlater := (hnew d hd).1
    rw [heq] at hlater
    exact absurd hold (not_le.mpr hlater)
  · intro c hc
    rcases List.mem_append.mp hc with hc | hc
    · exact (hnum.2 c (hkept.subset hc)).trans hseq
    · exact (hnew c hc).2

theorem Db.Requeued.mem (h : db'.Requeued db) {c : ConflictRow F} (hc : c ∈ db'.conflictQueue)
    (hid : c.id ≤ db.conflictSeq) :
    c ∈ db.conflictQueue := by
  obtain ⟨-, kept, new, hqueue, hkept, -, hnew⟩ := h
  rw [hqueue] at hc
  rcases List.mem_append.mp hc with hc | hc
  · exact hkept.subset hc
  · exact absurd hid (not_le.mpr (hnew c hc).1)

theorem Db.Requeued.foldl {α : Type} {step : Db F → α → Db F} (hstep : ∀ db a, (step db a).Requeued db) (xs : List α)
    (db : Db F) :
    (xs.foldl step db).Requeued db := by
  induction xs generalizing db with
  | nil => exact refl db
  | cons x xs ih => exact (ih (step db x)).trans (hstep db x)

theorem requeued_modifyEach {α : Type} (db : Db F) (p : α → MemoryRow F → Bool) (f : α → MemoryRow F → MemoryRow F)
    (xs : List α) :
    (db.modifyEach p f xs).1.Requeued db := by
  rw [modifyEach_fst]
  refine .foldl (fun _ _ => ?_) xs db
  exact .of_sublist rfl (List.Sublist.refl _)

theorem requeued_upsert {row : AssociationRow F} {f : AssociationRow F → AssociationRow F}
    (h : db.upsertAssociation row f = .ok db') : db'.Requeued db := by
  unfold Db.upsertAssociation at h
  split at h
  · cases h
    exact .of_sublist rfl (List.Sublist.refl _)
  · split at h <;> cases h
    exact .of_sublist rfl (List.Sublist.refl _)

theorem requeued_queueConflict {userId newId existingId : String} {sim : F} {now : Int}
    (h : db.queueConflict userId newId existingId sim now = .ok db') : db'.Requeued db := by
  unfold Db.queueConflict at h
  split at h
  · cases h
    exact .refl _
  · split at h <;> cases h
    refine ⟨Nat.le_succ _, db.conflictQueue, _, rfl, List.Sublist.refl _, List.nodup_singleton _, ?_⟩
    intro c hc
    rw [List.mem_singleton.mp hc]
    exact ⟨Nat.lt_succ_self _, le_refl _⟩

variable [Field F] [LinearOrder F]

theorem Write.requeued {w : Write F} {a : w.Res} (h : w.apply db = .ok (a, db')) : db'.Requeued db := by
  have hsame : ∀ {d : Db F}, d.conflictSeq = db.conflictSeq → d.conflictQueue = db.conflictQueue → d.Requeued db :=
    fun hseq hqueue => .of_sublist hseq (hqueue ▸ List.Sublist.refl _)
  cases w with
  | insertMemory row =>
    obtain ⟨d, hd, hp⟩ := map_ok h
    cases hp
    rw [insertMemory_ok hd]
    exact hsame rfl rfl
  | updateMemory userId id upd =>
    cases h
    unfold Db.updateMemory
    dsimp only
    split
    · exact hsame rfl rfl
    · split <;> exact hsame rfl rfl
  | deleteMemory | deleteMany | clearUser =>
    cases h
    exact .of_sublist rfl List.filter_sublist
  | deleteEdge | deleteEdgeBidirectional =>
    cases h
    exact hsame rfl rfl
  | applyDirectBoost | promoteToCore | updateRetentionScores | migrateToHotMany | supersedeCluster =>
    cases h
    exact requeued_modifyEach _ _ _ _
  | markSuperseded | migrateToCold | migrateToHot | convertToStub =>
    cases h
    exact hsame rfl rfl
  | upsertEdge a b existing bump now kind =>
    obtain ⟨d, hd, hp⟩ := map_ok h
    cases hp
    exact requeued_upsert hd
  | strengthenPairs pairs amount now kind =>
    obtain ⟨d, hd, hp⟩ := map_ok h
    cases hp
    exact foldlM_ok (R := Db.Requeued) .refl (fun h h' => h'.trans h) (fun _ _ _ h => requeued_upsert h) hd
  | cacheInsert row =>
    cases h
    unfold Db.cacheInsert
    split <;> exact hsame rfl rfl
  | insertBridgeToken row =>
    simp only [apply] at h
    split at h <;> cases h
    exact hsame rfl rfl
  | queueConflicts userId newId hits now =>
    obtain ⟨d, hd, hp⟩ := map_ok h
    cases hp
    refine queueConflicts_keeps (R := Db.Requeued) .refl (fun h h' => h'.trans h) ?_ hd
    -- what one hit can do, each in turn
    intro hit _ d d' hd
    cases hd with
    | pass => exact .refl d
    | reinforce => exact .of_sublist rfl (List.Sublist.refl _)
    | queue _ hq => exact requeued_queueConflict hq
    | tag h₁ h₂ => exact (requeued_upsert h₂).trans (requeued_upsert h₁)
  | tickFloor rows now =>
    cases h
    refine .foldl (fun d row => ?_) rows db
    unfold Db.tickFloorRow Db.countAtFloor
    dsimp only
    split_ifs <;> exact .of_sublist rfl (List.Sublist.refl _)
  | tickExpire rows =>
    cases h
    refine .foldl (fun d row => ?_) rows db
    unfold Db.tickExpireRow
    split_ifs <;> exact .of_sublist rfl (List.Sublist.refl _)

theorem requeued_pair (llm : Bool) (answers : ℕ → String → Except String String) (acc : Resolving F) (p : ConflictPair) :
    (acc.pair llm answers p).db.Requeued acc.db := by
  have hqueue : (acc.resolve llm answers p).db.conflictQueue = acc.db.conflictQueue :=
      (resolve_effects llm answers acc p).2.conflictQueue
  have hseq : ∀ (db : Db F) n e label, (db.applyLabel llm n e label).1.conflictSeq = db.conflictSeq := by
    intro db n e label
    have hsupersede : ∀ (db : Db F) w l, (db.supersede w l).conflictSeq = db.conflictSeq := by
      intro db w l
      unfold Db.supersede
      dsimp only
      split <;> rfl
    have hlift : (db.liftImportance n e).conflictSeq = db.conflictSeq := by
      unfold Db.liftImportance
      split <;> rfl
    cases label with
    | contradiction =>
      simp only [Db.applyLabel]
      split_ifs <;> exact hsupersede _ _ _
    | update =>
      simp only [Db.applyLabel]
      split_ifs
      · exact (hsupersede _ _ _).trans hlift
      · exact hsupersede _ _ _
      · exact hsupersede _ _ _
    | overlap | none_ => rfl
  refine .of_sublist ?_ (hqueue ▸ List.filter_sublist)
  show (acc.resolve llm answers p).db.conflictSeq = _
  unfold Resolving.resolve
  split
  · split
    · exact hseq _ _ _ _
    · rfl
  · rfl

theorem requeued_exec (bm25 : Bm25 F) (c : Cmd F) (w : World F) : (exec bm25 c w).2.db.Requeued w.db := by
  refine exec_keeps (P := fun db => db.Requeued w.db) bm25 (.refl _) ?_ ?_
  · exact fun wr a db _ happly => Write.requeued happly
  · intro llm pairs _
    have hfold : ∀ (pairs : List ConflictPair) (acc : Resolving F),
        (pairs.foldl (Resolving.pair llm w.oracle.llm) acc).db.Requeued acc.db := by
      intro pairs
      induction pairs with
      | nil => exact fun acc => .refl _
      | cons p pairs ih => exact fun acc => (ih _).trans (requeued_pair llm _ acc p)
    exact hfold pairs ⟨w.db, 0, 0⟩

end
end CognitiveMemory
